import CppGraduate.Lib.Lru
import CppGraduate.LruInC.Lru

/-!
# lru-in-c is the textbook cache

The cache represents a reference cache when its recency list is the list of
the resident keys' nodes, each node leads to the entry of its key, and the
index leads from exactly the resident keys to their own nodes. `node` is
the node of each key; it exists in the proof only.

`Represents` says nothing of `size`, which runs one behind between an
insertion and the eviction it causes. `Refines` adds it, and is what holds
between calls.
-/

namespace LruInC

open Lru (Request Answer)

/-- **The list, the entries and the index agree** on the resident keys
`keys`, most recent first, and on their pages. -/
structure Represents (s : State) (node : PageId → Addr) (keys : List PageId)
    (page : PageId → Option Page) : Prop where
  /-- The recency list, front to back, is the nodes of the keys. -/
  list : IsList s.nodes s.cache.recency (keys.map node)
  /-- A node leads to the entry of its key, which holds its page. -/
  payload : ∀ k ∈ keys, ∃ e p, valueOf s.nodes (node k) = some (some e)
    ∧ s.entries.read e = some ⟨some k, some p⟩ ∧ page k = some p
  /-- The index is a well-formed table. -/
  wf : s.cache.index.WF
  /-- The index maps the resident keys, and no other, to their nodes. -/
  index : ∀ k, hashMapFind s.cache.index k = if k ∈ keys then some (node k) else none
  /-- No key is resident twice. -/
  nodup : keys.Nodup

/-- **The cache refines a reference cache** of capacity `c`. -/
structure Refines (c : ℕ) (s : State) (r : Lru.State PageId Page) : Prop where
  represents : ∃ node, Represents s node r.keys r.page
  capacity : s.cache.capacity = c
  size : s.cache.size = r.keys.length
  room : r.keys.length ≤ c

/-- Two states with the same blocks and the same cache object, whatever
addresses have been handed out. -/
structure SameContents (s s' : State) : Prop where
  nodes : s'.nodes.cells = s.nodes.cells
  entries : s'.entries.cells = s.entries.cells
  cache : s'.cache = s.cache

theorem SameContents.refl (s : State) : SameContents s s := ⟨rfl, rfl, rfl⟩

/-- What a state represents is a matter of its contents. -/
theorem Represents.congr {s s' : State} (hs : SameContents s s') {node : PageId → Addr}
    {keys : List PageId} {page : PageId → Option Page} (h : Represents s node keys page) :
    Represents s' node keys page := by
  have hn : ∀ a, s'.nodes.read a = s.nodes.read a := fun a => congrFun hs.nodes a
  have he : ∀ a, s'.entries.read a = s.entries.read a := fun a => congrFun hs.entries a
  have hnext : nextOf s'.nodes = nextOf s.nodes := funext fun a => by rw [nextOf, hn, nextOf]
  have hprev : prevOf s'.nodes = prevOf s.nodes := funext fun a => by rw [prevOf, hn, prevOf]
  refine ⟨?_, fun k hk => ?_, ?_, fun k => ?_, h.nodup⟩
  · rw [IsList, hnext, hprev, hs.cache]
    exact h.list
  · obtain ⟨e, p, hv, hr, hp⟩ := h.payload k hk
    exact ⟨e, p, by rw [valueOf, hn, ← valueOf, hv], by rw [he, hr], hp⟩
  · rw [hs.cache]
    exact h.wf
  · rw [hs.cache]
    exact h.index k

/-- Distinct resident keys have distinct nodes. -/
theorem Represents.node_ne {s : State} {node : PageId → Addr} {keys : List PageId}
    {page : PageId → Option Page} (h : Represents s node keys page) {j k : PageId}
    (hj : j ∈ keys) (hk : k ∈ keys) (hne : k ≠ j) : node k ≠ node j := fun he =>
  hne (List.inj_on_of_nodup_map (List.nodup_cons.mp h.list.nodup).2 hk hj he)

/-- A new cache represents the empty one. -/
theorem lruCreate_spec {mallocs : CreateMallocs} {c : ℕ} {s : State}
    (h : lruCreate mallocs c = some s) : Refines c s Lru.State.empty := by
  obtain ⟨okCache, okList, okMap, okBuckets⟩ := mallocs
  unfold lruCreate at h
  cases okCache with
  | false => exact absurd h (by simp [guard])
  | true =>
  cases okList with
  | false => exact absurd h (by simp [guard, listCreate])
  | true =>
  obtain ⟨nodes, hc, hl⟩ := listCreate_spec Heap.empty
  rw [hc] at h
  obtain ⟨index, hi, rfl⟩ : ∃ index, hashMapCreate okMap okBuckets (if c = 0 then 1 else c)
      = some index ∧ (⟨nodes, .empty, ⟨Heap.empty.bound, index, c, 0⟩⟩ : State) = s := by
    simpa [guard, Option.bind_eq_some_iff] using h
  obtain ⟨hw, hf⟩ := hashMapCreate_spec hi
  exact ⟨⟨fun _ => 0, hl, fun k hk => absurd hk List.not_mem_nil, hw, hf, List.nodup_nil⟩,
    rfl, rfl, Nat.zero_le c⟩

/-! ## Eviction -/

/-- **`evict_oldest` drops the last key** and touches the entry of no
other. -/
theorem evictOldest_spec {s : State} {node : PageId → Addr} {keys : List PageId}
    {j : PageId} {page : PageId → Option Page} (h : Represents s node (keys ++ [j]) page) :
    ∃ s', evictOldest s = some s' ∧ Represents s' node keys page
      ∧ s'.cache.capacity = s.cache.capacity ∧ s'.cache.size = s.cache.size - 1
      ∧ ∀ e x, s.entries.read e = some x → x.key ≠ some j → s'.entries.read e = some x := by
  have hjm : j ∈ keys ++ [j] := by simp
  have hj : j ∉ keys := by
    have := h.nodup
    rw [List.nodup_append] at this
    exact fun hj => this.2.2 j hj j (by simp) rfl
  have hl : IsList s.nodes s.cache.recency (keys.map node ++ node j :: []) := by
    have := h.list
    rwa [List.map_append] at this
  have hback : listBack s.cache.recency s.nodes = some (some (node j)) := by
    rw [listBack_spec hl, List.getLast?_concat]
  obtain ⟨e, p, hv, hr, -⟩ := h.payload j hjm
  have hval : listValue (node j) s.nodes = some (some e) := by
    obtain ⟨x, hx, hxv⟩ := Option.map_eq_some_iff.mp hv
    rw [listValue, hx]
    exact congrArg some hxv
  obtain ⟨nodes, hrem, hl', hv'⟩ := listRemove_spec hl
  obtain ⟨-, hw, hf⟩ := hashMapRemove_spec h.wf j
  have hsome : (s.entries.read e).isSome := by rw [hr, Option.isSome_some]
  refine ⟨⟨nodes, s.entries.erase e, { s.cache with
    index := (hashMapRemove s.cache.index j).2, size := s.cache.size - 1 }⟩, ?_,
    ⟨by simpa using hl', fun k hk => ?_, hw, fun k => ?_, h.nodup.sublist (by simp)⟩,
    rfl, rfl, fun e' x he' hx => ?_⟩
  · simp only [evictOldest, hback, hval, hr, hrem, Heap.free_of_isSome hsome,
      Option.bind_eq_bind, Option.bind_some]
    rfl
  · -- a key that stays has an entry of its own
    have hne : k ≠ j := fun he => hj (he ▸ hk)
    obtain ⟨e', p', hv₁, hr₁, hp₁⟩ := h.payload k (by simp [hk])
    refine ⟨e', p', ?_, ?_, hp₁⟩
    · show valueOf nodes (node k) = _
      rw [hv', if_neg (h.node_ne hjm (by simp [hk]) hne), hv₁]
    · show (s.entries.erase e).read e' = _
      rw [Heap.read_erase, if_neg, hr₁]
      rintro rfl
      rw [hr] at hr₁
      simp only [Option.some.injEq, CacheEntry.mk.injEq] at hr₁
      exact hne hr₁.1.symm
  · show hashMapFind (hashMapRemove s.cache.index j).2 k = _
    rw [hf, h.index]
    by_cases hk : k = j
    · rw [if_pos hk, hk, if_neg hj]
    · rw [if_neg hk]
      simp only [List.mem_append, List.mem_singleton, hk, or_false]
  · show (s.entries.erase e).read e' = _
    rw [Heap.read_erase, if_neg, he']
    rintro rfl
    rw [hr] at he'
    obtain rfl := Option.some.inj he'
    exact hx rfl

/-! ## Insertion -/

/-- The entries with a new one in them. -/
def withEntry (h : Heap CacheEntry) (key : PageId) : Heap CacheEntry :=
  (h.alloc .uninit).2.mapAt h.bound fun e => { e with key := some key }

theorem read_withEntry (h : Heap CacheEntry) (key : PageId) (a : Addr) :
    (withEntry h key).read a = if a = h.bound then some ⟨some key, none⟩ else h.read a := by
  rw [withEntry, Heap.read_mapAt, Heap.read_alloc]
  split <;> rfl

/-- The state once the three allocations of a miss are made and the page
is loaded. -/
def inserted (s : State) (nodes : Heap ListNode) (index : HashMap Addr) (key : PageId)
    (page : Page) : State :=
  ⟨nodes, (withEntry s.entries key).mapAt s.entries.bound fun e => { e with value := some page },
    { s.cache with index := index }⟩

theorem read_inserted (s : State) (nodes : Heap ListNode) (index : HashMap Addr)
    (key : PageId) (page : Page) (a : Addr) :
    (inserted s nodes index key page).entries.read a
      = if a = s.entries.bound then some ⟨some key, some page⟩ else s.entries.read a := by
  rw [inserted, Heap.read_mapAt, read_withEntry]
  split <;> rfl

/-- **Insertion puts the new key in front**, whatever is evicted next. -/
theorem inserted_represents {s : State} {node : PageId → Addr} {keys : List PageId}
    {page : PageId → Option Page} (h : Represents s node keys page) {key : PageId}
    (hk : key ∉ keys) {nodes : Heap ListNode} {index : HashMap Addr} (p : Page)
    (hl : IsList nodes s.cache.recency (s.nodes.bound :: keys.map node))
    (hv : ∀ a, valueOf nodes a
      = if a = s.nodes.bound then some (some s.entries.bound) else valueOf s.nodes a)
    (hw : index.WF)
    (hf : ∀ k, hashMapFind index k
      = if k = key then some s.nodes.bound else hashMapFind s.cache.index k) :
    Represents (inserted s nodes index key p) (Function.update node key s.nodes.bound)
      (key :: keys) (Function.update page key (some p)) := by
  have hne : ∀ k ∈ keys, k ≠ key := fun k hmem he => hk (he ▸ hmem)
  have hmap : keys.map (Function.update node key s.nodes.bound) = keys.map node :=
    List.map_congr_left fun k hmem => Function.update_of_ne (hne k hmem) _ _
  refine ⟨?_, fun k hmem => ?_, hw, fun k => ?_, List.nodup_cons.mpr ⟨hk, h.nodup⟩⟩
  · rw [List.map_cons, Function.update_self, hmap]
    exact hl
  · rcases List.mem_cons.mp hmem with rfl | hmem
    · refine ⟨s.entries.bound, p, ?_, ?_, Function.update_self _ _ _⟩
      · rw [Function.update_self]
        show valueOf nodes _ = _
        rw [hv, if_pos rfl]
      · rw [read_inserted, if_pos rfl]
    · obtain ⟨e, p', hv', hr', hp'⟩ := h.payload k hmem
      refine ⟨e, p', ?_, ?_, ?_⟩
      · rw [Function.update_of_ne (hne k hmem)]
        show valueOf nodes _ = _
        have hb : node k ≠ s.nodes.bound := by
          obtain ⟨x, hx, -⟩ := Option.map_eq_some_iff.mp hv'
          exact Heap.ne_bound_of_read hx
        rw [hv, if_neg hb, hv']
      · rw [read_inserted, if_neg (Heap.ne_bound_of_read hr'), hr']
      · rw [Function.update_of_ne (hne k hmem), hp']
  · show hashMapFind index k = _
    rw [hf, h.index]
    by_cases hkk : k = key
    · subst hkk
      rw [if_pos rfl, if_pos List.mem_cons_self, Function.update_self]
    · rw [if_neg hkk, Function.update_of_ne hkk]
      simp only [List.mem_cons, hkk, false_or]

/-- `insert_page` with its allocations made: the page is loaded, then a
full cache evicts. -/
theorem insertPage_eq {s : State} {key : PageId} {load : SlowGetPage} {value : Page}
    {nodes : Heap ListNode} {index : HashMap Addr}
    (hn : listPushFront true s.cache.recency (some s.entries.bound) s.nodes
      = some (some s.nodes.bound, nodes))
    (hi : hashMapInsert true s.cache.index key s.nodes.bound = (.inserted, index)) :
    insertPage ⟨true, true, true⟩ key load value s
      = (if s.cache.size = s.cache.capacity then
            evictOldest (inserted s nodes index key (load key))
          else some (inserted s nodes index key (load key))).bind fun s' =>
        (s'.entries.read s.entries.bound).bind fun e => e.value.bind fun page =>
          some (⟨.miss, some page, [key]⟩,
            { s' with cache := { s'.cache with size := s'.cache.size + 1 } }) := by
  have h₁ : ((s.entries.alloc .uninit).2.read s.entries.bound).isSome := by
    rw [Heap.read_alloc, if_pos rfl, Option.isSome_some]
  have h₂ : ((withEntry s.entries key).read s.entries.bound).isSome := by
    rw [read_withEntry, if_pos rfl, Option.isSome_some]
  simp only [insertPage, Bool.not_true, Bool.false_eq_true, if_false, Heap.alloc_fst, hn, hi,
    Heap.modify_of_isSome h₁, Option.bind_eq_bind, Option.bind_some, ne_eq, not_true]
  rw [show ((s.entries.alloc .uninit).2.mapAt s.entries.bound
    fun e => { e with key := some key }) = withEntry s.entries key from rfl]
  simp only [Heap.modify_of_isSome h₂, Option.bind_some]
  split_ifs <;> rfl

/-! ## The specification of a call

What a call does in terms of the reference cache: nothing when an argument
is `NULL`, nothing when a miss that has to store the page cannot allocate,
and otherwise one request. -/

/-- What a caller sees of a request. -/
def outcomeOf (key : PageId) (a : Answer Page) : Outcome :=
  ⟨if a.hit then .hit else .miss, a.page, if a.hit then [] else [key]⟩

/-- Every allocation of a miss succeeds. -/
def Mallocs.all (m : Mallocs) : Bool := m.entry && m.node && m.index

/-- **The specification of `lookup_update`** on a reference cache of
capacity `c`. -/
def specCall (c : ℕ) (r : Lru.State PageId Page) (call : Call) :
    Outcome × Lru.State PageId Page :=
  match call.cache, call.value, call.slowGetPage with
  | true, some value, some load =>
    if c = 0 ∨ call.key ∈ r.keys ∨ call.mallocs.all then
      let (a, r) := r.request c ⟨call.key, load⟩
      (outcomeOf call.key a, r)
    else (⟨.noMemory, some value, []⟩, r)
  | _, value, _ => (⟨.invalidArgument, value, []⟩, r)

/-- Without room nothing is stored, so the cache may stay as it is. -/
theorem Refines.zero {s : State} {r r' : Lru.State PageId Page} (h : Refines 0 s r)
    (hr : r'.keys = []) : Refines 0 s r' := by
  obtain ⟨node, hrep⟩ := h.represents
  have hk : r.keys = [] := List.eq_nil_of_length_eq_zero (Nat.le_zero.mp h.room)
  refine ⟨⟨node, ?_, fun k hmem => ?_, hrep.wf, fun k => ?_, ?_⟩, h.capacity, ?_, ?_⟩
  · have := hrep.list
    rwa [hk, ← hr] at this
  · rw [hr] at hmem
    exact absurd hmem List.not_mem_nil
  · have := hrep.index k
    rwa [hk, ← hr] at this
  · rw [hr]
    exact List.nodup_nil
  · rw [h.size, hk, hr]
  · rw [hr]
    exact Nat.zero_le 0

/-- **A hit** moves the key to the front and answers its page. -/
theorem hit_spec {c : ℕ} {s : State} {r : Lru.State PageId Page} (h : Refines c s r)
    {key : PageId} (hk : key ∈ r.keys) :
    ∃ node nodes e p, hashMapFind s.cache.index key = some node
      ∧ listMoveFront s.cache.recency node s.nodes = some nodes
      ∧ listValue node nodes = some (some e) ∧ s.entries.read e = some ⟨some key, some p⟩
      ∧ r.page key = some p
      ∧ Refines c { s with nodes := nodes } ⟨Lru.access c r.keys key, r.page⟩ := by
  obtain ⟨node, hrep⟩ := h.represents
  obtain ⟨l, l', hsplit⟩ := List.append_of_mem hk
  obtain ⟨e, p, hv, hr, hp⟩ := hrep.payload key hk
  have hl : IsList s.nodes s.cache.recency (l.map node ++ node key :: l'.map node) := by
    have := hrep.list
    rwa [hsplit, List.map_append, List.map_cons] at this
  obtain ⟨nodes, hm, hl', hv'⟩ := listMoveFront_spec hl
  have hacc : Lru.access c r.keys key = key :: (l ++ l') := by
    rw [hsplit]
    exact Lru.access_of_mem (hsplit ▸ hrep.nodup)
  have hmem : ∀ k, k ∈ Lru.access c r.keys key ↔ k ∈ r.keys := fun k => by
    rw [hacc, hsplit]
    simp only [List.mem_cons, List.mem_append]
    tauto
  refine ⟨node key, nodes, e, p, ?_, hm, ?_, hr, hp, ⟨node, ?_, fun k hkk => ?_, hrep.wf,
    fun k => ?_, Lru.nodup_access hrep.nodup key⟩, h.capacity, ?_,
    Lru.length_access_le h.room key⟩
  · rw [hrep.index, if_pos hk]
  · obtain ⟨x, hx, hxv⟩ := Option.map_eq_some_iff.mp ((hv' (node key)).trans hv)
    rw [listValue, hx]
    exact congrArg some hxv
  · show IsList nodes s.cache.recency ((Lru.access c r.keys key).map node)
    rw [hacc, List.map_cons, List.map_append]
    exact hl'
  · obtain ⟨e', p', hv₁, hr₁, hp₁⟩ := hrep.payload k ((hmem k).mp hkk)
    exact ⟨e', p', (hv' _).trans hv₁, hr₁, hp₁⟩
  · simp only [hrep.index, hmem]
  · show s.cache.size = (Lru.access c r.keys key).length
    rw [h.size, hacc, hsplit]
    simp only [List.length_append, List.length_cons]
    omega

/-- **A miss that can allocate** loads the page and stores it in front. -/
theorem miss_spec {c : ℕ} {s : State} {r : Lru.State PageId Page} (h : Refines c s r)
    (hc : c ≠ 0) {key : PageId} (hk : key ∉ r.keys) (load : SlowGetPage) (value : Page) :
    ∃ s', insertPage ⟨true, true, true⟩ key load value s
        = some (⟨.miss, some (load key), [key]⟩, s')
      ∧ Refines c s' ⟨Lru.access c r.keys key,
          Function.update r.page key (some (load key))⟩ := by
  obtain ⟨node, hrep⟩ := h.represents
  have hfind : hashMapFind s.cache.index key = none := by rw [hrep.index, if_neg hk]
  obtain ⟨nodes, hpush, hl, hv⟩ := listPushFront_spec hrep.list (some s.entries.bound)
  obtain ⟨index, hins, hw, hf⟩ := hashMapInsert_spec hrep.wf hfind s.nodes.bound
  have hrep' := inserted_represents hrep hk (load key) hl hv hw hf
  have hread := read_inserted s nodes index key (load key) s.entries.bound
  rw [if_pos rfl] at hread
  rw [insertPage_eq hpush hins, h.size, h.capacity]
  split_ifs with hfull
  · -- the list is nonempty, and the key that goes is not the new one
    obtain ⟨keys, j, hsplit⟩ : ∃ keys j, r.keys = keys ++ [j] := by
      rcases List.eq_nil_or_concat r.keys with he | ⟨keys, j, he⟩
      · rw [he] at hfull
        exact absurd hfull.symm hc
      · exact ⟨keys, j, by rw [he, List.concat_eq_append]⟩
    have hkj : key ≠ j := fun he => hk (by rw [hsplit, he]; simp)
    rw [hsplit, ← List.cons_append] at hrep'
    obtain ⟨s', hev, hrep'', hcap, hsize, hkeep⟩ := evictOldest_spec hrep'
    refine ⟨{ s' with cache := { s'.cache with size := s'.cache.size + 1 } }, ?_,
      ⟨Function.update node key s.nodes.bound, ?_⟩, ?_, ?_, ?_⟩
    · rw [hev, Option.bind_some, hkeep _ _ hread (by simpa using hkj)]
      rfl
    · rw [hsplit, Lru.access_of_full (hsplit ▸ hk) (hsplit ▸ hfull)]
      exact ⟨hrep''.list, hrep''.payload, hrep''.wf, hrep''.index, hrep''.nodup⟩
    · show s'.cache.capacity = c
      rw [hcap]
      exact h.capacity
    · show s'.cache.size + 1 = _
      rw [hsize, hsplit, Lru.access_of_full (hsplit ▸ hk) (hsplit ▸ hfull)]
      show s.cache.size - 1 + 1 = _
      rw [h.size, hsplit]
      simp
    · exact Lru.length_access_le h.room key
  · have hlt : r.keys.length < c := by
      have := h.room
      omega
    refine ⟨{ inserted s nodes index key (load key) with
      cache := { s.cache with index := index, size := s.cache.size + 1 } }, ?_,
      ⟨Function.update node key s.nodes.bound, ?_⟩, h.capacity, ?_, ?_⟩
    · rw [Option.bind_some, hread]
      rfl
    · rw [Lru.access_of_lt hk hlt]
      exact ⟨hrep'.list, hrep'.payload, hrep'.wf, hrep'.index, hrep'.nodup⟩
    · show s.cache.size + 1 = _
      rw [h.size, Lru.access_of_lt hk hlt, List.length_cons]
    · exact Lru.length_access_le h.room key

/-- **A miss that cannot allocate** undoes what it did: the blocks, the
index and the size are as before. -/
theorem noMemory_spec {c : ℕ} {s : State} {r : Lru.State PageId Page} (h : Refines c s r)
    {key : PageId} (hk : key ∉ r.keys) (load : SlowGetPage) (value : Page)
    {mallocs : Mallocs} (hm : mallocs.all = false) :
    ∃ s', insertPage mallocs key load value s = some (⟨.noMemory, some value, []⟩, s')
      ∧ SameContents s s' := by
  obtain ⟨node, hrep⟩ := h.represents
  have hfind : hashMapFind s.cache.index key = none := by rw [hrep.index, if_neg hk]
  obtain ⟨entry, nodeOk, indexOk⟩ := mallocs
  have h₁ : ((s.entries.alloc .uninit).2.read s.entries.bound).isSome := by
    rw [Heap.read_alloc, if_pos rfl, Option.isSome_some]
  have h₂ : ((withEntry s.entries key).read s.entries.bound).isSome := by
    rw [read_withEntry, if_pos rfl, Option.isSome_some]
  have hfree : ((withEntry s.entries key).erase s.entries.bound).cells = s.entries.cells := by
    funext a
    show ((withEntry s.entries key).erase s.entries.bound).read a = s.entries.read a
    rw [Heap.read_erase, read_withEntry]
    by_cases ha : a = s.entries.bound
    · rw [if_pos ha, ha, Heap.read_bound]
    · rw [if_neg ha, if_neg ha]
  -- each failure frees what the allocations before it got
  cases entry with
  | false => exact ⟨s, rfl, .refl s⟩
  | true =>
  cases nodeOk with
  | false =>
    refine ⟨⟨s.nodes, (withEntry s.entries key).erase s.entries.bound, s.cache⟩, ?_,
      rfl, hfree, rfl⟩
    simp only [insertPage, Bool.not_true, Bool.false_eq_true, if_false, Heap.alloc_fst,
      listPushFront_fail, Heap.modify_of_isSome h₁, Option.bind_eq_bind, Option.bind_some]
    rw [show ((s.entries.alloc .uninit).2.mapAt s.entries.bound
      fun e => { e with key := some key }) = withEntry s.entries key from rfl,
      Heap.free_of_isSome h₂]
    rfl
  | true =>
  cases indexOk with
  | true => exact absurd hm (by simp [Mallocs.all])
  | false =>
    obtain ⟨nodes, hpush, -, -⟩ := listPushFront_spec hrep.list (some s.entries.bound)
    obtain ⟨nodes', hrem, hcells⟩ := listRemove_listPushFront hrep.list hpush
    refine ⟨⟨nodes', (withEntry s.entries key).erase s.entries.bound, s.cache⟩, ?_,
      hcells, hfree, rfl⟩
    simp only [insertPage, Bool.not_true, Bool.false_eq_true, if_false, Heap.alloc_fst, hpush,
      hashMapInsert_fail hfind, Heap.modify_of_isSome h₁, Option.bind_eq_bind,
      Option.bind_some, hrem]
    rw [show ((s.entries.alloc .uninit).2.mapAt s.entries.bound
      fun e => { e with key := some key }) = withEntry s.entries key from rfl,
      Heap.free_of_isSome h₂]
    rfl

/-- **Every call does what its specification says**, and a call that fails
leaves the contents of the cache as they were. -/
theorem lookupUpdate_spec {c : ℕ} {s : State} {r : Lru.State PageId Page}
    (h : Refines c s r) (call : Call) :
    ∃ s', lookupUpdate call s = some ((specCall c r call).1, s')
      ∧ Refines c s' (specCall c r call).2
      ∧ ((specCall c r call).1.result ≠ .hit → (specCall c r call).1.result ≠ .miss →
          SameContents s s') := by
  obtain ⟨cache, key, load, value, mallocs⟩ := call
  cases cache with
  | false => exact ⟨s, rfl, h, fun _ _ => .refl s⟩
  | true =>
  cases value with
  | none => exact ⟨s, rfl, h, fun _ _ => .refl s⟩
  | some value =>
  cases load with
  | none => exact ⟨s, rfl, h, fun _ _ => .refl s⟩
  | some load =>
  -- a cache of capacity zero stores nothing
  by_cases hc : c = 0
  · subst hc
    have hkeys : r.keys = [] := List.eq_nil_of_length_eq_zero (Nat.le_zero.mp h.room)
    refine ⟨s, ?_, h.zero ?_, fun _ hm => absurd ?_ hm⟩ <;>
    simp [lookupUpdate, specCall, h.capacity, hkeys, Lru.State.request, Lru.access_zero,
      Lru.State.pageAfter, outcomeOf]
  by_cases hk : key ∈ r.keys
  · obtain ⟨node, nodes, e, p, hfind, hmove, hval, hread, hp, href⟩ := hit_spec h hk
    refine ⟨{ s with nodes := nodes }, ?_, ?_, fun hh _ => absurd ?_ hh⟩ <;>
    simp only [lookupUpdate, specCall, h.capacity, hc, hk, hfind, hmove, hval, hread, if_false,
      Option.bind_eq_bind, Option.bind_some, false_or, true_or, if_true, Lru.State.request,
      Lru.State.pageAfter, outcomeOf, decide_true, hp]
    · rfl
    · exact href
  have hfind : hashMapFind s.cache.index key = none := by
    obtain ⟨node, hrep⟩ := h.represents
    rw [hrep.index, if_neg hk]
  cases hm : mallocs.all with
  | true =>
    obtain ⟨entry, nodeOk, indexOk⟩ := mallocs
    simp only [Mallocs.all, Bool.and_eq_true] at hm
    obtain ⟨⟨rfl, rfl⟩, rfl⟩ := hm
    obtain ⟨s', hins, href⟩ := miss_spec h hc hk load value
    refine ⟨s', ?_, ?_, fun _ hh => absurd ?_ hh⟩ <;>
    simp only [lookupUpdate, specCall, h.capacity, hc, hk, hfind, if_false, false_or,
      Mallocs.all, Bool.and_self, if_true, Lru.State.request, Lru.State.pageAfter, outcomeOf,
      decide_false, Function.update_self, Bool.false_eq_true]
    · exact hins
    · exact href
  | false =>
    obtain ⟨s', hins, hsame⟩ := noMemory_spec h hk load value hm
    refine ⟨s', ?_, ?_, fun _ _ => hsame⟩ <;>
    simp only [lookupUpdate, specCall, h.capacity, hc, hk, hfind, hm, if_false, false_or,
      Bool.false_eq_true]
    · exact hins
    · obtain ⟨node, hrep⟩ := h.represents
      exact ⟨⟨node, hrep.congr hsame⟩, by rw [hsame.cache, h.capacity],
        by rw [hsame.cache, h.size], h.room⟩

end LruInC
