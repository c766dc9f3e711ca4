import CppGraduate.LruDatastructs.Lru
import Mathlib.Data.Option.Basic

/-!
# lru-in-c-datastructs is the textbook list

The cache is a list of slots of its pool, most recent first: the ring
through the sentinel visits them in this order, the table has exactly these
entries, and the keys written in them are those of the reference. The slots
never used come after them in the pool, and no cell points at those.

A recycled slot leaves the list and the table before its key is
overwritten, and comes back to the front with the new one.
-/

namespace LruDatastructs

open LruCache

/-- The set of the entries in a list of slots. -/
abbrev slotSet (slots : List ℕ) : Set ℕ := {i | i ∈ slots}

/-- **The cache has `keys`, most recent first, in `slots`.** -/
structure Represents (s : LruCache) (slots : List ℕ) (keys : List Int64) : Prop where
  /-- The recency list, read from the head. -/
  list : IsList s (slots.map .entry)
  /-- The table has the entries of the list. A cache without capacity has
  no table. -/
  index : 0 < s.capacity → ∃ chain, IsIndex s (slotSet slots) chain
  /-- The keys are written in the entries. -/
  written : slots.map (keyOf s) = keys
  /-- An entry of the list leads to itself. -/
  value : ∀ i ∈ slots, valueOf s i = some i
  /-- No key is there twice. -/
  nodup : keys.Nodup

/-- **The cache refines a reference list** of capacity `c`: what is in it
is in the slots used so far, and no cell points at the others. -/
structure Refines (c : ℕ) (s : LruCache) (keys : List Int64) : Prop where
  slots : ∃ slots, Represents s slots keys ∧ slots.length = s.used ∧ ∀ i ∈ slots, i < s.used
  unused : ∀ i, s.used ≤ i → backOf s i = none
  used : s.used ≤ c
  sizes : s.entries.size = c ∧ s.index.bucketCount = c ∧ s.capacity = c

/-! ## What one half of an operation does to the other -/

section Frames

variable {s s' : LruCache}

/-- The table does not depend on the links. -/
theorem IsIndex.sameIndex {slots : Set ℕ} {chain : ℕ → List ℕ} (h : IsIndex s slots chain)
    (hs : SameIndex s s') : IsIndex s' slots chain := by
  have hcount := (sizes_eq hs.sizes).2.2.1
  have hkey : keyOf s' = keyOf s := funext fun i => by rw [keyOf, hs.mapping, keyOf]
  have hback : backOf s' = backOf s := funext fun i => by rw [backOf, hs.mapping, backOf]
  refine ⟨by rw [hcount]; exact h.pos, ?_, ?_, by rw [hcount, hback]; exact h.backed⟩
  · rw [hcount, ← h.size]
    exact (sizes_eq hs.sizes).2.1
  · rw [hcount]
    exact h.table.congr (funext hs.cell) fun i _ => by rw [bucketFor, bucketFor, hcount, hkey]

/-- The list does not depend on the table. -/
theorem IsList.sameLists {links : List LinkPtr} (h : IsList s links) (hs : SameLists s s') :
    IsList s' links := by
  have hnext : nextOf s' = nextOf s := funext fun a => by rw [nextOf, hs.link, nextOf]
  have hprev : prevOf s' = prevOf s := funext fun a => by rw [prevOf, hs.link, prevOf]
  rw [IsList, hnext, hprev]
  exact h

/-- An entry that is in no chain may be given a key. -/
theorem IsIndex.setKey {slots : Set ℕ} {chain : ℕ → List ℕ} (h : IsIndex s slots chain) {i : ℕ}
    (hi : i ∉ slots) (key : Int64) (value : Option ℕ) :
    IsIndex (s.mapMapping (fun x => { x with key := key, value := value }) i) slots chain := by
  refine ⟨h.pos, h.size, ?_, ?_⟩
  · refine h.table.congr (funext fun c => cell_mapMapping _ _ _ _ fun _ => rfl) fun j hj => ?_
    have hji : j ≠ i := fun he => hi (he ▸ hj)
    rw [keyOf, mapping_mapMapping, if_neg hji, ← keyOf]
    rfl
  · intro b hb
    refine (h.backed b hb).congr fun j hj => ?_
    have hji : j ≠ i := fun he => hi (he ▸ ((h.table.mem_iff b hb j).mp hj).1)
    exact backOf_mapMapping_of_ne _ hji

end Frames

/-! ## A hit -/

section Access

variable {s : LruCache} {slots : List ℕ} {keys : List Int64}

/-- The slots are all different. -/
theorem Represents.nodup_slots (h : Represents s slots keys) : slots.Nodup :=
  .of_map _ (List.nodup_cons.mp h.list.nodup).2

/-- No two slots have the same key. -/
theorem Represents.injOn (h : Represents s slots keys) : Set.InjOn (keyOf s) (slotSet slots) :=
  fun _ hi _ hj he => List.inj_on_of_nodup_map (h.written ▸ h.nodup) hi hj he

/-- A link is there where its map entry is. -/
theorem isSome_link_entry (s : LruCache) (i : ℕ) :
    (s.link (.entry i)).isSome = (s.mapping i).isSome := by
  rw [link, mapping, Option.isSome_map, Option.isSome_map]

/-- A slot is in the pool. -/
theorem Represents.isSome_mapping (h : Represents s slots keys) {i : ℕ} (hi : i ∈ slots) :
    (s.mapping i).isSome := by
  rw [← isSome_link_entry]
  exact h.list.isSome_link (List.mem_cons_of_mem _ (List.mem_map_of_mem hi))

/-- **What `int_map_find` finds**: the slot of the key. -/
theorem Represents.find (h : Represents s slots keys) (hc : 0 < s.capacity) (key : Int64) :
    (∃ i ∈ slots, keyOf s i = key ∧ key ∈ keys ∧ intMapFind s key = some (some i))
      ∨ key ∉ keys ∧ intMapFind s key = some none := by
  obtain ⟨chain, hindex⟩ := h.index hc
  by_cases hk : key ∈ keys
  · left
    obtain ⟨i, hi, rfl⟩ := List.mem_map.mp (h.written ▸ hk)
    exact ⟨i, hi, rfl, hk, intMapFind_of_mem hindex h.injOn hi⟩
  · right
    refine ⟨hk, intMapFind_of_not_mem hindex fun i hi he => hk ?_⟩
    rw [← h.written, ← he]
    exact List.mem_map_of_mem hi

/-- **A hit**: the slot leaves the list and comes back in front. -/
theorem Represents.hit (h : Represents s slots keys) {c i : ℕ} (hi : i ∈ slots) :
    ∃ s₁ s₂, detachFound i s = some (i, s₁) ∧ listPushFront .sentinel (.entry i) s₁ = some s₂
      ∧ SameIndex s s₂
      ∧ ∃ slots', slots'.Perm slots ∧ Represents s₂ slots' (Lru.access c keys (keyOf s i)) := by
  obtain ⟨l, r, rfl⟩ := List.append_of_mem hi
  have hlist := h.list
  rw [List.map_append, List.map_cons] at hlist
  obtain ⟨s₁, hremove, hl₁, hs₁⟩ := listRemove_spec hlist
  rw [← List.map_append] at hl₁
  have hperm : (i :: (l ++ r)).Perm (l ++ i :: r) := List.perm_middle.symm
  have hnot : LinkPtr.entry i ∉ LinkPtr.sentinel :: (l ++ r).map .entry := by
    have hnd := (List.nodup_cons.mp (hperm.nodup_iff.mpr h.nodup_slots)).1
    simpa using hnd
  have hlink : (s₁.link (.entry i)).isSome := by
    rw [isSome_link_entry, hs₁.mapping]
    exact h.isSome_mapping hi
  obtain ⟨s₂, hpush, hl₂, hs₂⟩ := listPushFront_spec hl₁ hnot hlink
  have hs := hs₁.trans hs₂
  have hkey : keyOf s₂ = keyOf s := funext fun j => by rw [keyOf, hs.mapping, keyOf]
  refine ⟨s₁, s₂, ?_, hpush, hs, i :: (l ++ r), hperm, hl₂, fun hc => ?_, ?_, fun j hj => ?_,
    Lru.nodup_access h.nodup _⟩
  · obtain ⟨x, hx⟩ := Option.isSome_iff_exists.mp (h.isSome_mapping hi)
    have hv := h.value i hi
    rw [valueOf, hx, Option.bind_some] at hv
    simp only [detachFound, hx, hv, hremove, Option.bind_eq_bind, Option.bind_some]
    rfl
  · rw [(sizes_eq hs.sizes).2.2.2.1] at hc
    obtain ⟨chain, hindex⟩ := h.index hc
    have hset : slotSet (i :: (l ++ r)) = slotSet (l ++ i :: r) := Set.ext fun j => hperm.mem_iff
    exact ⟨chain, hset ▸ hindex.sameIndex hs⟩
  · have hn := h.nodup
    rw [← h.written] at hn
    rw [hkey, ← h.written, Lru.access_map_of_mem hn]
  · rw [valueOf, hs.mapping, ← valueOf]
    exact h.value j (hperm.mem_iff.mp hj)

/-! ## A miss -/

/-- Giving a key to an entry that is in no chain changes nothing else. -/
theorem Represents.setKey (h : Represents s slots keys) {i : ℕ} (hi : i ∉ slots) (key : Int64)
    (value : Option ℕ) :
    Represents (s.mapMapping (fun x => { x with key := key, value := value }) i) slots keys := by
  have hne : ∀ j ∈ slots, j ≠ i := fun j hj he => hi (he ▸ hj)
  refine ⟨?_, fun hc => ?_, ?_, fun j hj => ?_, h.nodup⟩
  · have hnext : nextOf (s.mapMapping (fun x => { x with key := key, value := value }) i)
        = nextOf s := funext fun a => by rw [nextOf, link_mapMapping, nextOf]
    have hprev : prevOf (s.mapMapping (fun x => { x with key := key, value := value }) i)
        = prevOf s := funext fun a => by rw [prevOf, link_mapMapping, prevOf]
    rw [IsList, hnext, hprev]
    exact h.list
  · obtain ⟨chain, hindex⟩ := h.index hc
    exact ⟨chain, hindex.setKey hi key value⟩
  · rw [← h.written]
    refine List.map_congr_left fun j hj => ?_
    rw [keyOf, mapping_mapMapping, if_neg (hne j hj), keyOf]
  · rw [valueOf, mapping_mapMapping, if_neg (hne j hj), ← valueOf]
    exact h.value j hj

/-- **A free entry takes the new key** into the table and to the front of the
list, and the assertion holds. -/
theorem Represents.insertKey {s₀ : LruCache} {i : ℕ} (hfree : freeEntry s₀ = some (i, s))
    (h : Represents s slots keys) (hc : 0 < s.capacity) (hi : i ∉ slots)
    (hsome : (s.mapping i).isSome) (hback : backOf s i = none) {key : Int64} (hk : key ∉ keys) :
    ∃ s₂ s₃, LruDatastructs.insertKey key s₀ = some (i, s₂)
      ∧ listPushFront .sentinel (.entry i) s₂ = some s₃
      ∧ Represents s₃ (i :: slots) (key :: keys) ∧ s₃.sizes = s.sizes
      ∧ ∀ j, j ∉ i :: slots → backOf s₃ j = backOf s j := by
  set s₁ := s.mapMapping (fun x => { x with key := key, value := some i }) i with hs₁
  have h₁ : Represents s₁ slots keys := h.setKey hi key (some i)
  obtain ⟨x, hx⟩ := Option.isSome_iff_exists.mp hsome
  have hkey₁ : keyOf s₁ i = key := by
    rw [hs₁, keyOf, mapping_mapMapping, if_pos rfl, hx]
    rfl
  have hvalue₁ : valueOf s₁ i = some i := by
    rw [hs₁, valueOf, mapping_mapMapping, if_pos rfl, hx]
    rfl
  have hback₁ : ∀ j, backOf s₁ j = backOf s j := fun j => by
    rw [hs₁, backOf, mapping_mapMapping, backOf]
    split_ifs
    · cases s.mapping j <;> rfl
    · rfl
  obtain ⟨chain, hindex⟩ := h₁.index (by exact hc)
  -- a new key is the key of no entry in the table
  have hnew : ∀ j ∈ slotSet slots, keyOf s₁ j ≠ keyOf s₁ i := by
    intro j hj he
    refine hk ?_
    rw [← h₁.written, ← hkey₁, ← he]
    exact List.mem_map_of_mem hj
  obtain ⟨s₂, hinsert, ⟨chain', hindex'⟩, hs₂, hback₂⟩ :=
    intMapInsert_spec hindex hi (by rw [hs₁, isSome_mapping_mapMapping]; exact hsome)
      (by rw [hback₁, hback]) hnew
  have hlink : (s₂.link (.entry i)).isSome := by
    rw [hs₂.link, hs₁, link_mapMapping, isSome_link_entry]
    exact hsome
  have hnot : LinkPtr.entry i ∉ LinkPtr.sentinel :: slots.map .entry := by simpa using hi
  -- the list does not look at what the table changed
  obtain ⟨s₃, hpush, hl₃, hs₃⟩ := listPushFront_spec (h₁.list.sameLists hs₂) hnot hlink
  have hkey₃ : ∀ j, keyOf s₃ j = keyOf s₁ j := fun j => by
    rw [keyOf, hs₃.mapping, ← keyOf, hs₂.key]
  have hvalue₃ : ∀ j, valueOf s₃ j = valueOf s₁ j := fun j => by
    rw [valueOf, hs₃.mapping, ← valueOf, hs₂.value]
  refine ⟨s₂, s₃, ?_, hpush, ⟨hl₃, fun _ => ⟨chain', ?_⟩, ?_, fun j hj => ?_,
    List.nodup_cons.mpr ⟨hk, h.nodup⟩⟩, ?_, fun j hj => ?_⟩
  · simp only [LruDatastructs.insertKey, hfree, modifyMapping_of_isSome hsome, ← hs₁, hinsert,
      Option.bind_eq_bind, Option.bind_some]
    rfl
  · have hset : slotSet (i :: slots) = Insert.insert i (slotSet slots) :=
      Set.ext fun j => List.mem_cons
    rw [hset]
    exact hindex'.sameIndex hs₃
  · rw [List.map_cons, hkey₃, hkey₁, ← h₁.written]
    exact congrArg _ (List.map_congr_left fun j _ => hkey₃ j)
  · rw [hvalue₃]
    rcases List.mem_cons.mp hj with rfl | hj
    · exact hvalue₁
    · exact h₁.value j hj
  · rw [hs₃.sizes, hs₂.sizes, hs₁, sizes_mapMapping]
  · rw [backOf, hs₃.mapping, ← backOf, hback₂ j (by simpa using hj), hback₁]

/-- **The next unused entry** is in no list and in no chain. -/
theorem freeEntry_of_lt (h : Represents s slots keys) (hslots : ∀ i ∈ slots, i < s.used)
    (hlt : s.used < s.capacity) (hsize : s.entries.size = s.capacity) :
    ∃ s', freeEntry s = some (s.used, s') ∧ Represents s' slots keys
      ∧ SameIndex { s with used := s.used + 1 } s' := by
  have hnot : LinkPtr.entry s.used ∉ LinkPtr.sentinel :: slots.map .entry := by
    simp only [List.mem_cons, reduceCtorEq, false_or, List.mem_map, LinkPtr.entry.injEq,
      exists_eq_right]
    exact fun hmem => Nat.lt_irrefl _ (hslots _ hmem)
  have hlink : (s.link (.entry s.used)).isSome := by
    rw [link, Option.isSome_map, Array.getElem?_eq_getElem (by rw [hsize]; exact hlt)]
    rfl
  have hlist : IsList { s with used := s.used + 1 } (slots.map .entry) := h.list
  obtain ⟨s', hinit, hl, hs⟩ := listInit_spec hlist hnot hlink
  have hkey : keyOf s' = keyOf s := funext fun i => by
    rw [keyOf, hs.mapping]
    rfl
  refine ⟨s', ?_, ⟨hl, fun hc => ?_, by rw [hkey]; exact h.written, fun i hi => ?_, h.nodup⟩, hs⟩
  · rw [freeEntry, if_pos hlt]
    simp only [hinit, Option.bind_eq_bind, Option.bind_some]
    rfl
  · rw [(sizes_eq hs.sizes).2.2.2.1] at hc
    obtain ⟨chain, hindex⟩ := h.index hc
    have hindex' : IsIndex { s with used := s.used + 1 } (slotSet slots) chain :=
      ⟨hindex.pos, hindex.size, hindex.table, hindex.backed⟩
    exact ⟨chain, hindex'.sameIndex hs⟩
  · rw [valueOf, hs.mapping]
    exact h.value i hi

/-- **The last entry of a full cache** leaves the list and the table. -/
theorem freeEntry_of_full {j : ℕ} (h : Represents s (slots ++ [j]) keys)
    (hfull : ¬ s.used < s.capacity) (hc : 0 < s.capacity) :
    ∃ s', freeEntry s = some (j, s') ∧ Represents s' slots (slots.map (keyOf s))
      ∧ s'.sizes = s.sizes ∧ backOf s' j = none
      ∧ ∀ i, i ∉ slots ++ [j] → backOf s' i = backOf s i := by
  have hlist := h.list
  rw [List.map_append, List.map_cons, List.map_nil] at hlist
  have hprev : s.recency.prev = some (.entry j) := by
    have hp := hlist.prev_head
    rw [List.getLastD_concat] at hp
    exact hp
  obtain ⟨s₁, hremove, hl₁, hs₁⟩ := listRemove_spec hlist
  obtain ⟨chain, hindex⟩ := h.index hc
  obtain ⟨s₂, hunlink, ⟨chain', hindex'⟩, hs₂, hj, hback⟩ :=
    intMapRemove_spec (hindex.sameIndex hs₁) (show j ∈ slotSet (slots ++ [j]) by simp)
  have hjn : j ∉ slots := fun hmem =>
    (List.disjoint_of_nodup_append h.nodup_slots) hmem List.mem_cons_self
  have hkey : keyOf s₂ = keyOf s := funext fun i => by
    rw [hs₂.key, keyOf, hs₁.mapping, keyOf]
  have hset : slotSet slots = slotSet (slots ++ [j]) \ {j} := by
    ext i
    simp only [Set.mem_ofPred_eq, Set.mem_sdiff, List.mem_append, List.mem_singleton,
      Set.mem_singleton_iff]
    constructor
    · exact fun hi => ⟨Or.inl hi, fun he => hjn (he ▸ hi)⟩
    · exact fun hi => hi.1.resolve_right hi.2
  rw [List.append_nil] at hl₁
  refine ⟨s₂, ?_, ⟨hl₁.sameLists hs₂, fun _ => ⟨chain', hset ▸ hindex'⟩, by rw [hkey],
    fun i hi => ?_, ?_⟩, hs₂.sizes.trans hs₁.sizes, hj, fun i hi => ?_⟩
  · simp only [freeEntry, if_neg hfull, hprev, hremove, hunlink, Option.bind_eq_bind,
      Option.bind_some]
    rfl
  · rw [hs₂.value, valueOf, hs₁.mapping, ← valueOf]
    exact h.value i (List.mem_append_left _ hi)
  · have hnd := h.nodup
    rw [← h.written, List.map_append] at hnd
    exact (List.nodup_append.mp hnd).1
  · rw [hback i hi, backOf, hs₁.mapping, backOf]

end Access

/-! ## Accesses -/

/-- A new cache refines the empty list. -/
theorem lruCreate_spec {callocs : Callocs} {c : ℕ} {s : LruCache}
    (h : lruCreate callocs c = some s) : Refines c s [] := by
  obtain ⟨-, -, h⟩ := Option.bind_eq_some_iff.mp h
  obtain ⟨-, -, h⟩ := Option.bind_eq_some_iff.mp h
  have hinit : listInit .sentinel .zero
      = some { LruCache.zero with recency := ⟨some .sentinel, some .sentinel⟩ } := rfl
  rw [hinit, Option.bind_eq_bind, Option.bind_some] at h
  have hring : ∀ s : LruCache, s.recency = ⟨some .sentinel, some .sentinel⟩ → IsList s [] :=
    fun s hs => ⟨by simp, .cons_cons ⟨by rw [nextOf, link, hs]; rfl, by rw [prevOf, link, hs]; rfl⟩
      (.singleton _)⟩
  split_ifs at h with hc
  · obtain rfl := Option.some.inj h
    refine ⟨⟨[], ⟨hring _ rfl, fun hpos => absurd hpos (Nat.lt_irrefl 0), rfl, List.forall_mem_nil _,
      List.nodup_nil⟩, rfl, List.forall_mem_nil _⟩, fun i _ => rfl, Nat.zero_le c, hc.symm, hc.symm,
      hc.symm⟩
  · obtain ⟨-, -, h⟩ := Option.bind_eq_some_iff.mp h
    obtain ⟨index, hindex, h⟩ := Option.bind_eq_some_iff.mp h
    obtain rfl := Option.some.inj h
    rw [intMapInit] at hindex
    split_ifs at hindex with hcount hbuckets
    obtain rfl := Option.some.inj hindex
    have hzero : ∀ i x, (Array.replicate c CacheEntry.zero)[i]? = some x →
        x = CacheEntry.zero :=
      fun i x hx => by
        rw [Array.getElem?_replicate] at hx
        split_ifs at hx
        exact (Option.some.inj hx).symm
    refine ⟨⟨[], ⟨hring _ rfl, fun _ => ⟨fun _ => [], Nat.pos_of_ne_zero hc, Array.size_replicate,
      ?_, fun _ _ => trivial⟩, rfl, List.forall_mem_nil _, List.nodup_nil⟩, rfl,
      List.forall_mem_nil _⟩, fun i _ => ?_, Nat.zero_le c, Array.size_replicate, rfl, rfl⟩
    · have hset : slotSet [] = ∅ := Set.ext fun i => by simp
      rw [hset]
      refine Chains.Table.empty (fun b hb => ?_) _
      show (Array.replicate c (none : Option ℕ))[b]? = some none
      rw [Array.getElem?_replicate, if_pos hb]
    · show ((Array.replicate c CacheEntry.zero)[i]?.map CacheEntry.mapping).bind
        IntMapEntry.prevNext = none
      cases hx : (Array.replicate c CacheEntry.zero)[i]? with
      | none => rfl
      | some x =>
        rw [hzero i x hx]
        rfl

section Access

variable {c : ℕ} {s : LruCache} {keys : List Int64} {key : Int64}

/-- There are as many keys as slots in use. -/
theorem Refines.length_keys (h : Refines c s keys) : keys.length = s.used := by
  obtain ⟨slots, hrep, hlen, -⟩ := h.slots
  rw [← hrep.written, List.length_map, hlen]

/-- What an access needs to leave behind, where it changes no size. -/
theorem Refines.of_sizes (h : Refines c s keys) {s' : LruCache} {keys' : List Int64}
    {slots slots' : List ℕ} (hlen : slots.length = s.used) (hlt : ∀ i ∈ slots, i < s.used)
    (hperm : slots'.Perm slots) (hrep : Represents s' slots' keys') (hsizes : s'.sizes = s.sizes)
    (hback : ∀ i, i ∉ slots → backOf s' i = backOf s i) : Refines c s' keys' := by
  obtain ⟨hsize, -, hcount, hcap, hused⟩ := sizes_eq hsizes
  refine ⟨⟨slots', hrep, ?_, fun i hi => ?_⟩, fun i hi => ?_, by rw [hused]; exact h.used, ?_⟩
  · rw [hperm.length_eq, hlen, hused]
  · rw [hused]
    exact hlt i (hperm.mem_iff.mp hi)
  · rw [hused] at hi
    rw [hback i fun hmem => Nat.not_lt.mpr hi (hlt i hmem)]
    exact h.unused i hi
  · rw [hsize, hcount, hcap]
    exact h.sizes

/-- **A hit** is a request for a key of the list. -/
theorem Refines.hit (h : Refines c s keys) (hc : 0 < c) (hk : key ∈ keys) :
    ∃ i s₁ s₂, intMapFind s key = some (some i) ∧ detachFound i s = some (i, s₁)
      ∧ listPushFront .sentinel (.entry i) s₁ = some s₂
      ∧ Refines c s₂ (Lru.access c keys key) := by
  obtain ⟨slots, hrep, hlen, hlt⟩ := h.slots
  rcases hrep.find (by rw [h.sizes.2.2]; exact hc) key with ⟨i, hi, rfl, -, hfind⟩ | ⟨hn, -⟩
  · obtain ⟨s₁, s₂, hdetach, hpush, hs, slots', hperm, hrep'⟩ := hrep.hit (c := c) hi
    refine ⟨i, s₁, s₂, hfind, hdetach, hpush, h.of_sizes hlen hlt hperm hrep' hs.sizes fun j _ => ?_⟩
    rw [backOf, hs.mapping, backOf]
  · exact absurd hk hn

/-- **A miss with room left** takes the next unused entry. -/
theorem Refines.insertKey_of_lt (h : Refines c s keys) (hk : key ∉ keys) (hroom : s.used < c) :
    ∃ i s₁ s₂, insertKey key s = some (i, s₁) ∧ listPushFront .sentinel (.entry i) s₁ = some s₂
      ∧ Refines c s₂ (Lru.access c keys key) := by
  obtain ⟨slots, hrep, hlen, hlt⟩ := h.slots
  obtain ⟨hsize, hcount, hcap⟩ := h.sizes
  have hnot : s.used ∉ slots := fun hmem => Nat.lt_irrefl _ (hlt _ hmem)
  obtain ⟨s₁, hfree, hrep₁, hs₁⟩ := freeEntry_of_lt hrep hlt (by rwa [hcap]) (hsize.trans hcap.symm)
  have hback₁ : ∀ i, backOf s₁ i = backOf s i := fun i => by
    rw [backOf, hs₁.mapping]
    rfl
  have hsome : (s₁.mapping s.used).isSome := by
    rw [hs₁.mapping]
    show (s.entries[s.used]?.map CacheEntry.mapping).isSome
    rw [Option.isSome_map, Array.getElem?_eq_getElem (by omega)]
    rfl
  obtain ⟨s₂, s₃, hinsert, hpush, hrep₃, hsizes, hback₃⟩ := hrep₁.insertKey hfree
    (by rw [(sizes_eq hs₁.sizes).2.2.2.1]; show 0 < s.capacity; omega) hnot hsome
    (by rw [hback₁]; exact h.unused _ (Nat.le_refl _)) hk
  obtain ⟨hsize', -, hcount', hcap', hused'⟩ := sizes_eq (hsizes.trans hs₁.sizes)
  rw [Lru.access_of_lt hk (by rw [h.length_keys]; exact hroom)]
  refine ⟨s.used, s₂, s₃, hinsert, hpush, ⟨s.used :: slots, hrep₃, ?_, fun j hj => ?_⟩,
    fun j hj => ?_, ?_, ?_, ?_, ?_⟩
  · rw [List.length_cons, hlen, hused']
  · rw [hused']
    rcases List.mem_cons.mp hj with rfl | hj
    · exact Nat.lt_succ_self _
    · exact Nat.lt_succ_of_lt (hlt j hj)
  · rw [hused'] at hj
    have hlt' : s.used < j := hj
    have hj' : j ∉ s.used :: slots := by
      rw [List.mem_cons, not_or]
      exact ⟨Nat.ne_of_gt hlt', fun hmem => Nat.lt_asymm hlt' (hlt j hmem)⟩
    rw [hback₃ j hj', hback₁]
    exact h.unused j (Nat.le_of_lt hlt')
  · rw [hused']
    exact hroom
  · exact hsize'.trans hsize
  · exact hcount'.trans hcount
  · exact hcap'.trans hcap

/-- **A miss in a full cache** recycles the last entry. -/
theorem Refines.insertKey_of_full (h : Refines c s keys) (hk : key ∉ keys) (hc : 0 < c)
    (hfull : ¬ s.used < c) :
    ∃ i s₁ s₂, insertKey key s = some (i, s₁) ∧ listPushFront .sentinel (.entry i) s₁ = some s₂
      ∧ Refines c s₂ (Lru.access c keys key) := by
  obtain ⟨slots, hrep, hlen, hlt⟩ := h.slots
  obtain ⟨hsize, -, hcap⟩ := h.sizes
  have hpos : 0 < s.capacity := hcap ▸ hc
  obtain ⟨l, j, rfl⟩ : ∃ l j, slots = l ++ [j] := by
    rcases List.eq_nil_or_concat slots with rfl | ⟨l, j, rfl⟩
    · rw [List.length_nil] at hlen
      omega
    · exact ⟨l, j, List.concat_eq_append⟩
  obtain ⟨s₁, hfree, hrep₁, hsizes₁, hj, hback₁⟩ :=
    freeEntry_of_full hrep (by rwa [hcap]) hpos
  have hwritten : keys = l.map (keyOf s) ++ [keyOf s j] := by
    rw [← hrep.written, List.map_append]
    rfl
  have hnot : j ∉ l := fun hmem =>
    (List.disjoint_of_nodup_append hrep.nodup_slots) hmem List.mem_cons_self
  have hsome : (s₁.mapping j).isSome := by
    have hjlt := hlt j (by simp)
    have hused := h.used
    rw [mapping, Option.isSome_map, Array.getElem?_eq_getElem (by
      rw [(sizes_eq hsizes₁).1, hsize]
      omega)]
    rfl
  obtain ⟨s₂, s₃, hinsert, hpush, hrep₃, hsizes, hback₃⟩ := hrep₁.insertKey hfree
    (by rw [(sizes_eq hsizes₁).2.2.2.1]; exact hpos) hnot hsome hj (show key ∉ _ from fun hmem => hk (by
      rw [hwritten]
      exact List.mem_append_left _ hmem))
  have hperm : (j :: l).Perm (l ++ [j]) := (List.perm_append_singleton j l).symm
  have haccess : Lru.access c keys key = key :: l.map (keyOf s) := by
    have hlength := h.length_keys
    have hused := h.used
    rw [hwritten] at hk hlength ⊢
    exact Lru.access_of_full hk (by omega)
  rw [haccess]
  refine ⟨j, s₂, s₃, hinsert, hpush, h.of_sizes hlen hlt hperm hrep₃ (hsizes.trans hsizes₁)
    fun i hi => ?_⟩
  rw [hback₃ i fun hmem => hi (hperm.mem_iff.mp hmem), hback₁ i hi]

/-- **Every access does what the reference does.** -/
theorem lruAccess_spec (h : Refines c s keys) (key : Int64) :
    ∃ s', lruAccess key s = some (decide (key ∈ keys), s')
      ∧ Refines c s' (Lru.access c keys key) := by
  have hcap := h.sizes.2.2
  by_cases hc : c = 0
  · subst hc
    obtain rfl : keys = [] :=
      List.eq_nil_of_length_eq_zero (h.length_keys.trans (Nat.le_zero.mp h.used))
    refine ⟨s, ?_, h⟩
    rw [lruAccess, if_pos hcap]
    rfl
  have hpos := Nat.pos_of_ne_zero hc
  rw [lruAccess, if_neg (by rwa [hcap])]
  by_cases hk : key ∈ keys
  · obtain ⟨i, s₁, s₂, hfind, hdetach, hpush, hrefines⟩ := h.hit hpos hk
    refine ⟨s₂, ?_, hrefines⟩
    simp only [hfind, Option.bind_eq_bind, Option.bind_some, Option.elim_some, hdetach, hpush,
      decide_eq_true hk]
    rfl
  · have hfind : intMapFind s key = some none := by
      obtain ⟨slots, hrep, -⟩ := h.slots
      rcases hrep.find (by rwa [hcap]) key with ⟨-, -, -, hmem, -⟩ | ⟨-, hfind⟩
      · exact absurd hmem hk
      · exact hfind
    obtain ⟨i, s₁, s₂, hinsert, hpush, hrefines⟩ : ∃ i s₁ s₂, insertKey key s = some (i, s₁)
        ∧ listPushFront .sentinel (.entry i) s₁ = some s₂
        ∧ Refines c s₂ (Lru.access c keys key) := by
      by_cases hroom : s.used < c
      · exact h.insertKey_of_lt hk hroom
      · exact h.insertKey_of_full hk hpos hroom
    refine ⟨s₂, ?_, hrefines⟩
    simp only [hfind, Option.bind_eq_bind, Option.bind_some, Option.elim_none, hinsert, hpush,
      decide_eq_false hk]
    rfl

end Access

/-! ## Runs -/

/-- **Every run does what the reference does.** -/
theorem runAccesses_spec {c : ℕ} (ks : List Int64) {s : LruCache} {keys : List Int64}
    (h : Refines c s keys) :
    ∃ s', runAccesses ks s = some ((Lru.accesses c keys ks).1, s')
      ∧ Refines c s' (Lru.accesses c keys ks).2 := by
  induction ks generalizing s keys with
  | nil => exact ⟨s, rfl, h⟩
  | cons k ks ih =>
    obtain ⟨s₁, haccess, h₁⟩ := lruAccess_spec h k
    obtain ⟨s₂, hrun, h₂⟩ := ih h₁
    refine ⟨s₂, ?_, h₂⟩
    simp only [runAccesses, haccess, hrun, Option.bind_eq_bind, Option.bind_some]
    rfl

/-- **lru-in-c-datastructs refines the textbook list.** From `lru_create`,
every sequence of accesses returns what the textbook list of capacity `c`
answers; no step is undefined, so that every entry that was touched is one
of the `c` in the pool, and the assertion held. At its end the recency list
read from the head visits the entries with the reference keys in order,
`int_map_find` finds each of these keys in its own entry and no other key,
and no more than `c` entries are in use. -/
theorem runAccesses_refines_lru {c : ℕ} {callocs : Callocs} {s₀ : LruCache}
    (hcreate : lruCreate callocs c = some s₀) (ks : List Int64) :
    ∃ (s : LruCache) (slots : List ℕ), runAccesses ks s₀ = some ((Lru.accesses c [] ks).1, s)
      ∧ IsList s (slots.map .entry) ∧ slots.map (keyOf s) = (Lru.accesses c [] ks).2
      ∧ (∀ i ∈ slots, intMapFind s (keyOf s i) = some (some i) ∧ valueOf s i = some i ∧ i < c)
      ∧ (∀ k, k ∉ (Lru.accesses c [] ks).2 → intMapFind s k = some none)
      ∧ s.used ≤ c ∧ s.entries.size = c := by
  obtain ⟨s, hrun, h⟩ := runAccesses_spec ks (lruCreate_spec hcreate)
  obtain ⟨slots, hrep, hlen, hlt⟩ := h.slots
  have hused := h.used
  refine ⟨s, slots, hrun, hrep.list, hrep.written, fun i hi => ?_, fun k hk => ?_, hused,
    h.sizes.1⟩
  · have hic := Nat.lt_of_lt_of_le (hlt i hi) hused
    obtain ⟨chain, hindex⟩ := hrep.index (by rw [h.sizes.2.2]; exact Nat.zero_lt_of_lt hic)
    exact ⟨intMapFind_of_mem hindex hrep.injOn hi, hrep.value i hi, hic⟩
  · rcases Nat.eq_zero_or_pos c with rfl | hc
    · rw [intMapFind, if_pos h.sizes.2.1]
      rfl
    · rcases hrep.find (by rwa [h.sizes.2.2]) k with ⟨-, -, -, hmem, -⟩ | ⟨-, hfind⟩
      · exact absurd hmem hk
      · exact hfind

/-- The capacity-two run of the component test. -/
theorem runAccesses_refines_lru_two :
    ∃ s₀ s, lruCreate ⟨true, true, true⟩ 2 = some s₀
      ∧ runAccesses [1, 2, 1, 3, 1, 2] s₀ = some ([false, false, true, false, true, false], s)
      ∧ s.used ≤ 2 := by
  obtain ⟨s₀, h₀⟩ := Option.isSome_iff_exists.mp
    (show (lruCreate ⟨true, true, true⟩ 2).isSome from rfl)
  obtain ⟨s, -, hrun, -, -, -, -, hused, -⟩ := runAccesses_refines_lru h₀ [1, 2, 1, 3, 1, 2]
  exact ⟨s₀, s, h₀, hrun, hused⟩

end LruDatastructs
