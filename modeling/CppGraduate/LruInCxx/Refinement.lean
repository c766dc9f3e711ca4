import CppGraduate.Lib.Lru
import CppGraduate.LruInCxx.Cache
import Mathlib.Data.Quot

/-!
# lru-in-cxx is the textbook cache

The equality of the key type is an equivalence and need not be identity:
`Key` is the type of keys up to it, and the textbook cache runs on those.
The list and the map of a cache hold the same keys, each once, and the map
leads from a key to the node that has it, wherever `splice` has put it.

A call whose loader throws is not a request: neither the list nor the map
has been touched by then.
-/

namespace LruInCxx

variable {K T ε : Type} [BEq K] [Hashable K] [EquivBEq K]

/-! ## Keys up to equality -/

/-- The equality of a key type. -/
def keySetoid (K : Type) [BEq K] [EquivBEq K] : Setoid K :=
  ⟨fun a b => a == b, fun _ => BEq.rfl, fun h => BEq.symm h, fun h h' => BEq.trans h h'⟩

/-- **Keys up to equality.** -/
abbrev Key (K : Type) [BEq K] [EquivBEq K] : Type := Quotient (keySetoid K)

omit [Hashable K] in
/-- Equality of keys is decided by their type's. -/
instance : DecidableEq (Key K) :=
  @Quotient.decidableEq K (keySetoid K) fun a b => inferInstanceAs (Decidable ((a == b) = true))

/-- A key up to equality. -/
def Key.mk (k : K) : Key K := Quotient.mk (keySetoid K) k

omit [Hashable K] in
theorem Key.mk_eq_mk {a b : K} : Key.mk a = Key.mk b ↔ (a == b) = true :=
  ⟨fun h => Quotient.exact (s := keySetoid K) h, fun h => Quotient.sound (s := keySetoid K) h⟩

/-! ## What a cache represents -/

/-- The key in a node of the list. -/
def keyOf (n : Iter × (K × T)) : Key K := Key.mk n.2.1

/-- **The cache has the keys and pages of a reference cache.** -/
structure Represents (s : Cache K T) (r : Lru.State (Key K) T) : Prop where
  /-- The list, front to back, is the recency order. -/
  keys : s.cache.nodes.map keyOf = r.keys
  /-- The pages are those of the last misses. -/
  page : ∀ n ∈ s.cache.nodes, r.page (keyOf n) = some n.2.2
  /-- The map leads from a key to the node that has it, and has no other. -/
  index : ∀ k it, s.hash[k]? = some it ↔ ∃ n ∈ s.cache.nodes, n.1 = it ∧ keyOf n = Key.mk k
  /-- The map is as large as the list. -/
  size : s.hash.size = s.cache.size
  /-- No key is there twice. -/
  nodup : r.keys.Nodup
  /-- The capacity is kept. -/
  room : r.keys.length ≤ s.sz

/-- A new cache represents the empty one. -/
theorem represents_new (sz : ℕ) : Represents (Cache.new sz : Cache K T) .empty := by
  refine ⟨rfl, nofun, fun k it => ?_, rfl, List.nodup_nil, Nat.zero_le sz⟩
  simp [Cache.new, StdList.empty]

section Parts

variable {s : Cache K T} {r : Lru.State (Key K) T}

/-- **What the map finds**: the node of the key. -/
theorem Represents.find (h : Represents s r) (k : K) :
    (∃ n ∈ s.cache.nodes, keyOf n = Key.mk k ∧ s.hash[k]? = some n.1 ∧ Key.mk k ∈ r.keys)
      ∨ s.hash[k]? = none ∧ Key.mk k ∉ r.keys := by
  by_cases hk : Key.mk k ∈ r.keys
  · obtain ⟨n, hn, he⟩ := List.mem_map.mp (h.keys ▸ hk)
    exact Or.inl ⟨n, hn, he, (h.index k n.1).mpr ⟨n, hn, rfl, he⟩, hk⟩
  · refine Or.inr ⟨Option.eq_none_iff_forall_not_mem.mpr fun it hit => hk ?_, hk⟩
    obtain ⟨n, hn, -, he⟩ := (h.index k it).mp hit
    rw [← h.keys, ← he]
    exact List.mem_map_of_mem hn

/-- The list has as many nodes as the reference has keys. -/
theorem Represents.size_eq (h : Represents s r) : s.cache.size = r.keys.length := by
  rw [← h.keys, List.length_map]
  rfl

/-- **A hit**: the node of the iterator comes to the front, and the map
still leads to it. -/
theorem Represents.hit (h : Represents s r) {n : Iter × (K × T)} (hn : n ∈ s.cache.nodes) :
    ∃ cache, s.cache.spliceFront n.1 = some cache
      ∧ Represents { s with cache := cache } ⟨Lru.access s.sz r.keys (keyOf n), r.page⟩ := by
  obtain ⟨l, l', hsplit⟩ := List.append_of_mem hn
  obtain ⟨cache, hsplice, hnodes⟩ := s.cache.spliceFront_spec hsplit
  have hperm : cache.nodes.Perm s.cache.nodes := by
    rw [hnodes, hsplit]
    exact List.perm_middle.symm
  have hkeys : Lru.access s.sz r.keys (keyOf n) = keyOf n :: (l ++ l').map keyOf := by
    have hnd := h.nodup
    rw [← h.keys, hsplit, List.map_append, List.map_cons] at hnd ⊢
    rw [Lru.access_of_mem hnd, List.map_append]
  refine ⟨cache, hsplice, ?_, fun m hm => h.page m (hperm.mem_iff.mp hm), fun k it => ?_, ?_,
    Lru.nodup_access h.nodup _, Lru.length_access_le h.room _⟩
  · rw [hkeys, hnodes]
    rfl
  · rw [h.index]
    simp only [hperm.mem_iff]
  · rw [h.size]
    exact hperm.length_eq.symm

variable [LawfulHashable K]

/-- **The last node of a full cache goes**, from the list and from the
map. -/
theorem Represents.dropBack (h : Represents s r) {keys : List (Key K)} {j : Key K}
    (hkeys : r.keys = keys ++ [j]) :
    ∃ s', LruInCxx.dropBack s = some s' ∧ Represents s' ⟨keys, r.page⟩ ∧ s'.sz = s.sz := by
  obtain ⟨l, n, hsplit⟩ : ∃ l n, s.cache.nodes = l ++ [n] := by
    rcases List.eq_nil_or_concat s.cache.nodes with hnil | ⟨l, n, hconcat⟩
    · have hk := h.keys
      rw [hnil, hkeys] at hk
      exact absurd hk (List.concat_ne_nil j keys).symm
    · exact ⟨l, n, hconcat.trans List.concat_eq_append⟩
  obtain ⟨hback, cache, hpop, hnodes⟩ := s.cache.popBack_spec hsplit
  have hk := h.keys
  rw [hsplit, hkeys, List.map_append] at hk
  obtain ⟨hl, hj⟩ := List.append_inj' hk rfl
  have hn : n ∈ s.cache.nodes := by simp [hsplit]
  -- keys are distinct, so the nodes that stay are those with another key
  have hmem : ∀ m, m ∈ l ↔ m ∈ s.cache.nodes ∧ keyOf m ≠ keyOf n := by
    intro m
    have hnd := h.nodup
    rw [← h.keys, hsplit, List.map_append] at hnd
    constructor
    · intro hm
      refine ⟨by simp [hsplit, hm], fun he => ?_⟩
      exact (List.disjoint_of_nodup_append hnd) (List.mem_map_of_mem hm) (by simp [he])
    · rintro ⟨hm, he⟩
      rw [hsplit, List.mem_append, List.mem_singleton] at hm
      exact hm.resolve_right fun heq => he (heq ▸ rfl)
  have hkn : s.hash[n.2.1]? = some n.1 := (h.index _ _).mpr ⟨n, hn, rfl, rfl⟩
  refine ⟨{ s with cache := cache, hash := s.hash.erase n.2.1 }, ?_,
    ⟨?_, fun m hm => ?_, fun k it => ?_, ?_, ?_, ?_⟩, rfl⟩
  · simp only [LruInCxx.dropBack, hback, hpop, Option.bind_eq_bind, Option.bind_some]
    rfl
  · show cache.nodes.map keyOf = keys
    rw [hnodes, hl]
  · rw [hnodes] at hm
    exact h.page m ((hmem m).mp hm).1
  · show (s.hash.erase n.2.1)[k]? = some it ↔ ∃ m ∈ cache.nodes, _
    rw [Std.HashMap.getElem?_erase, hnodes]
    split_ifs with he
    · refine ⟨nofun, ?_⟩
      rintro ⟨m, hm, -, hmk⟩
      exact absurd (hmk.trans (Key.mk_eq_mk.mpr he).symm) ((hmem m).mp hm).2
    · rw [h.index]
      refine ⟨fun ⟨m, hm, hit, hmk⟩ => ⟨m, (hmem m).mpr ⟨hm, fun heq => he ?_⟩, hit, hmk⟩,
        fun ⟨m, hm, hit, hmk⟩ => ⟨m, ((hmem m).mp hm).1, hit, hmk⟩⟩
      exact Key.mk_eq_mk.mp (heq.symm.trans hmk)
  · have hin : n.2.1 ∈ s.hash := by
      rw [Std.HashMap.mem_iff_isSome_getElem?, hkn, Option.isSome_some]
    show (s.hash.erase n.2.1).size = cache.nodes.length
    rw [Std.HashMap.size_erase, if_pos hin, h.size, StdList.size, hsplit, hnodes,
      List.length_append]
    rfl
  · have hnd := h.nodup
    rw [hkeys] at hnd
    exact (List.nodup_append.mp hnd).1
  · have hroom := h.room
    rw [hkeys, List.length_append] at hroom
    exact Nat.le_of_succ_le hroom

/-- **A new key** goes to the front of the list and into the map. -/
theorem Represents.emplace (h : Represents s r) {k : K} (hk : Key.mk k ∉ r.keys)
    (hroom : r.keys.length < s.sz) (page : T) :
    ∃ front, (s.cache.emplaceFront (k, page)).begin? = some front
      ∧ Represents { s with cache := s.cache.emplaceFront (k, page),
                            hash := s.hash.insertIfNew k front }
        ⟨Key.mk k :: r.keys, Function.update r.page (Key.mk k) (some page)⟩ := by
  have hnone : s.hash[k]? = none := by
    rcases h.find k with ⟨n, -, -, -, hmem⟩ | ⟨hnone, -⟩
    · exact absurd hmem hk
    · exact hnone
  have hnot : k ∉ s.hash := by
    rw [Std.HashMap.mem_iff_isSome_getElem?, hnone]
    simp
  have hne : ∀ m ∈ s.cache.nodes, keyOf m ≠ Key.mk k := fun m hm he => hk (by
    rw [← h.keys, ← he]
    exact List.mem_map_of_mem hm)
  refine ⟨s.cache.fresh, rfl, ?_, fun m hm => ?_, fun k' it => ?_, ?_,
    List.nodup_cons.mpr ⟨hk, h.nodup⟩, hroom⟩
  · show keyOf (s.cache.fresh, (k, page)) :: s.cache.nodes.map keyOf = _
    rw [h.keys]
    rfl
  · rcases List.mem_cons.mp hm with rfl | hm
    · exact Function.update_self _ _ _
    · show Function.update r.page (Key.mk k) (some page) (keyOf m) = _
      rw [Function.update_of_ne (hne m hm)]
      exact h.page m hm
  · show (s.hash.insertIfNew k s.cache.fresh)[k']? = some it
      ↔ ∃ m ∈ (s.cache.fresh, (k, page)) :: s.cache.nodes, _
    rw [Std.HashMap.getElem?_insertIfNew]
    simp only [hnot, not_false_eq_true, and_true, List.mem_cons, exists_eq_or_imp]
    split_ifs with he
    · rw [Option.some.injEq]
      refine ⟨fun hit => Or.inl ⟨hit, Key.mk_eq_mk.mpr he⟩, ?_⟩
      rintro (⟨hit, -⟩ | ⟨m, hm, -, hmk⟩)
      · exact hit
      · exact absurd (hmk.trans (Key.mk_eq_mk.mpr he).symm) (hne m hm)
    · rw [h.index]
      refine ⟨Or.inr, ?_⟩
      rintro (⟨-, hkk⟩ | hold)
      · exact absurd (Key.mk_eq_mk.mp hkk) he
      · exact hold
  · show (s.hash.insertIfNew k s.cache.fresh).size = s.cache.nodes.length + 1
    rw [Std.HashMap.size_insertIfNew, if_neg hnot, h.size]
    rfl

end Parts

/-! ## Calls -/

/-- **What the textbook cache does with a call**: nothing at capacity zero,
a request for a resident key on a hit, and on a miss a request that loads
the page, unless the loader throws. -/
def specCall (sz : ℕ) (call : Call K T ε) (r : Lru.State (Key K) T) :
    Outcome K ε × Lru.State (Key K) T :=
  if sz = 0 then (⟨.ok false, []⟩, r)
  else if Key.mk call.key ∈ r.keys then
    (⟨.ok true, []⟩, ⟨Lru.access sz r.keys (Key.mk call.key), r.page⟩)
  else
    match call.slowGetPage call.key with
    | .error e => (⟨.error e, [call.key]⟩, r)
    | .ok page => (⟨.ok false, [call.key]⟩, (r.request sz ⟨Key.mk call.key, fun _ => page⟩).2)

/-- A sequence of calls on the textbook cache. -/
def specRun (sz : ℕ) : List (Call K T ε) → Lru.State (Key K) T →
    List (Outcome K ε) × Lru.State (Key K) T
  | [], r => ([], r)
  | call :: calls, r =>
    ((specCall sz call r).1 :: (specRun sz calls (specCall sz call r).2).1,
      (specRun sz calls (specCall sz call r).2).2)

section Calls

variable [LawfulHashable K] {s : Cache K T} {r : Lru.State (Key K) T}

/-- **A miss that loads its page** is a request of the reference. -/
theorem Represents.miss (h : Represents s r) (hsz : s.sz ≠ 0) {k : K} (hk : Key.mk k ∉ r.keys)
    (page : T) :
    ∃ s₁ front, makeRoom s = some s₁
      ∧ (s₁.cache.emplaceFront (k, page)).begin? = some front ∧ s₁.sz = s.sz
      ∧ Represents { s₁ with cache := s₁.cache.emplaceFront (k, page),
                             hash := s₁.hash.insertIfNew k front }
        (r.request s.sz ⟨Key.mk k, fun _ => page⟩).2 := by
  have hpage : r.pageAfter ⟨Key.mk k, fun _ => page⟩
      = Function.update r.page (Key.mk k) (some page) := Lru.State.pageAfter_of_not_mem hk
  have hroom := h.room
  by_cases hfull : s.cache.size = s.sz
  · obtain ⟨keys, j, hkeys⟩ : ∃ keys j, r.keys = keys ++ [j] := by
      rcases List.eq_nil_or_concat r.keys with hnil | ⟨keys, j, hconcat⟩
      · rw [h.size_eq, hnil] at hfull
        exact absurd hfull.symm hsz
      · exact ⟨keys, j, hconcat.trans List.concat_eq_append⟩
    obtain ⟨s₁, hdrop, h₁, hsz₁⟩ := h.dropBack hkeys
    rw [h.size_eq, hkeys] at hfull
    rw [hkeys] at hk
    have hlen : keys.length < s₁.sz := by
      rw [hsz₁, ← hfull, List.length_append]
      exact Nat.lt_succ_self _
    obtain ⟨front, hfront, h₂⟩ :=
      h₁.emplace (fun hmem => hk (List.mem_append_left _ hmem)) hlen page
    refine ⟨s₁, front, ?_, hfront, hsz₁, ?_⟩
    · rw [makeRoom, if_pos, hdrop]
      rw [Cache.full, h.size_eq, hkeys, hfull, beq_self_eq_true]
    · have haccess : Lru.access s.sz r.keys (Key.mk k) = Key.mk k :: keys := by
        rw [hkeys]
        exact Lru.access_of_full hk hfull
      show Represents _ ⟨Lru.access s.sz r.keys (Key.mk k), r.pageAfter _⟩
      rw [haccess, hpage]
      exact h₂
  · have hlen : r.keys.length < s.sz := by
      rw [h.size_eq] at hfull
      exact Nat.lt_of_le_of_ne hroom hfull
    obtain ⟨front, hfront, h₂⟩ := h.emplace hk hlen page
    refine ⟨s, front, ?_, hfront, rfl, ?_⟩
    · rw [makeRoom, if_neg]
      rw [Cache.full, beq_iff_eq]
      exact hfull
    · show Represents _ ⟨Lru.access s.sz r.keys (Key.mk k), r.pageAfter _⟩
      rw [Lru.access_of_lt hk hlen, hpage]
      exact h₂

/-- **Every call does what the textbook cache does**, and one whose loader
throws leaves the cache as it was. -/
theorem lookupUpdate_spec (h : Represents s r) (call : Call K T ε) :
    ∃ s', lookupUpdate call s = some ((specCall s.sz call r).1, s')
      ∧ Represents s' (specCall s.sz call r).2 ∧ s'.sz = s.sz
      ∧ ∀ e, (specCall s.sz call r).1.result = .error e → s' = s := by
  unfold lookupUpdate specCall
  by_cases hsz : s.sz = 0
  · rw [if_pos (show s.maxCapacity = 0 from hsz), if_pos hsz]
    exact ⟨s, rfl, h, rfl, nofun⟩
  rw [if_neg (show ¬ s.maxCapacity = 0 from hsz), if_neg hsz]
  rcases h.find call.key with ⟨n, hn, hkey, hfind, hk⟩ | ⟨hfind, hk⟩
  · obtain ⟨cache, hsplice, hrep⟩ := h.hit hn
    rw [if_pos hk]
    refine ⟨{ s with cache := cache }, ?_, hkey ▸ hrep, rfl, nofun⟩
    simp only [hfind, hsplice, Option.bind_eq_bind, Option.bind_some]
    rfl
  · rw [if_neg hk]
    cases hload : call.slowGetPage call.key with
    | error e =>
      refine ⟨s, ?_, h, rfl, fun _ _ => rfl⟩
      simp only [hfind]
    | ok page =>
      obtain ⟨s₁, front, hmake, hfront, hsz₁, hrep⟩ := h.miss hsz hk page
      refine ⟨_, ?_, hrep, hsz₁, nofun⟩
      simp only [hfind, hmake, hfront, Option.bind_eq_bind, Option.bind_some]
      rfl

/-- **Every run does what the textbook cache does.** -/
theorem runCalls_spec (calls : List (Call K T ε)) (h : Represents s r) :
    ∃ s', runCalls calls s = some ((specRun s.sz calls r).1, s')
      ∧ Represents s' (specRun s.sz calls r).2 ∧ s'.sz = s.sz := by
  induction calls generalizing s r with
  | nil => exact ⟨s, rfl, h, rfl⟩
  | cons call calls ih =>
    obtain ⟨s₁, hcall, h₁, hsz₁, -⟩ := lookupUpdate_spec h call
    obtain ⟨s₂, hcalls, h₂, hsz₂⟩ := ih h₁
    rw [hsz₁] at hcalls h₂ hsz₂
    refine ⟨s₂, ?_, h₂, hsz₂⟩
    simp only [runCalls, hcall, hcalls, Option.bind_eq_bind, Option.bind_some]
    rfl

end Calls

omit [Hashable K] in
/-- The loader is called once on a miss with room to store it and not
otherwise. -/
theorem specCall_loads (sz : ℕ) (call : Call K T ε) (r : Lru.State (Key K) T) :
    (specCall sz call r).1.loads
      = if sz = 0 ∨ Key.mk call.key ∈ r.keys then [] else [call.key] := by
  unfold specCall
  by_cases hsz : sz = 0
  · rw [if_pos hsz, if_pos (Or.inl hsz)]
  · by_cases hk : Key.mk call.key ∈ r.keys
    · rw [if_neg hsz, if_pos hk, if_pos (Or.inr hk)]
    · rw [if_neg hsz, if_neg hk, if_neg (not_or.mpr ⟨hsz, hk⟩)]
      cases call.slowGetPage call.key <;> rfl

omit [Hashable K] in
/-- The result says whether the key was resident. -/
theorem specCall_result {sz : ℕ} (call : Call K T ε) {r : Lru.State (Key K) T}
    (hroom : r.keys.length ≤ sz) :
    (specCall sz call r).1.result = .ok true ↔ Key.mk call.key ∈ r.keys := by
  unfold specCall
  by_cases hsz : sz = 0
  · have hnil : r.keys = [] := List.length_eq_zero_iff.mp (Nat.le_zero.mp (hsz ▸ hroom))
    rw [if_pos hsz, hnil]
    simp
  · by_cases hk : Key.mk call.key ∈ r.keys
    · rw [if_neg hsz, if_pos hk]
      exact ⟨fun _ => hk, fun _ => rfl⟩
    · rw [if_neg hsz, if_neg hk]
      refine ⟨fun h => ?_, fun h => absurd h hk⟩
      cases hload : call.slowGetPage call.key <;> rw [hload] at h <;> simp at h

/-- **lru-in-cxx refines the textbook cache.** For every capacity, every key
type with an equality and a hash that respects it, and every sequence of
calls, whichever loaders throw: the calls are answered as the textbook cache
answers them. After the last one the list is its recency order with its
pages, list and map have the same keys, each once and no more than the
capacity, and the map leads from a key to its node. And whatever is called
next, the loader is called once on a miss with room to store it and not
otherwise, the result says whether the key was resident, and an exception
leaves the cache as it was. -/
theorem calls_refine_lru [LawfulHashable K] (sz : ℕ) (calls : List (Call K T ε)) :
    ∃ s : Cache K T, runCalls calls (Cache.new sz) = some ((specRun sz calls .empty).1, s)
      ∧ Represents s (specRun sz calls .empty).2 ∧ s.cache.size ≤ sz
      ∧ ∀ call : Call K T ε, ∃ out s', lookupUpdate call s = some (out, s')
        ∧ out.loads = (if sz = 0 ∨ (s.hash[call.key]?).isSome then [] else [call.key])
        ∧ (out.result = .ok true ↔ (s.hash[call.key]?).isSome)
        ∧ ((∃ e, out.result = .error e) → s' = s) := by
  obtain ⟨s, hrun, hrep, hsz⟩ :=
    runCalls_spec (s := (Cache.new sz : Cache K T)) calls (represents_new sz)
  change runCalls calls (Cache.new sz) = some ((specRun sz calls .empty).1, s) at hrun
  change Represents s (specRun sz calls .empty).2 at hrep
  change s.sz = sz at hsz
  have hroom := hrep.room
  rw [hsz] at hroom
  refine ⟨s, hrun, hrep, hrep.size_eq ▸ hroom, fun call => ?_⟩
  obtain ⟨s', hcall, -, -, herror⟩ := lookupUpdate_spec hrep call
  rw [hsz] at hcall herror
  have hmem : (s.hash[call.key]?).isSome
      ↔ Key.mk call.key ∈ (specRun sz calls .empty).2.keys := by
    rcases hrep.find call.key with ⟨n, -, -, hfind, hk⟩ | ⟨hfind, hk⟩ <;> simp [hfind, hk]
  refine ⟨_, s', hcall, ?_, ?_, fun ⟨e, he⟩ => herror e he⟩
  · rw [specCall_loads]
    simp only [hmem]
  · rw [specCall_result call hroom, hmem]

/-- The component test on a cache of two pages, with one loader that throws
besides. -/
theorem calls_refine_lru_component : ∃ s : Cache ℕ ℕ,
    runCalls [⟨1, .ok⟩, ⟨2, .ok⟩, ⟨1, .ok⟩, ⟨4, .error⟩, ⟨3, .ok⟩, ⟨1, fun _ => .ok 7⟩,
        ⟨2, fun _ => .ok 7⟩] (Cache.new 2)
      = some ([⟨.ok false, [1]⟩, ⟨.ok false, [2]⟩, ⟨.ok true, []⟩, ⟨.error 4, [4]⟩,
          ⟨.ok false, [3]⟩, ⟨.ok true, []⟩, ⟨.ok false, [2]⟩], s)
      ∧ s.cache.nodes.map keyOf = [Key.mk 2, Key.mk 1] := by
  obtain ⟨s, hrun, hrep, -⟩ := calls_refine_lru (K := ℕ) (T := ℕ) (ε := ℕ) 2
    [⟨1, .ok⟩, ⟨2, .ok⟩, ⟨1, .ok⟩, ⟨4, .error⟩, ⟨3, .ok⟩, ⟨1, fun _ => .ok 7⟩,
      ⟨2, fun _ => .ok 7⟩]
  exact ⟨s, hrun, hrep.keys⟩

end LruInCxx
