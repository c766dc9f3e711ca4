import CppGraduate.LruDatastructs.Refinement
import Mathlib.Data.Set.Function

/-!
# The intrusive map over whole runs

The entries of an `IntMap` belong to its caller, who links and unlinks them in
any order and may give one a new key while it is in no table. What is followed
along a run is the set of the entries linked; the rest is read off the
memory: which entries the chains have, what their back pointers point at
(`Exact`).

**Main result** (`intMap_exact`): in every state a run reaches the back
pointers are exact, every operation has the result the set says, and
`int_map_destroy` ends with no entry linked.
-/

namespace LruDatastructs

open Chains (Cell Chain)

/-! ## Destroying a map -/

/-- The inner loop of `int_map_destroy`, with a bound on its passes: the first
entry of a bucket is removed as long as there is one. -/
def destroyChain (b : ℕ) : ℕ → LruCache → Option LruCache
  | 0, _ => none
  | passes + 1, s => do
    match ← s.cell (.bucket b) with
    | none => return s
    | some entry => destroyChain b passes (← intMapRemove entry s)

/-- **`int_map_destroy`**: no chain is longer than the pool. -/
def intMapDestroy (s : LruCache) : Option LruCache := do
  let s ← (List.range s.index.bucketCount).foldlM
    (fun s b => destroyChain b (s.entries.size + 1) s) s
  return { s with index := ⟨#[], 0⟩ }

/-! ## Runs -/

/-- **What a run reaches** from a memory: another one, with the entries linked
in it. An entry is removed only where it is linked, and given a key only where
it is not. -/
inductive Reaches (s₀ : LruCache) : LruCache → Set ℕ → Prop
  | init : Reaches s₀ s₀ ∅
  | inserted {s s' : LruCache} {slots : Set ℕ} {i : ℕ} (h : Reaches s₀ s slots)
    (hrun : intMapInsert i s = some (true, s')) : Reaches s₀ s' (insert i slots)
  | refused {s s' : LruCache} {slots : Set ℕ} {i : ℕ} (h : Reaches s₀ s slots)
    (hrun : intMapInsert i s = some (false, s')) : Reaches s₀ s' slots
  | removed {s s' : LruCache} {slots : Set ℕ} {i : ℕ} (h : Reaches s₀ s slots) (hi : i ∈ slots)
    (hrun : intMapRemove i s = some s') : Reaches s₀ s' (slots \ {i})
  | keyed {s : LruCache} {slots : Set ℕ} {i : ℕ} (h : Reaches s₀ s slots) (hi : i ∉ slots)
    (key : Int64) (value : Option ℕ) :
    Reaches s₀ (s.mapMapping (fun x => { x with key := key, value := value }) i) slots

/-- **The back pointers are exact.** A bucket's chain ends in a null pointer and
has no entry twice; it has the linked entries whose keys belong there. The back
pointer of a linked entry points at a pointer to it, and the others are
null. -/
structure Exact (s : LruCache) (slots : Set ℕ) : Prop where
  chains : ∀ b < s.index.bucketCount, ∃ xs, Chain s.cell (.bucket b) xs ∧ xs.Nodup ∧
    ∀ i, i ∈ xs ↔ i ∈ slots ∧ bucketFor s.index (keyOf s i) = b
  back : ∀ i ∈ slots, ∃ c, backOf s i = some c ∧ s.cell c = some (some i)
  unlinked : ∀ i ∉ slots, backOf s i = none

/-- **The invariant**: a table of these entries, no key twice, and no back
pointer elsewhere. -/
structure Linked (s : LruCache) (slots : Set ℕ) : Prop where
  index : ∃ chain, IsIndex s slots chain
  keys : Set.InjOn (keyOf s) slots
  unlinked : ∀ i ∉ slots, backOf s i = none

namespace Linked

variable {s : LruCache} {slots : Set ℕ}

/-- What a table of entries says of the back pointers. -/
theorem exact (h : Linked s slots) : Exact s slots := by
  obtain ⟨chain, hindex⟩ := h.index
  refine ⟨fun b hb => ⟨chain b, hindex.table.chained b hb, hindex.table.nodup b hb,
    hindex.table.mem_iff b hb⟩, fun i hi => ?_, h.unlinked⟩
  have hlt : bucketFor s.index (keyOf s i) < s.index.bucketCount := Nat.mod_lt _ hindex.pos
  obtain ⟨l, r, hsplit⟩ := List.append_of_mem ((hindex.table.mem_iff _ hlt i).mpr ⟨hi, rfl⟩)
  have hchain := hindex.table.chained _ hlt
  have hback := hindex.backed _ hlt
  rw [hsplit] at hchain hback
  exact ⟨_, hback.back_mem, hchain.drop.1⟩

/-- A new map on entries that are in no table. -/
theorem init {ok : Bool} {n : ℕ} (hinit : intMapInit ok n = some s.index)
    (hzero : ∀ i, backOf s i = none) : Linked s ∅ := by
  unfold intMapInit at hinit
  split_ifs at hinit with hn
  have hmap := Option.some.inj hinit
  obtain ⟨hn, -⟩ := not_or.mp hn
  refine ⟨⟨fun _ => [], by rw [← hmap]; exact Nat.pos_of_ne_zero hn, ?_, ?_, fun _ _ => trivial⟩,
    Set.injOn_empty _, fun i _ => hzero i⟩
  · rw [← hmap]
    exact Array.size_replicate
  · refine .empty (fun b hb => ?_) _
    rw [← hmap] at hb
    show s.index.buckets[b]? = some none
    rw [← hmap]
    show (Array.replicate n none)[b]? = some none
    rw [Array.getElem?_replicate, if_pos hb]

/-! ## The operations -/

/-- **An entry that is linked, or whose key is there, is refused** and nothing
is changed. -/
theorem refuse (h : Linked s slots) {i : ℕ} (hi : (s.mapping i).isSome)
    (hwhy : i ∈ slots ∨ ∃ j ∈ slots, keyOf s j = keyOf s i) :
    intMapInsert i s = some (false, s) := by
  obtain ⟨chain, hindex⟩ := h.index
  obtain ⟨x, hx⟩ := Option.isSome_iff_exists.mp hi
  rw [intMapInsert, hx, Option.bind_eq_bind, Option.bind_some]
  by_cases hguard : s.index.bucketCount = 0 ∨ x.prevNext.isSome = true
  · rw [if_pos hguard]
    rfl
  · rw [if_neg hguard]
    have hout : i ∉ slots := by
      intro hin
      obtain ⟨c, hc, -⟩ := h.exact.back i hin
      rw [backOf, hx, Option.bind_some] at hc
      exact hguard (.inr (by rw [hc]; rfl))
    obtain ⟨j, hj, hkey⟩ := hwhy.resolve_left hout
    have hfind : intMapFind s x.key = some (some j) := by
      have hxk : keyOf s i = x.key := by rw [keyOf, hx, Option.elim_some]
      rw [← hxk, ← hkey]
      exact intMapFind_of_mem hindex h.keys hj
    rw [hfind]
    rfl

/-- **Any other entry is linked.** -/
theorem insert (h : Linked s slots) {i : ℕ} (hi : (s.mapping i).isSome)
    (hnot : ¬ (i ∈ slots ∨ ∃ j ∈ slots, keyOf s j = keyOf s i)) :
    ∃ s', intMapInsert i s = some (true, s') ∧ Linked s' (insert i slots) := by
  obtain ⟨chain, hindex⟩ := h.index
  obtain ⟨hout, hkey⟩ := not_or.mp hnot
  push Not at hkey
  obtain ⟨s', hrun, hindex', hsame, hback⟩ :=
    intMapInsert_spec hindex hout hi (h.unlinked i hout) hkey
  have hkeys : keyOf s' = keyOf s := funext hsame.key
  refine ⟨s', hrun, hindex', ?_, fun j hj => ?_⟩
  · rw [hkeys, Set.injOn_insert hout]
    refine ⟨h.keys, ?_⟩
    rintro ⟨j, hj, heq⟩
    exact hkey j hj heq
  · rw [hback j hj]
    exact h.unlinked j fun hin => hj (Set.mem_insert_of_mem i hin)

/-- **A linked entry is unlinked.** -/
theorem remove (h : Linked s slots) {i : ℕ} (hi : i ∈ slots) :
    ∃ s', intMapRemove i s = some s' ∧ Linked s' (slots \ {i}) ∧ SameLists s s' := by
  obtain ⟨chain, hindex⟩ := h.index
  obtain ⟨s', hrun, hindex', hsame, hnull, hback⟩ := intMapRemove_spec hindex hi
  have hkeys : keyOf s' = keyOf s := funext hsame.key
  refine ⟨s', hrun, ⟨hindex', ?_, fun j hj => ?_⟩, hsame⟩
  · rw [hkeys]
    exact h.keys.mono Set.sdiff_subset
  · by_cases hji : j = i
    · rw [hji, hnull]
    · have hout : j ∉ slots := fun hin => hj ⟨hin, hji⟩
      rw [hback j hout, h.unlinked j hout]

/-- An entry in no table may be given a key. -/
theorem setKey (h : Linked s slots) {i : ℕ} (hi : i ∉ slots) (key : Int64) (value : Option ℕ) :
    Linked (s.mapMapping (fun x => { x with key := key, value := value }) i) slots := by
  obtain ⟨chain, hindex⟩ := h.index
  have hkeys : ∀ j ∈ slots,
      keyOf (s.mapMapping (fun x => { x with key := key, value := value }) i) j = keyOf s j := by
    intro j hj
    rw [keyOf, LruCache.mapping_mapMapping, if_neg (fun he : j = i => hi (he ▸ hj)), keyOf]
  refine ⟨⟨chain, hindex.setKey hi key value⟩, fun j hj k hk he => ?_, fun j hj => ?_⟩
  · rw [hkeys j hj, hkeys k hk] at he
    exact h.keys hj hk he
  · rw [← h.unlinked j hj, backOf, LruCache.mapping_mapMapping, backOf]
    split_ifs
    · cases s.mapping j <;> rfl
    · rfl

/-- **Finding a key** finds the linked entry that has it. -/
theorem find (h : Linked s slots) (key : Int64) :
    ∃ r, intMapFind s key = some r ∧ ∀ i, r = some i ↔ i ∈ slots ∧ keyOf s i = key := by
  obtain ⟨chain, hindex⟩ := h.index
  by_cases hkey : ∃ i ∈ slots, keyOf s i = key
  · obtain ⟨i, hi, rfl⟩ := hkey
    refine ⟨some i, intMapFind_of_mem hindex h.keys hi, fun j => ?_⟩
    rw [Option.some.injEq]
    constructor
    · rintro rfl
      exact ⟨hi, rfl⟩
    · exact fun ⟨hj, he⟩ => (h.keys hj hi he).symm
  · push Not at hkey
    refine ⟨none, intMapFind_of_not_mem hindex hkey, fun j => ?_⟩
    exact iff_of_false (by simp) fun ⟨hj, he⟩ => hkey j hj he

end Linked

/-- An entry an insertion has a result for is there. -/
theorem isSome_of_insert {s : LruCache} {i : ℕ} {r : Bool × LruCache}
    (h : intMapInsert i s = some r) : (s.mapping i).isSome := by
  obtain ⟨x, hx, -⟩ := Option.bind_eq_some_iff.mp h
  rw [hx, Option.isSome_some]

/-- **Every state of a run** has a table of the linked entries. -/
theorem Reaches.linked {s₀ s : LruCache} {slots : Set ℕ} (h₀ : Linked s₀ ∅)
    (h : Reaches s₀ s slots) : Linked s slots := by
  induction h with
  | init => exact h₀
  | @inserted s s' slots i _ hrun ih =>
    have hi := isSome_of_insert hrun
    by_cases hwhy : i ∈ slots ∨ ∃ j ∈ slots, keyOf s j = keyOf s i
    · cases (ih.refuse hi hwhy).symm.trans hrun
    · obtain ⟨s₁, hrun₁, hlinked⟩ := ih.insert hi hwhy
      obtain ⟨-, rfl⟩ : true = true ∧ s₁ = s' := by simpa using hrun₁.symm.trans hrun
      exact hlinked
  | @refused s s' slots i _ hrun ih =>
    have hi := isSome_of_insert hrun
    by_cases hwhy : i ∈ slots ∨ ∃ j ∈ slots, keyOf s j = keyOf s i
    · obtain ⟨-, rfl⟩ : false = false ∧ s = s' := by
        simpa using (ih.refuse hi hwhy).symm.trans hrun
      exact ih
    · obtain ⟨s₁, hrun₁, -⟩ := ih.insert hi hwhy
      cases hrun₁.symm.trans hrun
  | removed _ hi hrun ih =>
    obtain ⟨s₁, hrun₁, hlinked, -⟩ := ih.remove hi
    obtain rfl := Option.some.inj (hrun₁.symm.trans hrun)
    exact hlinked
  | keyed _ hi key value ih => exact ih.setKey hi key value

/-! ## The end of a map -/

/-- The bucket of an entry. -/
abbrev bucketOf (s : LruCache) (i : ℕ) : ℕ := bucketFor s.index (keyOf s i)

/-- **One bucket is emptied**: its entries are unlinked and no others. -/
theorem destroyChain_spec {b passes : ℕ} {s : LruCache} {slots : Set ℕ} {chain : ℕ → List ℕ}
    (h : Linked s slots) (hindex : IsIndex s slots chain) (hb : b < s.index.bucketCount)
    (hp : (chain b).length < passes) :
    ∃ s', destroyChain b passes s = some s' ∧ Linked s' (slots \ {i | bucketOf s i = b}) ∧
      SameLists s s' := by
  induction passes generalizing s slots chain with
  | zero => exact absurd hp (Nat.not_lt_zero _)
  | succ passes ih =>
    have hread := (hindex.table.chained b hb).read_head
    have hmem := hindex.table.mem_iff b hb
    cases hchain : chain b with
    | nil =>
      rw [hchain] at hread hmem
      refine ⟨s, by rw [destroyChain, hread]; rfl, ?_, fun _ => rfl, rfl, fun _ => rfl,
        fun _ => rfl⟩
      have hnone : slots \ {i | bucketOf s i = b} = slots := by
        rw [sdiff_eq_left, Set.disjoint_left]
        exact fun i hi hib => List.not_mem_nil ((hmem i).mpr ⟨hi, hib⟩)
      rwa [hnone]
    | cons x xs =>
      have hnd := hindex.table.nodup b hb
      rw [hchain] at hread hmem hnd hp
      have hx := (hmem x).mp List.mem_cons_self
      obtain ⟨s₁, hrun, hlinked, hsame⟩ := h.remove hx.1
      obtain ⟨chain₁, hindex₁⟩ := hlinked.index
      obtain ⟨hcount, hhash⟩ := hsame.bucket_eq
      -- what is left in the bucket is what came after the first entry
      have hlen : (chain₁ b).length ≤ xs.length := by
        refine ((hindex₁.table.nodup b (hcount ▸ hb)).subperm fun i hi => ?_).length_le
        obtain ⟨⟨hi, hne⟩, hib⟩ := (hindex₁.table.mem_iff b (hcount ▸ hb) i).mp hi
        rw [congrFun hhash i] at hib
        exact (List.mem_cons.mp ((hmem i).mpr ⟨hi, hib⟩)).resolve_left hne
      obtain ⟨s', hrun', hlinked', hsame'⟩ := ih hlinked hindex₁ (hcount ▸ hb)
        (Nat.lt_of_le_of_lt hlen (Nat.lt_of_succ_lt_succ hp))
      refine ⟨s', ?_, ?_, hsame.trans hsame'⟩
      · rw [destroyChain, hread, Option.bind_eq_bind, Option.bind_some]
        show (intMapRemove x s).bind _ = _
        rw [hrun, Option.bind_some, hrun']
      · have hslots : (slots \ {x}) \ {i | bucketOf s₁ i = b} = slots \ {i | bucketOf s i = b} := by
          ext i
          simp only [Set.mem_sdiff, Set.mem_singleton_iff, Set.mem_ofPred_eq, bucketOf,
            congrFun hhash i]
          constructor
          · exact fun ⟨⟨hi, _⟩, hib⟩ => ⟨hi, hib⟩
          · exact fun ⟨hi, hib⟩ => ⟨⟨hi, fun he : i = x => hib (he ▸ hx.2)⟩, hib⟩
        rwa [hslots] at hlinked'

/-- The loop over the buckets, as far as the `n`-th. -/
theorem destroyChains_spec {s : LruCache} {slots : Set ℕ} (h : Linked s slots) {n : ℕ}
    (hn : n ≤ s.index.bucketCount) :
    ∃ s', (List.range n).foldlM (fun s b => destroyChain b (s.entries.size + 1) s) s = some s' ∧
      Linked s' (slots \ {i | bucketOf s i < n}) ∧ SameLists s s' := by
  induction n with
  | zero =>
    refine ⟨s, rfl, ?_, fun _ => rfl, rfl, fun _ => rfl, fun _ => rfl⟩
    simpa using h
  | succ n ih =>
    obtain ⟨s₁, hrun, hlinked, hsame⟩ := ih (Nat.le_of_succ_le hn)
    obtain ⟨chain, hindex⟩ := hlinked.index
    obtain ⟨hcount, hhash⟩ := hsame.bucket_eq
    have hb : n < s₁.index.bucketCount := hcount ▸ hn
    have hlen : (chain n).length ≤ s₁.entries.size :=
      Chains.length_le_of_lt (hindex.table.nodup n hb) fun i hi =>
        hindex.lt_size ((hindex.table.mem_iff n hb i).mp hi).1
    obtain ⟨s', hrun', hlinked', hsame'⟩ :=
      destroyChain_spec hlinked hindex hb (Nat.lt_succ_of_le hlen)
    refine ⟨s', ?_, ?_, hsame.trans hsame'⟩
    · rw [List.range_succ, List.foldlM_append, hrun]
      simpa using hrun'
    · have hslots : (slots \ {i | bucketOf s i < n}) \ {i | bucketOf s₁ i = n}
          = slots \ {i | bucketOf s i < n + 1} := by
        ext i
        simp only [Set.mem_sdiff, Set.mem_ofPred_eq, bucketOf, congrFun hhash i,
          Nat.lt_succ_iff_lt_or_eq]
        tauto
      rwa [hslots] at hlinked'

/-- **`int_map_destroy` ends, and no entry is linked any more.** -/
theorem Linked.destroy {s : LruCache} {slots : Set ℕ} (h : Linked s slots) :
    ∃ s', intMapDestroy s = some s' ∧ ∀ i, backOf s' i = none := by
  obtain ⟨chain, hindex⟩ := h.index
  obtain ⟨s', hrun, hlinked, -⟩ := destroyChains_spec h (Nat.le_refl _)
  refine ⟨{ s' with index := ⟨#[], 0⟩ }, by rw [intMapDestroy, hrun]; rfl, fun i => ?_⟩
  exact hlinked.unlinked i fun hi => hi.2 (Nat.mod_lt _ hindex.pos)

/-! ## All runs -/

/-- **Main result: the back pointers are exact along every run** of a new map
on entries that no map has. In every state a run reaches, `int_map_insert`
refuses an entry, changing nothing, exactly when it is linked or its key is
there; `int_map_remove` unlinks what is linked; `int_map_find` finds exactly the
linked entry with the key; and `int_map_destroy` ends with no entry linked. -/
theorem intMap_exact {ok : Bool} {n : ℕ} {s₀ s : LruCache} {slots : Set ℕ}
    (hinit : intMapInit ok n = some s₀.index) (hzero : ∀ i, backOf s₀ i = none)
    (h : Reaches s₀ s slots) :
    Exact s slots ∧
      (∀ i, (s.mapping i).isSome → ∃ r s', intMapInsert i s = some (r, s') ∧
        (r = false ↔ i ∈ slots ∨ ∃ j ∈ slots, keyOf s j = keyOf s i) ∧ (r = false → s' = s)) ∧
      (∀ i ∈ slots, ∃ s', intMapRemove i s = some s') ∧
      (∀ key, ∃ r, intMapFind s key = some r ∧ ∀ i, r = some i ↔ i ∈ slots ∧ keyOf s i = key) ∧
      ∃ s', intMapDestroy s = some s' ∧ ∀ i, backOf s' i = none := by
  have hlinked := h.linked (.init hinit hzero)
  refine ⟨hlinked.exact, fun i hi => ?_, fun i hi => ?_, hlinked.find, hlinked.destroy⟩
  · by_cases hwhy : i ∈ slots ∨ ∃ j ∈ slots, keyOf s j = keyOf s i
    · exact ⟨false, s, hlinked.refuse hi hwhy, iff_of_true rfl hwhy, fun _ => rfl⟩
    · obtain ⟨s', hrun, -⟩ := hlinked.insert hi hwhy
      exact ⟨true, s', hrun, iff_of_false (by simp) hwhy, fun hf => absurd hf (by simp)⟩
  · obtain ⟨s', hrun, -⟩ := hlinked.remove hi
    exact ⟨s', hrun⟩

/-- A new map with one bucket beside two entries, with the keys 5 and 7. -/
def twoEntries : LruCache where
  recency := ⟨none, none⟩
  index := ⟨#[none], 1⟩
  entries := #[⟨⟨none, none⟩, ⟨5, none, none, none⟩⟩, ⟨⟨none, none⟩, ⟨7, none, none, none⟩⟩]
  capacity := 2
  used := 0

/-- The same after both were linked, one behind the other, and the first was
removed. -/
def secondLinked : LruCache :=
  { twoEntries with
    index := ⟨#[some 1], 1⟩
    entries := #[⟨⟨none, none⟩, ⟨5, none, none, none⟩⟩,
      ⟨⟨none, none⟩, ⟨7, none, none, some (.bucket 0)⟩⟩] }

/-- Of two entries of one bucket the second stays linked when the first is
removed. -/
theorem intMap_exact_secondLinked :
    let slots : Set ℕ := insert 1 (insert 0 ∅) \ {0}
    Exact secondLinked slots ∧
      (∀ i, (secondLinked.mapping i).isSome → ∃ r s', intMapInsert i secondLinked = some (r, s') ∧
        (r = false ↔ i ∈ slots ∨ ∃ j ∈ slots, keyOf secondLinked j = keyOf secondLinked i) ∧
        (r = false → s' = secondLinked)) ∧
      (∀ i ∈ slots, ∃ s', intMapRemove i secondLinked = some s') ∧
      (∀ key, ∃ r, intMapFind secondLinked key = some r ∧
        ∀ i, r = some i ↔ i ∈ slots ∧ keyOf secondLinked i = key) ∧
      ∃ s', intMapDestroy secondLinked = some s' ∧ ∀ i, backOf s' i = none := by
  have hzero : ∀ i, backOf twoEntries i = none
    | 0 => rfl
    | 1 => rfl
    | _ + 2 => rfl
  have hinit : intMapInit true 1 = some twoEntries.index := rfl
  have hboth : ∃ s, Reaches twoEntries s (insert 1 (insert 0 ∅))
      ∧ intMapRemove 0 s = some secondLinked :=
    ⟨_, .inserted (.inserted .init rfl) rfl, rfl⟩
  obtain ⟨s, hreach, hrun⟩ := hboth
  exact intMap_exact hinit hzero (.removed hreach (by simp) hrun)

end LruDatastructs
