import CppGraduate.LruDatastructs.List
import CppGraduate.LruInC.HashMap

/-!
# The intrusive map of lru-in-c-datastructs

`int_map.c`: chains through the `next` fields of map entries, each of which
also knows the cell that points at it, so that it can be unlinked without
walking its chain. Keys are mixed as in lru-in-c.

`IsIndex` says which entries are in the table. The operations change nothing
else: no list link, no key, no value.
-/

namespace LruDatastructs

open Chains (Cell Chain Table BackedTable cellAfter)

/-- `bucket_for` -/
def bucketFor (map : IntMap) (key : Int64) : ℕ := (LruInC.hashOf key).toNat % map.bucketCount

/-- `int_map_init`, on a new map; `ok` is whether the allocation succeeds. -/
def intMapInit (ok : Bool) (bucketCount : ℕ) : Option IntMap :=
  if bucketCount = 0 ∨ LruInC.sizeMax / LruInC.sizeofPointer < bucketCount then none
  else if ok then some ⟨Array.replicate bucketCount none, bucketCount⟩
  else none

/-- The loop of `int_map_find`, with a bound on its passes. -/
def findFrom (key : Int64) (s : LruCache) : ℕ → Option ℕ → Option (Option ℕ)
  | 0, _ => none
  | _ + 1, none => some none
  | passes + 1, some entry => do
    let x ← s.mapping entry
    if x.key = key then return some entry
    findFrom key s passes x.next

/-- `int_map_find`: no chain is longer than the pool. -/
def intMapFind (s : LruCache) (key : Int64) : Option (Option ℕ) := do
  if s.index.bucketCount = 0 then return none
  let entry ← s.cell (.bucket (bucketFor s.index key))
  findFrom key s (s.entries.size + 1) entry

/-- Write the back pointer of an entry, unless the pointer to it is null:
`if (p) p->prev_next = c`. -/
def writeBack (c : Option (Cell ℕ)) (s : LruCache) : Option ℕ → Option LruCache
  | none => some s
  | some i => s.modifyMapping i fun y => { y with prevNext := c }

/-- `int_map_remove` -/
def intMapRemove (entry : ℕ) (s : LruCache) : Option LruCache := do
  let x ← s.mapping entry
  let s ← s.writeCell (← x.prevNext) x.next
  let x ← s.mapping entry
  let s ← writeBack x.prevNext s x.next
  s.modifyMapping entry fun y => { y with next := none, prevNext := none }

/-- `int_map_insert` -/
def intMapInsert (entry : ℕ) (s : LruCache) : Option (Bool × LruCache) := do
  let x ← s.mapping entry
  if s.index.bucketCount = 0 ∨ x.prevNext.isSome then return (false, s)
  if (← intMapFind s x.key).isSome then return (false, s)
  let head := Cell.bucket (bucketFor s.index x.key)
  let first ← s.cell head
  let s ← s.modifyMapping entry fun y => { y with next := first, prevNext := some head }
  let s ← writeBack (some (.next entry)) s (← s.cell head)
  let s ← s.writeCell head (some entry)
  return (true, s)

/-! ## Reading the table -/

/-- The key of an entry. -/
def keyOf (s : LruCache) (i : ℕ) : Int64 := (s.mapping i).elim 0 IntMapEntry.key

/-- The value of an entry. -/
def valueOf (s : LruCache) (i : ℕ) : Option ℕ := (s.mapping i).bind IntMapEntry.value

/-- The back pointer of an entry. -/
def backOf (s : LruCache) (i : ℕ) : Option (Cell ℕ) := (s.mapping i).bind IntMapEntry.prevNext

/-- **The entries `slots` are in the table**, and no others. -/
structure IsIndex (s : LruCache) (slots : Set ℕ) (chain : ℕ → List ℕ) : Prop where
  pos : 0 < s.index.bucketCount
  size : s.index.buckets.size = s.index.bucketCount
  table : Table s.cell s.index.bucketCount (fun i => bucketFor s.index (keyOf s i)) slots chain
  backed : BackedTable (backOf s) s.index.bucketCount chain

/-- **Only the table changed**: links, keys, values and sizes did not. -/
structure SameLists (s s' : LruCache) : Prop where
  link : ∀ a, s'.link a = s.link a
  sizes : s'.sizes = s.sizes
  key : ∀ i, keyOf s' i = keyOf s i
  value : ∀ i, valueOf s' i = valueOf s i

theorem SameLists.trans {s s' s'' : LruCache} (h : SameLists s s') (h' : SameLists s' s'') :
    SameLists s s'' :=
  ⟨fun a => (h'.link a).trans (h.link a), h'.sizes.trans h.sizes,
    fun i => (h'.key i).trans (h.key i), fun i => (h'.value i).trans (h.value i)⟩

section Writes

variable {s : LruCache}

/-- An entry that is there is written. -/
theorem modifyMapping_of_isSome {i : ℕ} (h : (s.mapping i).isSome)
    (g : IntMapEntry → IntMapEntry) : s.modifyMapping i g = some (s.mapMapping g i) := if_pos h

/-- A cell that is there is written. -/
theorem writeCell_of_isSome {c : Cell ℕ} (h : (s.cell c).isSome) (p : Option ℕ) :
    s.writeCell c p = some (s.setCell p c) := if_pos h

/-- Writing pointers of an entry changes the table only. -/
theorem sameLists_mapMapping {g : IntMapEntry → IntMapEntry} (hkey : ∀ x, (g x).key = x.key)
    (hvalue : ∀ x, (g x).value = x.value) (i : ℕ) : SameLists s (s.mapMapping g i) := by
  refine ⟨fun a => LruCache.link_mapMapping .., LruCache.sizes_mapMapping .., fun j => ?_,
    fun j => ?_⟩
  · rw [keyOf, LruCache.mapping_mapMapping, keyOf]
    split_ifs
    · cases s.mapping j with
      | none => rfl
      | some x => exact hkey x
    · rfl
  · rw [valueOf, LruCache.mapping_mapMapping, valueOf]
    split_ifs
    · cases s.mapping j with
      | none => rfl
      | some x => exact hvalue x
    · rfl

/-- So does writing a cell. -/
theorem sameLists_setCell (p : Option ℕ) (c : Cell ℕ) : SameLists s (s.setCell p c) := by
  cases c with
  | next i =>
    exact sameLists_mapMapping (g := fun x => { x with next := p }) (fun _ => rfl) (fun _ => rfl) i
  | bucket b =>
    exact ⟨fun a => by cases a <;> rfl, LruCache.sizes_setCell .., fun _ => rfl, fun _ => rfl⟩

/-- Writing a cell leaves back pointers alone. -/
theorem backOf_setCell (p : Option ℕ) (c : Cell ℕ) (i : ℕ) :
    backOf (s.setCell p c) i = backOf s i := by
  rw [backOf, LruCache.mapping_setCell, backOf]
  split_ifs
  · cases s.mapping i <;> rfl
  · rfl

/-- Writing an entry leaves the back pointers of others alone. -/
theorem backOf_mapMapping_of_ne (g : IntMapEntry → IntMapEntry) {i j : ℕ} (h : j ≠ i) :
    backOf (s.mapMapping g i) j = backOf s j := by
  rw [backOf, LruCache.mapping_mapMapping, if_neg h, backOf]

/-- A table with the sizes of another. -/
theorem sizes_eq {s' : LruCache} (h : s'.sizes = s.sizes) :
    s'.entries.size = s.entries.size ∧ s'.index.buckets.size = s.index.buckets.size
      ∧ s'.index.bucketCount = s.index.bucketCount ∧ s'.capacity = s.capacity ∧ s'.used = s.used := by
  simpa [LruCache.sizes] using h

end Writes

/-! ## Finding a key -/

section Find

variable {s : LruCache} {slots : Set ℕ} {chain : ℕ → List ℕ}

/-- What is known of a cell that is there: the entry is, and points on. -/
theorem mapping_of_cell {i : ℕ} {p : Option ℕ} (h : s.cell (.next i) = some p) :
    ∃ x, s.mapping i = some x ∧ x.next = p :=
  Option.map_eq_some_iff.mp h

/-- An entry that is there is in the pool. -/
theorem lt_of_isSome_mapping {i : ℕ} (h : (s.mapping i).isSome) : i < s.entries.size := by
  rw [LruCache.mapping, Option.isSome_map] at h
  exact (Array.getElem?_eq_some_iff.mp (Option.eq_some_of_isSome h)).1

/-- **The walk along a chain** stops at the first entry with the key. -/
theorem findFrom_spec {c : Cell ℕ} {xs : List ℕ} (h : Chain s.cell c xs) (key : Int64) {passes : ℕ}
    (hp : xs.length < passes) :
    findFrom key s passes xs.head? = some (xs.find? fun i => keyOf s i = key) := by
  induction xs generalizing c passes with
  | nil =>
    obtain ⟨passes, rfl⟩ := Nat.exists_eq_succ_of_ne_zero (Nat.ne_of_gt hp)
    rfl
  | cons i xs ih =>
    obtain ⟨passes, rfl⟩ := Nat.exists_eq_succ_of_ne_zero (Nat.ne_of_gt (Nat.zero_lt_of_lt hp))
    obtain ⟨x, hx, hnext⟩ := mapping_of_cell h.2.read_head
    have hkey : keyOf s i = x.key := by rw [keyOf, hx, Option.elim_some]
    simp only [List.head?_cons, findFrom, hx, Option.bind_eq_bind, Option.bind_some]
    by_cases he : x.key = key
    · rw [if_pos he, List.find?_cons_of_pos (by simpa [hkey] using he)]
      rfl
    · rw [if_neg he, List.find?_cons_of_neg (by simpa [hkey] using he), hnext]
      exact ih h.2 (Nat.lt_of_succ_lt_succ hp)

/-- An entry of the table is in the pool. -/
theorem IsIndex.lt_size (h : IsIndex s slots chain) {i : ℕ} (hi : i ∈ slots) :
    i < s.entries.size := by
  have hlt : bucketFor s.index (keyOf s i) < s.index.bucketCount := Nat.mod_lt _ h.pos
  have hmem := (h.table.mem_iff _ hlt i).mpr ⟨hi, rfl⟩
  have hcell := (h.table.chained _ hlt).isSome_next hmem
  rw [LruCache.cell, Option.isSome_map] at hcell
  exact lt_of_isSome_mapping hcell

/-- `int_map_find` searches the chain of the key. -/
theorem intMapFind_eq (h : IsIndex s slots chain) (key : Int64) :
    intMapFind s key
      = some ((chain (bucketFor s.index key)).find? fun i => keyOf s i = key) := by
  have hlt : bucketFor s.index key < s.index.bucketCount := Nat.mod_lt _ h.pos
  have hchain := h.table.chained _ hlt
  have hlen : (chain (bucketFor s.index key)).length ≤ s.entries.size :=
    Chains.length_le_of_lt (h.table.nodup _ hlt) fun i hi =>
      h.lt_size ((h.table.mem_iff _ hlt i).mp hi).1
  rw [intMapFind, if_neg (Nat.ne_of_gt h.pos), hchain.read_head]
  exact findFrom_spec hchain key (Nat.lt_succ_of_le hlen)

/-- **`int_map_find` finds an entry with the key** if the table has one. -/
theorem intMapFind_of_mem (h : IsIndex s slots chain)
    (hinj : Set.InjOn (keyOf s) slots) {i : ℕ} (hi : i ∈ slots) :
    intMapFind s (keyOf s i) = some (some i) := by
  have hlt : bucketFor s.index (keyOf s i) < s.index.bucketCount := Nat.mod_lt _ h.pos
  have hmem := (h.table.mem_iff _ hlt i).mpr ⟨hi, rfl⟩
  rw [intMapFind_eq h]
  cases hfind : (chain (bucketFor s.index (keyOf s i))).find? fun j => keyOf s j = keyOf s i with
  | none => exact absurd (List.find?_eq_none.mp hfind i hmem) (by simp)
  | some j =>
    have hj := ((h.table.mem_iff _ hlt j).mp (List.mem_of_find?_eq_some hfind)).1
    rw [hinj hj hi (by simpa using List.find?_some hfind)]

/-- **And nothing** if it has none. -/
theorem intMapFind_of_not_mem (h : IsIndex s slots chain) {key : Int64}
    (hkey : ∀ i ∈ slots, keyOf s i ≠ key) : intMapFind s key = some none := by
  have hlt : bucketFor s.index key < s.index.bucketCount := Nat.mod_lt _ h.pos
  rw [intMapFind_eq h, List.find?_eq_none.mpr fun i hi => ?_]
  simpa using hkey i ((h.table.mem_iff _ hlt i).mp hi).1

end Find

/-! ## Linking and unlinking an entry -/

section Links

variable {s : LruCache} {slots : Set ℕ} {chain : ℕ → List ℕ}

/-- Tell an entry, if there is one, about the cell that points at it. -/
def setBack (s : LruCache) (c : Option (Cell ℕ)) : Option ℕ → LruCache
  | none => s
  | some i => s.mapMapping (fun y => { y with prevNext := c }) i

/-- Write the two pointers of an entry. -/
abbrev setPointers (s : LruCache) (p : Option ℕ) (c : Option (Cell ℕ)) (i : ℕ) : LruCache :=
  s.mapMapping (fun y => { y with next := p, prevNext := c }) i

/-- An entry that is there is told. -/
theorem writeBack_of_isSome (c : Option (Cell ℕ)) {p : Option ℕ}
    (hp : ∀ i ∈ p, (s.mapping i).isSome) : writeBack c s p = some (setBack s c p) := by
  cases p with
  | none => rfl
  | some i => exact modifyMapping_of_isSome (hp i rfl) _

theorem cell_setBack (c : Option (Cell ℕ)) (p : Option ℕ) (c' : Cell ℕ) :
    (setBack s c p).cell c' = s.cell c' := by
  cases p with
  | none => rfl
  | some i => exact LruCache.cell_mapMapping _ _ _ _ fun _ => rfl

theorem cell_setPointers (p : Option ℕ) (c : Option (Cell ℕ)) (i : ℕ) (c' : Cell ℕ) :
    (setPointers s p c i).cell c'
      = if c' = .next i then (s.cell c').map fun _ => p else s.cell c' := by
  cases c' with
  | bucket b => rfl
  | next j =>
    rw [LruCache.cell, LruCache.mapping_mapMapping]
    by_cases hij : j = i
    · rw [if_pos hij, if_pos (by rw [hij]), LruCache.cell, Option.map_map, Option.map_map]
      rfl
    · rw [if_neg hij, if_neg (by simpa using hij), LruCache.cell]

theorem isSome_mapping_setBack (c : Option (Cell ℕ)) (p : Option ℕ) (i : ℕ) :
    ((setBack s c p).mapping i).isSome = (s.mapping i).isSome := by
  cases p with
  | none => rfl
  | some j => exact LruCache.isSome_mapping_mapMapping ..

theorem sameLists_setBack (c : Option (Cell ℕ)) (p : Option ℕ) : SameLists s (setBack s c p) := by
  cases p with
  | none => exact ⟨fun _ => rfl, rfl, fun _ => rfl, fun _ => rfl⟩
  | some i =>
    exact sameLists_mapMapping (g := fun y => { y with prevNext := c }) (fun _ => rfl)
      (fun _ => rfl) i

theorem sameLists_setPointers (p : Option ℕ) (c : Option (Cell ℕ)) (i : ℕ) :
    SameLists s (setPointers s p c i) :=
  sameLists_mapMapping (g := fun y => { y with next := p, prevNext := c }) (fun _ => rfl)
    (fun _ => rfl) i

theorem backOf_setBack (c : Option (Cell ℕ)) {p : Option ℕ} (hp : ∀ i ∈ p, (s.mapping i).isSome)
    (j : ℕ) : backOf (setBack s c p) j = if p = some j then c else backOf s j := by
  cases p with
  | none => rfl
  | some i =>
    by_cases hij : j = i
    · subst hij
      obtain ⟨x, hx⟩ := Option.isSome_iff_exists.mp (hp j rfl)
      rw [if_pos rfl, setBack, backOf, LruCache.mapping_mapMapping, if_pos rfl, hx]
      rfl
    · rw [if_neg (by simpa using Ne.symm hij)]
      exact backOf_mapMapping_of_ne _ hij

theorem backOf_setPointers {i : ℕ} (hi : (s.mapping i).isSome) (p : Option ℕ)
    (c : Option (Cell ℕ)) : backOf (setPointers s p c i) i = c := by
  obtain ⟨x, hx⟩ := Option.isSome_iff_exists.mp hi
  rw [backOf, LruCache.mapping_mapMapping, if_pos rfl, hx]
  rfl

/-- Where links, keys and sizes are the same, entries belong to the same
buckets. -/
theorem SameLists.bucket_eq {s' : LruCache} (h : SameLists s s') :
    s'.index.bucketCount = s.index.bucketCount
      ∧ (fun i => bucketFor s'.index (keyOf s' i)) = fun i => bucketFor s.index (keyOf s i) := by
  have hcount := (sizes_eq h.sizes).2.2.1
  refine ⟨hcount, funext fun i => ?_⟩
  rw [bucketFor, bucketFor, hcount, h.key]

/-- **`int_map_remove`** takes an entry out of the table. -/
theorem intMapRemove_spec (h : IsIndex s slots chain) {i : ℕ} (hi : i ∈ slots) :
    ∃ s', intMapRemove i s = some s' ∧ (∃ chain', IsIndex s' (slots \ {i}) chain')
      ∧ SameLists s s' ∧ backOf s' i = none ∧ ∀ j, j ∉ slots → backOf s' j = backOf s j := by
  have hlt : bucketFor s.index (keyOf s i) < s.index.bucketCount := Nat.mod_lt _ h.pos
  obtain ⟨l, r, hsplit⟩ := List.append_of_mem ((h.table.mem_iff _ hlt i).mpr ⟨hi, rfl⟩)
  have hchain := h.table.chained _ hlt
  have hnd := h.table.nodup _ hlt
  have hback := h.backed _ hlt
  rw [hsplit] at hchain hnd hback
  -- the cell that points at the entry
  set c := cellAfter (.bucket (bucketFor s.index (keyOf s i))) l with hc
  obtain ⟨x, hx, hxn⟩ := mapping_of_cell hchain.drop.2.read_head
  have hxp : x.prevNext = some c := by
    have hb := hback.back_mem
    rwa [backOf, hx, Option.bind_some] at hb
  have hci : c ≠ .next i := Chains.cellAfter_ne (by simp) hnd i List.mem_cons_self
  have hcell : (s.cell c).isSome := hchain.isSome_cellAfter
  have hmap : ∀ j ∈ r, (s.mapping j).isSome := fun j hj => by
    have hs := hchain.isSome_next (x := j) (by simp [hj])
    rwa [LruCache.cell, Option.isSome_map] at hs
  -- the writes: past the entry, back from its successor, into the entry itself
  set s₁ := s.setCell x.next c with hs₁
  have hx₁ : s₁.mapping i = some x := by
    rw [hs₁, LruCache.mapping_setCell, if_neg hci, hx]
  have hnext : ∀ j ∈ x.next, (s₁.mapping j).isSome := fun j hj => by
    rw [hs₁, LruCache.isSome_mapping_setCell]
    exact hmap j (List.mem_of_mem_head? (hxn ▸ hj))
  set s₂ := setBack s₁ x.prevNext x.next with hs₂
  have hi₂ : (s₂.mapping i).isSome := by
    rw [hs₂, isSome_mapping_setBack, hx₁, Option.isSome_some]
  set s₃ := setPointers s₂ none none i with hs₃
  have hsame : SameLists s s₃ :=
    ((sameLists_setCell ..).trans (sameLists_setBack ..)).trans (sameLists_setPointers ..)
  have hcells : ∀ c', c' ≠ .next i → s₃.cell c' = if c' = c then some x.next else s.cell c' := by
    intro c' hne
    rw [hs₃, cell_setPointers, if_neg hne, hs₂, cell_setBack, hs₁, LruCache.cell_setCell]
    split_ifs with he
    · rw [he, Option.eq_some_of_isSome hcell, Option.map_some]
    · rfl
  have hbacks : ∀ j, j ≠ i → backOf s₃ j = if x.next = some j then some c else backOf s j := by
    intro j hj
    rw [hs₃, backOf_mapMapping_of_ne _ hj, hs₂, backOf_setBack _ hnext, hxp, hs₁, backOf_setCell]
  obtain ⟨hcount, hhash⟩ := hsame.bucket_eq
  refine ⟨s₃, ?_, ⟨Function.update chain (bucketFor s.index (keyOf s i)) (l ++ r),
    by rw [hcount]; exact h.pos, ?_, ?_, ?_⟩, hsame, backOf_setPointers hi₂ _ _, fun j hj => ?_⟩
  · simp only [intMapRemove, hx, hxp, writeCell_of_isSome hcell, Option.bind_eq_bind,
      Option.bind_some, hx₁, ← hs₁]
    rw [← hxp, writeBack_of_isSome _ hnext, Option.bind_some]
    exact modifyMapping_of_isSome hi₂ _
  · rw [hcount, ← h.size]
    exact (sizes_eq hsame.sizes).2.1
  · rw [hcount, hhash]
    refine h.table.remove hlt hsplit ?_ fun c' hne hni => ?_
    · rw [hcells _ hci, if_pos rfl, LruCache.cell, hx]
      rfl
    · rw [hcells _ hni, if_neg hne]
  · rw [hcount]
    refine h.backed.remove h.table hlt hsplit (fun j hj => ?_) fun j hne hj => ?_
    · have hji : j ≠ i := by
        rintro rfl
        exact (List.nodup_cons.mp (List.nodup_append.mp hnd).2.1).1 (List.mem_of_mem_head? hj)
      rw [hbacks j hji, if_pos (hxn.trans hj)]
    · rw [hbacks j hne, if_neg (by rwa [hxn])]
  · have hji : j ≠ i := fun he => hj (he ▸ hi)
    rw [hbacks j hji, if_neg fun he => hj ?_]
    have hjr := List.mem_of_mem_head? (hxn.symm.trans he)
    exact ((h.table.mem_iff _ hlt j).mp (by rw [hsplit]; simp [hjr])).1

/-- **`int_map_insert`** puts an entry with a new key into the table. -/
theorem intMapInsert_spec (h : IsIndex s slots chain) {i : ℕ} (hi : i ∉ slots)
    (hsome : (s.mapping i).isSome) (hnull : backOf s i = none)
    (hkey : ∀ j ∈ slots, keyOf s j ≠ keyOf s i) :
    ∃ s', intMapInsert i s = some (true, s') ∧ (∃ chain', IsIndex s' (insert i slots) chain')
      ∧ SameLists s s' ∧ ∀ j, j ∉ insert i slots → backOf s' j = backOf s j := by
  have hlt : bucketFor s.index (keyOf s i) < s.index.bucketCount := Nat.mod_lt _ h.pos
  have hchain := h.table.chained _ hlt
  obtain ⟨x, hx⟩ := Option.isSome_iff_exists.mp hsome
  have hxk : keyOf s i = x.key := by rw [keyOf, hx, Option.elim_some]
  have hxp : x.prevNext = none := by rwa [backOf, hx, Option.bind_some] at hnull
  rw [hxk] at hlt hchain
  obtain ⟨head, hhead⟩ : ∃ head, Cell.bucket (bucketFor s.index x.key) = head := ⟨_, rfl⟩
  rw [hhead] at hchain
  set first := (chain (bucketFor s.index x.key)).head? with hfirst
  have hread : s.cell head = some first := hchain.read_head
  have hmem : ∀ j ∈ first, j ∈ slots := fun j hj =>
    ((h.table.mem_iff _ hlt j).mp (List.mem_of_mem_head? hj)).1
  have hmap : ∀ j ∈ first, (s.mapping j).isSome := fun j hj => by
    have hs := hchain.isSome_next (List.mem_of_mem_head? hj)
    rwa [LruCache.cell, Option.isSome_map] at hs
  -- the writes: into the entry, back from the old first one, into the head
  set s₁ := setPointers s first (some head) i with hs₁
  have hnext : ∀ j ∈ first, (s₁.mapping j).isSome := fun j hj => by
    rw [hs₁, LruCache.isSome_mapping_mapMapping]
    exact hmap j hj
  set s₂ := setBack s₁ (some (.next i)) first with hs₂
  set s₃ := s₂.setCell (some i) head with hs₃
  have hsame : SameLists s s₃ :=
    ((sameLists_setPointers ..).trans (sameLists_setBack ..)).trans (sameLists_setCell ..)
  have hhead₁ : s₁.cell head = some first := by
    rw [hs₁, cell_setPointers, if_neg (by simp [← hhead]), hread]
  have hhead₂ : (s₂.cell head).isSome := by
    rw [hs₂, cell_setBack, hhead₁, Option.isSome_some]
  have hcells : ∀ c', c' ≠ head →
      s₃.cell c' = if c' = .next i then some first else s.cell c' := by
    intro c' hne
    rw [hs₃, LruCache.cell_setCell, if_neg hne, hs₂, cell_setBack, hs₁, cell_setPointers]
    split_ifs with he
    · rw [he, LruCache.cell, hx]
      rfl
    · rfl
  have hbacks : ∀ j, backOf s₃ j = if first = some j then some (.next i)
      else if j = i then some head else backOf s j := by
    intro j
    rw [hs₃, backOf_setCell, hs₂, backOf_setBack _ hnext]
    by_cases hj : j = i
    · rw [hj, hs₁, backOf_setPointers hsome, if_pos rfl]
    · rw [hs₁, backOf_mapMapping_of_ne _ hj, if_neg hj]
  have hfi : first ≠ some i := fun he => hi (hmem i he)
  obtain ⟨hcount, hhash⟩ := hsame.bucket_eq
  refine ⟨s₃, ?_, ⟨Function.update chain (bucketFor s.index x.key)
    (i :: chain (bucketFor s.index x.key)), by rw [hcount]; exact h.pos, ?_, ?_, ?_⟩, hsame,
    fun j hj => ?_⟩
  · have hfind : intMapFind s x.key = some none :=
      intMapFind_of_not_mem h fun j hj => by
        rw [← hxk]
        exact hkey j hj
    have hguard : ¬ (s.index.bucketCount = 0 ∨ x.prevNext.isSome = true) := by
      rw [hxp]
      simpa using Nat.ne_of_gt h.pos
    unfold intMapInsert
    simp only [hx, Option.bind_eq_bind, Option.bind_some]
    rw [if_neg hguard, hfind, Option.bind_some, if_neg (by simp), hhead, hread, Option.bind_some,
      modifyMapping_of_isSome hsome, Option.bind_some, hhead₁, Option.bind_some,
      writeBack_of_isSome _ hnext, Option.bind_some, writeCell_of_isSome hhead₂]
    rfl
  · rw [hcount, ← h.size]
    exact (sizes_eq hsame.sizes).2.1
  · rw [hcount, hhash, ← hxk]
    rw [← hxk] at hhead hlt
    refine h.table.insert hi hlt (fun _ _ => rfl) ?_ ?_ fun c' hne hni => ?_
    · rw [hhead, hs₃, LruCache.cell_setCell, if_pos rfl, Option.eq_some_of_isSome hhead₂,
        Option.map_some]
    · have hni : Cell.next i ≠ head := by simp [← hhead]
      rw [hhead, hcells _ hni, if_pos rfl, hread]
    · rw [hhead] at hne
      rw [hcells _ hne, if_neg hni]
  · rw [hcount]
    refine h.backed.insert h.table hlt hi ?_ (fun j hj => ?_) fun j hne hj => ?_
    · rw [hbacks, if_neg hfi, if_pos rfl, hhead]
    · rw [hbacks, if_pos (hfirst.trans hj)]
    · rw [hbacks, if_neg (by rwa [hfirst]), if_neg hne]
  · rw [Set.mem_insert_iff, not_or] at hj
    have hne : first ≠ some j := fun he => hj.2 (hmem j he)
    rw [hbacks, if_neg hne, if_neg hj.1]

end Links

end LruDatastructs
