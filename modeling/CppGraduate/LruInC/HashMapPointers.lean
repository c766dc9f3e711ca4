import CppGraduate.Lib.Chains
import CppGraduate.Lib.Heap
import CppGraduate.LruInC.HashMap
import Mathlib.Data.List.Pairwise

/-!
# The index of lru-in-c in memory

`hash_map.c` with its pointers: an entry is a block of the heap with a `next`
pointer, a bucket is a pointer, and the `HashMapEntry **link` that
`hash_map_remove` moves along a chain is a cell, a bucket or the `next` field of
an entry. Dereferencing a null or freed pointer has no result.

The chains are followed by the tables of `HashMap` (`tableOf`): each operation
does to the table what the operation there does to it, and what is known of
those is known of these. Where the entry to remove is in its chain makes no
difference to the one write that takes it out: the cell that points at it is
the bucket or the field before it, and the walk has stopped at that cell
(`seek_spec`).

**Main result** (`hashMap_refines`): over any sequence of operations, whatever
allocations fail, the answers are those of a finite map from keys to values.
-/

namespace LruInC.Pointers

open Chains (Cell Chain Table cellAfter)

variable {V : Type}

/-! ## Memory -/

/-- The address of a block. -/
abbrev Addr := ℕ

/-- `struct HashMapEntry` -/
structure HashMapEntry (V : Type) where
  key : HashMapKey
  value : V
  next : Option Addr

/-- **A hash map in memory**: the array of its buckets, and the heap its
entries are in. -/
structure HashMap (V : Type) where
  bucketCount : ℕ
  /-- `hash_map_create` makes no table without buckets. -/
  pos : 0 < bucketCount
  buckets : Vector (Option Addr) bucketCount
  heap : Heap (HashMapEntry V)

/-- `bucket_for` -/
def bucketFor (map : HashMap V) (key : HashMapKey) : Fin map.bucketCount :=
  ⟨(hashOf key).toNat % map.bucketCount, Nat.mod_lt _ map.pos⟩

/-- What is in a cell. -/
def cell (map : HashMap V) : Cell Addr → Option (Option Addr)
  | .bucket b => map.buckets[b]?
  | .next a => (map.heap.read a).map HashMapEntry.next

/-- The memory with another pointer in a cell. -/
def setCell (map : HashMap V) (p : Option Addr) : Cell Addr → HashMap V
  | .bucket b => { map with buckets := map.buckets.setIfInBounds b p }
  | .next a => { map with heap := map.heap.mapAt a fun x => { x with next := p } }

/-- `*link = p`: defined where there is a cell. -/
def writeCell (map : HashMap V) (p : Option Addr) (c : Cell Addr) : Option (HashMap V) :=
  if (cell map c).isSome then some (setCell map p c) else none

/-! ## The operations -/

/-- `hash_map_create`, on a heap of its own. -/
def hashMapCreate (okMap okBuckets : Bool) (bucketCount : ℕ) : Option (HashMap V) :=
  if h : 0 < bucketCount then
    if bucketCount ≤ sizeMax / sizeofPointer ∧ okMap ∧ okBuckets then
      some ⟨bucketCount, h, Vector.replicate bucketCount none, .empty⟩
    else none
  else none

/-- The loop of `hash_map_find`, with a bound on its passes: the value of the
entry it stops at. -/
def findFrom (map : HashMap V) (key : HashMapKey) : ℕ → Option Addr → Option (Option V)
  | 0, _ => none
  | _ + 1, none => some none
  | passes + 1, some entry => do
    let x ← map.heap.read entry
    if x.key = key then return some x.value
    findFrom map key passes x.next

/-- **`hash_map_find(map, key, &value)`**: the result, and what `value` is
afterwards. No chain is longer than there were ever blocks. -/
def hashMapFind (map : HashMap V) (key : HashMapKey) (value : V) : Option (Bool × V) := do
  let first ← cell map (.bucket (bucketFor map key))
  match ← findFrom map key (map.heap.bound + 1) first with
  | none => return (false, value)
  | some found => return (true, found)

/-- The end of `hash_map_insert`: an entry is allocated, and becomes the first
of a bucket. -/
def linkEntry (map : HashMap V) (key : HashMapKey) (value : V) (bucket : ℕ) :
    Option (HashMap V) := do
  let first ← cell map (.bucket bucket)
  let (entry, heap) := map.heap.alloc ⟨key, value, first⟩
  writeCell { map with heap := heap } (some entry) (.bucket bucket)

/-- **`hash_map_insert`**; `ok` is whether the allocation succeeds. -/
def hashMapInsert (ok : Bool) (map : HashMap V) (key : HashMapKey) (value : V) :
    Option (HashMapResult × HashMap V) := do
  let (found, _) ← hashMapFind map key value
  if found then return (.duplicate, map)
  if !ok then return (.noMemory, map)
  let map ← linkEntry map key value (bucketFor map key)
  return (.inserted, map)

/-- The loop of `hash_map_remove`, with a bound on its passes: `link` moves on
to the `next` field of the entry it points at until that is none or has the
key. -/
def seek (map : HashMap V) (key : HashMapKey) : ℕ → Cell Addr → Option (Cell Addr)
  | 0, _ => none
  | passes + 1, link => do
    match ← cell map link with
    | none => return link
    | some entry =>
      let x ← map.heap.read entry
      if x.key ≠ key then seek map key passes (.next entry) else return link

/-- The end of `hash_map_remove`: the cell that points at an entry points at what
follows it, and the entry is freed. -/
def unlinkEntry (map : HashMap V) (link : Cell Addr) (entry : Addr) : Option (HashMap V) := do
  let x ← map.heap.read entry
  let map ← writeCell map x.next link
  let heap ← map.heap.free entry
  return { map with heap := heap }

/-- **`hash_map_remove`** -/
def hashMapRemove (map : HashMap V) (key : HashMapKey) : Option (Bool × HashMap V) := do
  let link ← seek map key (map.heap.bound + 1) (.bucket (bucketFor map key))
  match ← cell map link with
  | none => return (false, map)
  | some entry => return (true, ← unlinkEntry map link entry)

/-! ## The table in memory -/

/-- What an entry says besides its pointer. -/
def entryAt (map : HashMap V) (a : Addr) : Option (LruInC.HashMapEntry V) :=
  (map.heap.read a).map fun x => ⟨x.key, x.value⟩

/-- The bucket the entry at an address belongs to. -/
def bucketOf (map : HashMap V) (a : Addr) : ℕ :=
  (map.heap.read a).elim 0 fun x => bucketFor map x.key

/-- The addresses of the entries there are. -/
def blocks (map : HashMap V) : Set Addr := {a | (map.heap.read a).isSome}

/-- **The entries are in chains**, each in the one of its bucket. -/
abbrev InChains (map : HashMap V) (chain : ℕ → List Addr) : Prop :=
  Table (cell map) map.bucketCount (bucketOf map) (blocks map) chain

/-- **The table a memory holds**: the entries of each chain, in order. -/
def tableOf (map : HashMap V) (chain : ℕ → List Addr) : LruInC.HashMap V :=
  ⟨map.bucketCount, map.pos, Vector.ofFn fun i => (chain i).filterMap (entryAt map)⟩

section Memory

variable {map : HashMap V} {chain : ℕ → List Addr}

/-- The chains of the table. -/
theorem chainAt_tableOf (i : Fin map.bucketCount) :
    chainAt (tableOf map chain) i = (chain i).filterMap (entryAt map) := by
  show (Vector.ofFn fun i : Fin map.bucketCount => (chain i).filterMap (entryAt map))[(i : ℕ)] = _
  rw [Vector.getElem_ofFn]

/-- Tables with the same chains are the same. -/
theorem eq_of_chainAt {n : ℕ} {hn : 0 < n}
    {xs ys : Vector (List (LruInC.HashMapEntry V)) n}
    (h : ∀ i, chainAt ⟨n, hn, xs⟩ i = chainAt ⟨n, hn, ys⟩ i) :
    (⟨n, hn, xs⟩ : LruInC.HashMap V) = ⟨n, hn, ys⟩ := by
  congr 1
  exact Vector.ext fun i hi => h ⟨i, hi⟩

/-- An entry of a chain is there. -/
theorem InChains.exists_read (h : InChains map chain) {b : ℕ} (hb : b < map.bucketCount)
    {a : Addr} (ha : a ∈ chain b) : ∃ x, map.heap.read a = some x :=
  Option.isSome_iff_exists.mp ((h.mem_iff b hb a).mp ha).1

/-- No chain is longer than the heap. -/
theorem InChains.length_le (h : InChains map chain) {b : ℕ} (hb : b < map.bucketCount) :
    (chain b).length ≤ map.heap.bound := by
  refine Chains.length_le_of_lt (h.nodup b hb) fun a ha => ?_
  obtain ⟨x, hx⟩ := h.exists_read hb ha
  by_contra hlt
  have hnone := map.heap.fresh a (Nat.not_lt.mp hlt)
  rw [Heap.read, hnone] at hx
  cases hx

/-- A new map has no entries. -/
theorem inChains_create {okMap okBuckets : Bool} {n : ℕ}
    (h : hashMapCreate okMap okBuckets n = some map) :
    InChains map (fun _ => []) ∧
      LruInC.hashMapCreate okMap okBuckets n = some (tableOf map fun _ => []) := by
  unfold hashMapCreate at h
  split_ifs at h with hn hs
  obtain rfl := Option.some.inj h
  have hblocks : blocks (⟨n, hn, Vector.replicate n none, .empty⟩ : HashMap V) = ∅ := by
    ext a
    simp [blocks, Heap.read, Heap.empty]
  refine ⟨?_, ?_⟩
  · rw [InChains, hblocks]
    refine .empty (fun b hb => ?_) _
    show (Vector.replicate n none)[b]? = some none
    rw [Vector.getElem?_eq_getElem hb, Vector.getElem_replicate]
  · rw [LruInC.hashMapCreate, dif_pos hn, if_pos hs]
    refine congrArg some (eq_of_chainAt fun i => ?_)
    show (Vector.replicate n [])[(i : ℕ)] = (Vector.ofFn fun _ => [])[(i : ℕ)]
    rw [Vector.getElem_replicate, Vector.getElem_ofFn]

end Memory

/-! ## Writing a cell -/

section Writes

variable {map : HashMap V} {chain : ℕ → List Addr}

/-- A cell that is there is written. -/
theorem writeCell_of_isSome {c : Cell Addr} (h : (cell map c).isSome) (p : Option Addr) :
    writeCell map p c = some (setCell map p c) := if_pos h

theorem bucketCount_setCell (p : Option Addr) (c : Cell Addr) :
    (setCell map p c).bucketCount = map.bucketCount := by
  cases c <;> rfl

/-- What the cells hold afterwards. -/
theorem cell_setCell {c : Cell Addr} (h : (cell map c).isSome) (p : Option Addr)
    (c' : Cell Addr) : cell (setCell map p c) c' = if c' = c then some p else cell map c' := by
  cases c with
  | bucket b =>
    cases c' with
    | next a' =>
      rw [if_neg (by simp)]
      rfl
    | bucket b' =>
      show (map.buckets.setIfInBounds b p)[b']? = _
      have hb : b < map.bucketCount := by
        by_contra hb
        rw [cell, Vector.getElem?_eq_none (Nat.not_lt.mp hb)] at h
        exact absurd h (by simp)
      rw [Vector.getElem?_setIfInBounds, if_pos hb]
      simp only [Cell.bucket.injEq, eq_comm (a := b)]
      rfl
  | next a =>
    cases c' with
    | bucket b' =>
      rw [if_neg (by simp)]
      rfl
    | next a' =>
      show ((map.heap.mapAt a _).read a').map _ = _
      rw [Heap.read_mapAt]
      by_cases ha : a' = a
      · rw [cell, Option.isSome_map] at h
        rw [if_pos ha, ha, if_pos rfl, Option.eq_some_of_isSome h]
        rfl
      · rw [if_neg ha, if_neg (fun he => ha (Cell.next.inj he))]
        rfl

/-- Writing a pointer changes no key and no value. -/
theorem entryAt_setCell (p : Option Addr) (c : Cell Addr) :
    entryAt (setCell map p c) = entryAt map := by
  cases c with
  | bucket b => rfl
  | next a =>
    funext a'
    show ((map.heap.mapAt a _).read a').map _ = _
    rw [Heap.read_mapAt, entryAt]
    split_ifs
    · rw [Option.map_map]
      rfl
    · rfl

end Writes

/-! ## The walks along a chain -/

section Walks

variable {map : HashMap V} {chain : ℕ → List Addr}

/-- An entry with a cell is there and points on. -/
theorem read_of_cell {a : Addr} {p : Option Addr} (h : cell map (.next a) = some p) :
    ∃ x, map.heap.read a = some x ∧ x.next = p :=
  Option.map_eq_some_iff.mp h

/-- What is said of an entry that is there. -/
theorem entryAt_of_read {a : Addr} {x : HashMapEntry V} (h : map.heap.read a = some x) :
    entryAt map a = some ⟨x.key, x.value⟩ := by
  rw [entryAt, h, Option.map_some]

/-- And of its bucket. -/
theorem bucketOf_of_read {a : Addr} {x : HashMapEntry V} (h : map.heap.read a = some x) :
    bucketOf map a = (hashOf x.key).toNat % map.bucketCount := by
  rw [bucketOf, h, Option.elim_some, bucketFor]

/-- Its bucket is a matter of its key. -/
theorem bucketOf_congr {map' : HashMap V} (hcount : map'.bucketCount = map.bucketCount) {a : Addr}
    (h : entryAt map' a = entryAt map a) : bucketOf map' a = bucketOf map a := by
  have hbucket : ∀ m : HashMap V, bucketOf m a
      = (entryAt m a).elim 0 fun e => (hashOf e.key).toNat % m.bucketCount := by
    intro m
    rw [bucketOf, entryAt]
    cases m.heap.read a <;> rfl
  rw [hbucket, hbucket, h, hcount]

/-- **The walk of `hash_map_find`** stops at the first entry with the key. -/
theorem findFrom_spec {c : Cell Addr} {xs : List Addr} (h : Chain (cell map) c xs)
    (key : HashMapKey) {passes : ℕ} (hp : xs.length < passes) :
    findFrom map key passes xs.head? = some (findIn key (xs.filterMap (entryAt map))) := by
  induction xs generalizing c passes with
  | nil =>
    obtain ⟨passes, rfl⟩ := Nat.exists_eq_succ_of_ne_zero (Nat.ne_of_gt hp)
    rfl
  | cons a xs ih =>
    obtain ⟨passes, rfl⟩ := Nat.exists_eq_succ_of_ne_zero (Nat.ne_of_gt (Nat.zero_lt_of_lt hp))
    obtain ⟨x, hx, hnext⟩ := read_of_cell h.2.read_head
    rw [List.filterMap_cons_some (entryAt_of_read hx), findIn]
    simp only [List.head?_cons, findFrom, hx, Option.bind_eq_bind, Option.bind_some]
    by_cases he : x.key = key
    · rw [if_pos he, if_pos he]
      rfl
    · rw [if_neg he, if_neg he, hnext]
      exact ih h.2 (Nat.lt_of_succ_lt_succ hp)

/-- **`hash_map_find`** is the one of the table. -/
theorem hashMapFind_eq (h : InChains map chain) (key : HashMapKey) (value : V) :
    hashMapFind map key value
      = some ((LruInC.hashMapFind (tableOf map chain) key).isSome,
          (LruInC.hashMapFind (tableOf map chain) key).getD value) := by
  have hlt : (bucketFor map key : ℕ) < map.bucketCount := (bucketFor map key).isLt
  have hchain := h.chained _ hlt
  have hfind := findFrom_spec hchain key (Nat.lt_succ_of_le (h.length_le hlt))
  have htable : LruInC.hashMapFind (tableOf map chain) key
      = findIn key ((chain (bucketFor map key)).filterMap (entryAt map)) := by
    rw [LruInC.hashMapFind, chainFor]
    exact congrArg (findIn key) (chainAt_tableOf (bucketFor map key))
  rw [hashMapFind, hchain.read_head, htable, Option.bind_eq_bind, Option.bind_some, hfind]
  cases findIn key ((chain (bucketFor map key)).filterMap (entryAt map)) <;> rfl

/-- **The walk of `hash_map_remove`** stops at a null pointer where the key is
in no entry, and otherwise at the cell that points at the first entry that has
it: what came before stays, and what comes after. -/
theorem seek_spec {c : Cell Addr} {xs : List Addr} (h : Chain (cell map) c xs)
    (key : HashMapKey) {passes : ℕ} (hp : xs.length < passes) :
    (unlinkIn key (xs.filterMap (entryAt map)) = none ∧
        ∃ c', seek map key passes c = some c' ∧ cell map c' = some none) ∨
      ∃ l a r x, xs = l ++ a :: r ∧ map.heap.read a = some x ∧ x.key = key ∧
        seek map key passes c = some (cellAfter c l) ∧
        unlinkIn key (xs.filterMap (entryAt map))
          = some ((l ++ r).filterMap (entryAt map)) := by
  induction xs generalizing c passes with
  | nil =>
    obtain ⟨passes, rfl⟩ := Nat.exists_eq_succ_of_ne_zero (Nat.ne_of_gt hp)
    exact .inl ⟨rfl, c, by rw [seek, h.read_head]; rfl, h⟩
  | cons a xs ih =>
    obtain ⟨passes, rfl⟩ := Nat.exists_eq_succ_of_ne_zero (Nat.ne_of_gt (Nat.zero_lt_of_lt hp))
    obtain ⟨x, hx, -⟩ := read_of_cell h.2.read_head
    have hentry := entryAt_of_read hx
    rw [List.filterMap_cons_some hentry, unlinkIn]
    have hseek : seek map key (passes + 1) c
        = if x.key ≠ key then seek map key passes (.next a) else some c := by
      rw [seek, h.1]
      simp only [Option.bind_eq_bind, Option.bind_some, hx]
      rfl
    by_cases he : x.key = key
    · rw [hseek, if_neg (not_not.mpr he), if_pos he]
      exact .inr ⟨[], a, xs, x, rfl, hx, he, rfl, rfl⟩
    · rw [hseek, if_pos he, if_neg he]
      rcases ih h.2 (Nat.lt_of_succ_lt_succ hp) with
        ⟨hnone, hc⟩ | ⟨l, b, r, y, rfl, hy, hk, hs, hu⟩
      · exact .inl ⟨by rw [hnone]; rfl, hc⟩
      · refine .inr ⟨a :: l, b, r, y, rfl, hy, hk, hs, ?_⟩
        rw [hu, List.cons_append, List.filterMap_cons_some hentry]
        rfl

end Walks

/-! ## Each operation is the one of the table -/

section Operations

variable {map : HashMap V} {chain : ℕ → List Addr}

/-- A table whose memory was written: one chain is another, and the entries of
the others say what they said. -/
theorem tableOf_update {map' : HashMap V} (hcount : map'.bucketCount = map.bucketCount)
    {key : HashMapKey} {xs : List Addr}
    (h : ∀ b < map.bucketCount, b ≠ bucketFor map key → ∀ a ∈ chain b,
      entryAt map' a = entryAt map a) :
    tableOf map' (Function.update chain (bucketFor map key) xs)
      = setChain (tableOf map chain) key (xs.filterMap (entryAt map')) := by
  obtain ⟨n, hn, buckets, heap⟩ := map'
  obtain rfl : n = map.bucketCount := hcount
  refine @eq_of_chainAt V map.bucketCount map.pos _ _ fun i => ?_
  show (Vector.ofFn fun i : Fin map.bucketCount => _)[(i : ℕ)]
    = ((Vector.ofFn fun i : Fin map.bucketCount => _).set (bucketFor map key) _)[(i : ℕ)]
  rw [Vector.getElem_ofFn, Vector.getElem_set, Vector.getElem_ofFn]
  by_cases hi : (bucketFor map key : ℕ) = i
  · rw [if_pos hi, ← hi, Function.update_self]
  · rw [if_neg hi, Function.update_of_ne (Ne.symm hi)]
    exact List.filterMap_congr (h i i.isLt (Ne.symm hi))

/-- A memory with one more entry, in no chain yet. -/
def withEntry (map : HashMap V) (key : HashMapKey) (value : V) (first : Option Addr) : HashMap V :=
  { map with heap := (map.heap.alloc ⟨key, value, first⟩).2 }

/-- The memory `hash_map_insert` leaves. -/
def pushEntry (map : HashMap V) (key : HashMapKey) (value : V) (bucket : ℕ)
    (first : Option Addr) : HashMap V :=
  setCell (withEntry map key value first) (some map.heap.bound) (.bucket bucket)

theorem bucketCount_pushEntry (key : HashMapKey) (value : V) (b : ℕ) (first : Option Addr) :
    (pushEntry map key value b first).bucketCount = map.bucketCount :=
  bucketCount_setCell ..

theorem linkEntry_eq {b : ℕ} {first : Option Addr} (h : cell map (.bucket b) = some first)
    (key : HashMapKey) (value : V) :
    linkEntry map key value b = some (pushEntry map key value b first) := by
  have hcell : (cell (withEntry map key value first) (.bucket b)).isSome :=
    Option.isSome_of_eq_some h
  rw [linkEntry, h]
  exact writeCell_of_isSome hcell _

/-- What the heap reads as with a new entry. -/
theorem read_pushEntry (key : HashMapKey) (value : V) (b : ℕ) (first : Option Addr) (a : Addr) :
    (pushEntry map key value b first).heap.read a
      = if a = map.heap.bound then some ⟨key, value, first⟩ else map.heap.read a :=
  Heap.read_alloc map.heap _ a

/-- And what the cells hold. -/
theorem cell_pushEntry {b : ℕ} {first : Option Addr} (h : cell map (.bucket b) = some first)
    (key : HashMapKey) (value : V) (c : Cell Addr) :
    cell (pushEntry map key value b first) c
      = if c = .bucket b then some (some map.heap.bound)
        else if c = .next map.heap.bound then some first else cell map c := by
  have hcell : (cell (withEntry map key value first) (.bucket b)).isSome :=
    Option.isSome_of_eq_some h
  rw [pushEntry, cell_setCell hcell]
  refine if_congr Iff.rfl rfl ?_
  cases c with
  | bucket b =>
    rw [if_neg (by simp)]
    rfl
  | next a =>
    show ((map.heap.alloc ⟨key, value, first⟩).2.read a).map _ = _
    rw [Heap.read_alloc]
    by_cases ha : a = map.heap.bound
    · rw [if_pos ha, if_pos (congrArg Cell.next ha)]
      rfl
    · rw [if_neg ha, if_neg fun he => ha (Cell.next.inj he)]
      rfl

/-- **A new entry is in the chains**, in front of that of its key. -/
theorem InChains.pushEntry (h : InChains map chain) {key : HashMapKey} {first : Option Addr}
    (hfirst : cell map (.bucket (bucketFor map key)) = some first) (value : V) :
    InChains (pushEntry map key value (bucketFor map key) first)
      (Function.update chain (bucketFor map key)
        (map.heap.bound :: chain (bucketFor map key))) := by
  set m' := Pointers.pushEntry map key value (bucketFor map key) first with hm'
  have hcells := cell_pushEntry hfirst key value
  have hread : ∀ a, m'.heap.read a = _ := read_pushEntry key value _ first
  rw [← hm'] at hcells
  have hcount : m'.bucketCount = map.bucketCount := bucketCount_pushEntry ..
  have hbucket : bucketOf m' map.heap.bound = bucketFor map key := by
    rw [bucketOf_of_read ((hread map.heap.bound).trans (if_pos rfl)), hcount, bucketFor]
  have hold : ∀ a ∈ blocks map, a ≠ map.heap.bound := by
    rintro a ha rfl
    exact absurd ha (by simp [blocks])
  have hblocks : blocks m' = insert map.heap.bound (blocks map) := by
    ext a
    simp only [blocks, Set.mem_insert_iff, Set.mem_ofPred_eq, hread]
    split_ifs with ha <;> simp [ha]
  have hinsert : Table (cell m') map.bucketCount (bucketOf m') (insert map.heap.bound (blocks map))
      (Function.update chain (bucketOf m' map.heap.bound)
        (map.heap.bound :: chain (bucketOf m' map.heap.bound))) := by
    refine h.insert (fun hx => hold _ hx rfl) (by rw [hbucket]; exact (bucketFor map key).isLt)
      (fun a ha => ?_) ?_ ?_ fun c hc hn => ?_
    · exact bucketOf_congr hcount (by rw [entryAt, hread, if_neg (hold a ha), entryAt])
    · rw [hbucket, hcells, if_pos rfl]
    · rw [hcells, if_neg (by simp), if_pos rfl, hbucket, hfirst]
    · rw [hbucket] at hc
      rw [hcells, if_neg hc, if_neg hn]
  rw [hbucket] at hinsert
  rw [InChains, hblocks, hcount]
  exact hinsert

/-- **And in the table.** -/
theorem tableOf_pushEntry (h : InChains map chain) (key : HashMapKey) (value : V)
    (b : ℕ) (first : Option Addr) :
    tableOf (pushEntry map key value b first)
        (Function.update chain (bucketFor map key) (map.heap.bound :: chain (bucketFor map key)))
      = setChain (tableOf map chain) key
          (⟨key, value⟩ :: chainFor (tableOf map chain) key) := by
  set m' := pushEntry map key value b first
  have hread : ∀ a, m'.heap.read a = _ := read_pushEntry key value b first
  have hentry : ∀ b < map.bucketCount, ∀ a ∈ chain b, entryAt m' a = entryAt map a := by
    intro b hb a ha
    obtain ⟨x, hx⟩ := h.exists_read hb ha
    rw [entryAt, hread, if_neg (Heap.ne_bound_of_read hx), entryAt]
  have hcount : m'.bucketCount = map.bucketCount := bucketCount_pushEntry ..
  rw [tableOf_update hcount fun b hb _ => hentry b hb,
    List.filterMap_cons_some (entryAt_of_read ((hread map.heap.bound).trans (if_pos rfl)))]
  refine congrArg (fun es => setChain (tableOf map chain) key (⟨key, value⟩ :: es)) ?_
  exact (List.filterMap_congr (hentry _ (bucketFor map key).isLt)).trans
    (chainAt_tableOf (bucketFor map key)).symm

/-- **`hash_map_insert`** -/
theorem hashMapInsert_eq (h : InChains map chain) (ok : Bool) (key : HashMapKey) (value : V) :
    ∃ map' chain',
      hashMapInsert ok map key value
          = some ((LruInC.hashMapInsert ok (tableOf map chain) key value).1, map') ∧
        InChains map' chain' ∧
        tableOf map' chain' = (LruInC.hashMapInsert ok (tableOf map chain) key value).2 := by
  rw [LruInC.hashMapInsert, hashMapInsert, hashMapFind_eq h, Option.bind_eq_bind, Option.bind_some]
  by_cases hfound : (LruInC.hashMapFind (tableOf map chain) key).isSome
  · simp only [if_pos hfound]
    exact ⟨map, chain, rfl, h, rfl⟩
  simp only [if_neg hfound]
  cases ok with
  | false => exact ⟨map, chain, rfl, h, rfl⟩
  | true =>
    have hhead := (h.chained _ (bucketFor map key).isLt).read_head
    simp only [linkEntry_eq hhead key value]
    exact ⟨_, _, rfl, h.pushEntry hhead value, tableOf_pushEntry h key value _ _⟩

/-- The memory `hash_map_remove` leaves: a cell points past an entry, and the
entry is freed. -/
def dropEntry (map : HashMap V) (link : Cell Addr) (next : Option Addr) (entry : Addr) :
    HashMap V :=
  { setCell map next link with heap := (setCell map next link).heap.erase entry }

theorem bucketCount_dropEntry (link : Cell Addr) (next : Option Addr) (entry : Addr) :
    (dropEntry map link next entry).bucketCount = map.bucketCount :=
  bucketCount_setCell ..

theorem unlinkEntry_eq {link : Cell Addr} {a : Addr} {x : HashMapEntry V}
    (hx : map.heap.read a = some x) (hlink : (cell map link).isSome) :
    unlinkEntry map link a = some (dropEntry map link x.next a) := by
  have hread : ((setCell map x.next link).heap.read a).isSome := by
    have hentry : entryAt (setCell map x.next link) a = entryAt map a :=
      congrFun (entryAt_setCell ..) a
    rw [← Option.isSome_map (f := fun y : HashMapEntry V => LruInC.HashMapEntry.mk y.key y.value)]
    show (entryAt (setCell map x.next link) a).isSome
    rw [hentry, entryAt_of_read hx]
    rfl
  rw [unlinkEntry, hx, Option.bind_eq_bind, Option.bind_some, writeCell_of_isSome hlink,
    Option.bind_eq_bind, Option.bind_some, Heap.free_of_isSome hread]
  rfl

/-- The other entries are as they were. -/
theorem entryAt_dropEntry (link : Cell Addr) (next : Option Addr) (entry a : Addr) :
    entryAt (dropEntry map link next entry) a = if a = entry then none else entryAt map a := by
  show (((setCell map next link).heap.erase entry).read a).map _ = _
  rw [Heap.read_erase]
  split_ifs
  · rfl
  · exact congrFun (entryAt_setCell next link) a

/-- The entries there are. -/
theorem mem_blocks {a : Addr} : a ∈ blocks map ↔ (entryAt map a).isSome := by
  rw [entryAt, Option.isSome_map]
  exact Iff.rfl

/-- And what the cells hold. -/
theorem cell_dropEntry {link : Cell Addr} (h : (cell map link).isSome) (next : Option Addr)
    {entry : Addr} {c : Cell Addr} (hc : c ≠ .next entry) :
    cell (dropEntry map link next entry) c = if c = link then some next else cell map c := by
  rw [← cell_setCell h]
  cases c with
  | bucket b => rfl
  | next a =>
    show (((setCell map next link).heap.erase entry).read a).map _ = _
    rw [Heap.read_erase, if_neg fun he => hc (congrArg Cell.next he)]
    rfl

/-- **An entry taken out of its chain** is in no chain, and the rest is. -/
theorem InChains.dropEntry (h : InChains map chain) {a : Addr} {x : HashMapEntry V}
    {l r : List Addr} (hx : map.heap.read a = some x)
    (hchain : chain (bucketFor map x.key) = l ++ a :: r) :
    InChains (dropEntry map (cellAfter (.bucket (bucketFor map x.key)) l) x.next a)
      (Function.update chain (bucketFor map x.key) (l ++ r)) := by
  set link := cellAfter (.bucket (bucketFor map x.key)) l with hlink
  set m' := Pointers.dropEntry map link x.next a with hm'
  have hbucket : bucketOf map a = bucketFor map x.key := by
    rw [bucketOf_of_read hx, bucketFor]
  have hchained := h.chained _ (bucketFor map x.key).isLt
  have hnodup := h.nodup _ (bucketFor map x.key).isLt
  rw [hchain] at hchained hnodup
  have hcells : ∀ c, c ≠ .next a → cell m' c = if c = link then some x.next else cell map c :=
    fun c hc => cell_dropEntry hchained.isSome_cellAfter _ hc
  have hcount : m'.bucketCount = map.bucketCount := bucketCount_dropEntry ..
  have hentry : ∀ a', entryAt m' a' = if a' = a then none else entryAt map a' :=
    entryAt_dropEntry link x.next a
  have hblocks : blocks m' = blocks map \ {a} := by
    ext a'
    rw [mem_blocks, hentry, Set.mem_sdiff, Set.mem_singleton_iff, mem_blocks]
    split_ifs with ha <;> simp [ha]
  have hne : link ≠ .next a :=
    Chains.cellAfter_ne (by simp) hnodup a List.mem_cons_self
  have hremove : Table (cell m') map.bucketCount (bucketOf map) (blocks map \ {a})
      (Function.update chain (bucketOf map a) (l ++ r)) := by
    refine h.remove (by rw [hbucket]; exact (bucketFor map x.key).isLt) (by rwa [hbucket]) ?_
      fun c hc hn => ?_
    · rw [hbucket, ← hlink, hcells _ hne, if_pos rfl, cell, hx, Option.map_some]
    · rw [hbucket, ← hlink] at hc
      rw [hcells c hn, if_neg hc]
  rw [hbucket] at hremove
  rw [InChains, hblocks, hcount]
  refine hremove.congr rfl fun a' ha' => bucketOf_congr hcount ?_
  rw [hentry, if_neg fun he : a' = a => ha'.2 he]

/-- **The table without it.** -/
theorem tableOf_dropEntry (h : InChains map chain) {a : Addr} {x : HashMapEntry V}
    {l r : List Addr} (hx : map.heap.read a = some x)
    (hchain : chain (bucketFor map x.key) = l ++ a :: r) (link : Cell Addr) (next : Option Addr) :
    tableOf (dropEntry map link next a) (Function.update chain (bucketFor map x.key) (l ++ r))
      = setChain (tableOf map chain) x.key ((l ++ r).filterMap (entryAt map)) := by
  have hentry : ∀ a', entryAt (dropEntry map link next a) a'
      = if a' = a then none else entryAt map a' := entryAt_dropEntry link next a
  have hcount : (dropEntry map link next a).bucketCount = map.bucketCount :=
    bucketCount_dropEntry ..
  have hnodup := h.nodup _ (bucketFor map x.key).isLt
  have hmem : a ∈ chain (bucketFor map x.key) := by simp [hchain]
  rw [hchain] at hnodup
  rw [tableOf_update hcount fun b hb hne a' ha' => ?_]
  · refine congrArg _ (List.filterMap_congr fun a' ha' => ?_)
    rw [hentry, if_neg]
    rintro rfl
    exact (List.nodup_cons.mp (List.perm_middle.nodup_iff.mp hnodup)).1 ha'
  · rw [hentry, if_neg (h.ne_of_mem (bucketFor map x.key).isLt hb hne hmem ha')]

/-- **`hash_map_remove`** -/
theorem hashMapRemove_eq (h : InChains map chain) (key : HashMapKey) :
    ∃ map' chain',
      hashMapRemove map key = some ((LruInC.hashMapRemove (tableOf map chain) key).1, map') ∧
        InChains map' chain' ∧
        tableOf map' chain' = (LruInC.hashMapRemove (tableOf map chain) key).2 := by
  have hlt : (bucketFor map key : ℕ) < map.bucketCount := (bucketFor map key).isLt
  have hchain := h.chained _ hlt
  have htable : chainFor (tableOf map chain) key
      = (chain (bucketFor map key)).filterMap (entryAt map) := chainAt_tableOf (bucketFor map key)
  rw [LruInC.hashMapRemove, htable, hashMapRemove]
  rcases seek_spec hchain key (Nat.lt_succ_of_le (h.length_le hlt)) with
    ⟨hnone, link, hseek, hnull⟩ | ⟨l, a, r, x, hsplit, hx, rfl, hseek, hsome⟩
  · rw [hnone, hseek]
    exact ⟨map, chain, by simp [hnull], h, rfl⟩
  · rw [hsome, hseek]
    refine ⟨_, _, ?_, h.dropEntry hx hsplit, tableOf_dropEntry h hx hsplit _ _⟩
    rw [hsplit] at hchain
    have hunlink := unlinkEntry_eq hx hchain.isSome_cellAfter
    rw [Option.bind_eq_bind, Option.bind_some, hchain.drop.1, Option.bind_eq_bind,
      Option.bind_some]
    simp only [hunlink]
    rfl

end Operations

/-! ## Runs -/

/-- **A call of a user.** Whether the allocation of an insertion succeeds is
part of it, and so is what `*value` was before `hash_map_find`. -/
inductive Call (V : Type)
  | insert (key : HashMapKey) (value : V) (ok : Bool)
  | find (key : HashMapKey) (value : V)
  | remove (key : HashMapKey)

/-- What a call gives; that of `hash_map_find` with what `*value` is then. -/
inductive Answer (V : Type)
  | insert (result : HashMapResult)
  | find (found : Bool) (value : V)
  | remove (removed : Bool)
  deriving DecidableEq

/-- A call. -/
def call (map : HashMap V) : Call V → Option (Answer V × HashMap V)
  | .insert key value ok => do
    let (result, map) ← hashMapInsert ok map key value
    return (.insert result, map)
  | .find key value => do
    let (found, value) ← hashMapFind map key value
    return (.find found value, map)
  | .remove key => do
    let (removed, map) ← hashMapRemove map key
    return (.remove removed, map)

/-- Calls, one after another. -/
def run (map : HashMap V) : List (Call V) → Option (List (Answer V) × HashMap V)
  | [] => some ([], map)
  | c :: calls => do
    let (answer, map) ← call map c
    let (answers, map) ← run map calls
    return (answer :: answers, map)

/-- **What a call is of a finite map.** -/
def specCall (m : HashMapKey → Option V) : Call V → Answer V × (HashMapKey → Option V)
  | .insert key value ok =>
    if (m key).isSome then (.insert .duplicate, m)
    else if ok then (.insert .inserted, Function.update m key (some value))
    else (.insert .noMemory, m)
  | .find key value => (.find (m key).isSome ((m key).getD value), m)
  | .remove key => (.remove (m key).isSome, Function.update m key none)

/-- Calls of a finite map. -/
def specRun (m : HashMapKey → Option V) :
    List (Call V) → List (Answer V) × (HashMapKey → Option V)
  | [] => ([], m)
  | c :: calls =>
    let (answer, m) := specCall m c
    let (answers, m) := specRun m calls
    (answer :: answers, m)

/-- **Every entry is in the chain of its bucket**, which ends in a null pointer
and has no entry twice, and no two entries have one key. -/
structure Placed (map : HashMap V) : Prop where
  chains : ∀ b < map.bucketCount, ∃ xs, Chain (cell map) (.bucket b) xs ∧ xs.Nodup ∧
    ∀ a, a ∈ xs ↔ ∃ x, map.heap.read a = some x ∧ (bucketFor map x.key : ℕ) = b
  keys : ∀ a a' x x', map.heap.read a = some x → map.heap.read a' = some x' →
    x.key = x'.key → a = a'

/-- **The invariant**: the chains make a well-formed table that finds what a
finite map has. -/
def Holds (map : HashMap V) (m : HashMapKey → Option V) : Prop :=
  ∃ chain, InChains map chain ∧ (tableOf map chain).WF ∧
    ∀ key, LruInC.hashMapFind (tableOf map chain) key = m key

section Runs

variable {map : HashMap V} {m : HashMapKey → Option V}

/-- A new map is empty. -/
theorem holds_create {okMap okBuckets : Bool} {n : ℕ}
    (h : hashMapCreate okMap okBuckets n = some map) : Holds map fun _ => none := by
  obtain ⟨hchains, hcreate⟩ := inChains_create h
  exact ⟨_, hchains, hashMapCreate_spec hcreate⟩

/-- `hash_map_find` finds what the finite map has. -/
theorem Holds.find (h : Holds map m) (key : HashMapKey) (value : V) :
    hashMapFind map key value = some ((m key).isSome, (m key).getD value) := by
  obtain ⟨chain, hchains, -, hfind⟩ := h
  rw [hashMapFind_eq hchains, hfind]

/-- **A call** does to the memory what it does to the finite map. -/
theorem Holds.call (h : Holds map m) (c : Call V) :
    ∃ map', call map c = some ((specCall m c).1, map') ∧ Holds map' (specCall m c).2 := by
  cases c with
  | find key value =>
    refine ⟨map, ?_, h⟩
    rw [Pointers.call, h.find]
    rfl
  | insert key value ok =>
    obtain ⟨chain, hchains, hwf, hfind⟩ := h
    obtain ⟨map', chain', hrun, hchains', htable⟩ := hashMapInsert_eq hchains ok key value
    rw [Pointers.call, hrun, specCall]
    by_cases hkey : (m key).isSome
    · have hres : LruInC.hashMapInsert ok (tableOf map chain) key value
          = (.duplicate, tableOf map chain) := by
        rw [LruInC.hashMapInsert, hfind, if_pos hkey]
      rw [hres] at htable ⊢
      rw [if_pos hkey]
      exact ⟨map', rfl, chain', hchains', by rwa [htable], by rwa [htable]⟩
    rw [if_neg hkey]
    have hnone := (hfind key).trans (Option.not_isSome_iff_eq_none.mp hkey)
    cases ok with
    | false =>
      rw [hashMapInsert_fail hnone value] at htable ⊢
      exact ⟨map', rfl, chain', hchains', by rwa [htable], by rwa [htable]⟩
    | true =>
      obtain ⟨t, hinsert, hwf', hfind'⟩ := hashMapInsert_spec hwf hnone value
      rw [hinsert] at htable ⊢
      refine ⟨map', rfl, chain', hchains', by rwa [htable], fun k => ?_⟩
      rw [htable]
      show LruInC.hashMapFind t k = Function.update m key (some value) k
      rw [hfind' k, hfind k, Function.update_apply]
  | remove key =>
    obtain ⟨chain, hchains, hwf, hfind⟩ := h
    obtain ⟨map', chain', hrun, hchains', htable⟩ := hashMapRemove_eq hchains key
    obtain ⟨hres, hwf', hfind'⟩ := hashMapRemove_spec hwf key
    rw [Pointers.call, hrun, specCall, hres, hfind]
    refine ⟨map', rfl, chain', hchains', by rwa [htable], fun k => ?_⟩
    show LruInC.hashMapFind (tableOf map' chain') k = Function.update m key none k
    rw [htable, hfind' k, hfind k, Function.update_apply]

/-- **And so do the calls of a run.** -/
theorem Holds.run (h : Holds map m) (calls : List (Call V)) :
    ∃ map', run map calls = some ((specRun m calls).1, map') ∧
      Holds map' (specRun m calls).2 := by
  induction calls generalizing map m with
  | nil => exact ⟨map, rfl, h⟩
  | cons c calls ih =>
    obtain ⟨map₁, hcall, h₁⟩ := h.call c
    obtain ⟨map', hrun, h'⟩ := ih h₁
    refine ⟨map', ?_, h'⟩
    rw [Pointers.run, hcall, Option.bind_eq_bind, Option.bind_some]
    simp only [hrun]
    rfl

/-- Where the keys along a chain differ, an entry is known by its key. -/
theorem eq_of_key {xs : List Addr}
    (h : ((xs.filterMap (entryAt map)).map LruInC.HashMapEntry.key).Nodup) {a a' : Addr}
    (ha : a ∈ xs) (ha' : a' ∈ xs) {e e' : LruInC.HashMapEntry V} (he : entryAt map a = some e)
    (he' : entryAt map a' = some e') (hkey : e.key = e'.key) : a = a' := by
  rw [List.Nodup, List.pairwise_map, List.pairwise_filterMap] at h
  have hsymm : Std.Symm fun a a' => ∀ e, entryAt map a = some e →
      ∀ e', entryAt map a' = some e' → e.key ≠ e'.key :=
    ⟨fun _ _ h e he e' he' => (h e' he' e he).symm⟩
  by_contra hne
  exact h.forall ha ha' hne e he e' he' hkey

/-- **The entries are where they belong.** -/
theorem Holds.placed (h : Holds map m) : Placed map := by
  obtain ⟨chain, hchains, hwf, -⟩ := h
  have hmem : ∀ b < map.bucketCount, ∀ a,
      a ∈ chain b ↔ ∃ x, map.heap.read a = some x ∧ (bucketFor map x.key : ℕ) = b := by
    intro b hb a
    rw [hchains.mem_iff b hb a]
    constructor
    · rintro ⟨ha, hbucket⟩
      obtain ⟨x, hx⟩ := Option.isSome_iff_exists.mp ha
      rw [bucketOf_of_read hx] at hbucket
      exact ⟨x, hx, hbucket⟩
    · rintro ⟨x, hx, hbucket⟩
      exact ⟨Option.isSome_of_eq_some hx, (bucketOf_of_read hx).trans hbucket⟩
  refine ⟨fun b hb => ⟨chain b, hchains.chained b hb, hchains.nodup b hb, hmem b hb⟩,
    fun a a' x x' hx hx' hkey => ?_⟩
  have hlt := (bucketFor map x.key).isLt
  have ha := (hmem _ hlt a).mpr ⟨x, hx, rfl⟩
  have ha' := (hmem _ hlt a').mpr ⟨x', hx', by rw [hkey]⟩
  have hnodup := hwf.nodup (bucketFor map x.key)
  rw [chainAt_tableOf] at hnodup
  exact eq_of_key hnodup ha ha' (entryAt_of_read hx) (entryAt_of_read hx') hkey

end Runs

/-- **Main result: `hash_map` refines a finite map.** -/
theorem hashMap_refines {okMap okBuckets : Bool} {bucketCount : ℕ} {map : HashMap V}
    (h : hashMapCreate okMap okBuckets bucketCount = some map) (calls : List (Call V)) :
    ∃ map', run map calls = some ((specRun (fun _ => none) calls).1, map') ∧ Placed map' ∧
      ∀ key value, hashMapFind map' key value
        = some (((specRun (fun _ => none) calls).2 key).isSome,
            ((specRun (fun _ => none) calls).2 key).getD value) := by
  obtain ⟨map', hrun, hholds⟩ := (holds_create h).run calls
  exact ⟨map', hrun, hholds.placed, hholds.find⟩

/-- A map with one bucket, where all keys collide. -/
theorem hashMap_refines_oneBucket :
    ∃ map', run ⟨1, by decide, Vector.replicate 1 none, .empty⟩
        [.insert 3 'a' true, .insert 5 'b' true, .insert 3 'c' true, .remove 3, .find 3 'x',
          .find 5 'x', .insert 7 'd' false]
          = some ([.insert .inserted, .insert .inserted, .insert .duplicate, .remove true,
            .find false 'x', .find true 'b', .insert .noMemory], map') ∧ Placed map' := by
  have hcreate : hashMapCreate true true 1
      = some (⟨1, by decide, Vector.replicate 1 none, .empty⟩ : HashMap Char) := rfl
  obtain ⟨map', hrun, hplaced, -⟩ := hashMap_refines hcreate
    [.insert 3 'a' true, .insert 5 'b' true, .insert 3 'c' true, .remove 3, .find 3 'x',
      .find 5 'x', .insert 7 'd' false]
  exact ⟨map', hrun, hplaced⟩

end LruInC.Pointers
