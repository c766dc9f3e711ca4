import CppGraduate.Lib.Chains

/-!
# The memory of lru-in-c-datastructs

A cache is one object, the array of its buckets and a fixed pool of
entries. Every entry has a list link and a map entry embedded in it, and so
a pointer is a place in the cache: a `ListLink *` points at the sentinel or
at the link of an entry, an `IntMapEntry *` at the map entry of one, an
`IntMapEntry **` at a bucket or at a `next` field. The null pointer is
`none`, which is also what `calloc` leaves.

Reading or writing through a null pointer, or beyond either array, has no
result.
-/

namespace LruDatastructs

open Chains (Cell)

/-- A `ListLink *` that is not null. -/
inductive LinkPtr
  | sentinel
  | entry (i : ℕ)
  deriving DecidableEq

/-- `ListLink` -/
structure ListLink where
  prev : Option LinkPtr
  next : Option LinkPtr

/-- `IntMapEntry`; the value points at a cache entry. -/
structure IntMapEntry where
  key : Int64
  value : Option ℕ
  next : Option ℕ
  prevNext : Option (Cell ℕ)

/-- `CacheEntry` -/
structure CacheEntry where
  recency : ListLink
  mapping : IntMapEntry

/-- `IntMap` -/
structure IntMap where
  buckets : Array (Option ℕ)
  bucketCount : ℕ

/-- `struct LruCache`, with the arrays it points at. -/
structure LruCache where
  recency : ListLink
  index : IntMap
  entries : Array CacheEntry
  capacity : ℕ
  used : ℕ

/-- What `calloc` makes of an entry. -/
def CacheEntry.zero : CacheEntry := ⟨⟨none, none⟩, ⟨0, none, none, none⟩⟩

/-! ## Reading -/

namespace LruCache

/-- The link a pointer points at. -/
def link (s : LruCache) : LinkPtr → Option ListLink
  | .sentinel => some s.recency
  | .entry i => s.entries[i]?.map CacheEntry.recency

/-- The map entry a pointer points at. -/
def mapping (s : LruCache) (i : ℕ) : Option IntMapEntry := s.entries[i]?.map CacheEntry.mapping

/-- What is in a cell. -/
def cell (s : LruCache) : Cell ℕ → Option (Option ℕ)
  | .bucket b => s.index.buckets[b]?
  | .next i => (s.mapping i).map IntMapEntry.next

/-- The sizes of a cache, which no write through a pointer changes. -/
def sizes (s : LruCache) : ℕ × ℕ × ℕ × ℕ × ℕ :=
  (s.entries.size, s.index.buckets.size, s.index.bucketCount, s.capacity, s.used)

/-! ## Writing -/

/-- Rewrite a link, if it is there. -/
def mapLink (s : LruCache) (f : ListLink → ListLink) : LinkPtr → LruCache
  | .sentinel => { s with recency := f s.recency }
  | .entry i => { s with entries := s.entries.modify i fun e => { e with recency := f e.recency } }

/-- Rewrite a map entry, if it is there. -/
def mapMapping (s : LruCache) (f : IntMapEntry → IntMapEntry) (i : ℕ) : LruCache :=
  { s with entries := s.entries.modify i fun e => { e with mapping := f e.mapping } }

/-- Rewrite a cell, if it is there. -/
def setCell (s : LruCache) (p : Option ℕ) : Cell ℕ → LruCache
  | .bucket b => { s with index.buckets := s.index.buckets.modify b fun _ => p }
  | .next i => s.mapMapping (fun x => { x with next := p }) i

/-- Write a link through a pointer. -/
def modifyLink (s : LruCache) (a : LinkPtr) (f : ListLink → ListLink) : Option LruCache :=
  if (s.link a).isSome then some (s.mapLink f a) else none

/-- Write a map entry through a pointer. -/
def modifyMapping (s : LruCache) (i : ℕ) (f : IntMapEntry → IntMapEntry) : Option LruCache :=
  if (s.mapping i).isSome then some (s.mapMapping f i) else none

/-- Write a pointer through a pointer to it. -/
def writeCell (s : LruCache) (c : Cell ℕ) (p : Option ℕ) : Option LruCache :=
  if (s.cell c).isSome then some (s.setCell p c) else none

/-! ## What a write reads back -/

variable (s : LruCache) (f : ListLink → ListLink) (g : IntMapEntry → IntMapEntry) (a b : LinkPtr)
  (i j : ℕ) (p : Option ℕ) (c c' : Cell ℕ)

theorem link_mapLink :
    (s.mapLink f a).link b = if b = a then (s.link b).map f else s.link b := by
  cases a <;> cases b <;> simp only [mapLink, link, reduceCtorEq, if_true, if_false, Option.map_some]
  case entry.entry i j =>
    rw [Array.getElem?_modify, Option.map_map]
    by_cases hij : i = j
    · rw [if_pos hij, if_pos (by rw [hij]), Option.map_map]
      rfl
    · rw [if_neg hij, if_neg (by simpa using Ne.symm hij)]

@[simp] theorem mapping_mapLink : (s.mapLink f a).mapping i = s.mapping i := by
  cases a with
  | sentinel => rfl
  | entry j =>
    simp only [mapping, mapLink, Array.getElem?_modify]
    split_ifs
    · rw [Option.map_map]
      rfl
    · rfl

@[simp] theorem cell_mapLink : (s.mapLink f a).cell c = s.cell c := by
  cases c with
  | bucket b => cases a <;> rfl
  | next i => rw [cell, mapping_mapLink, cell]

@[simp] theorem sizes_mapLink : (s.mapLink f a).sizes = s.sizes := by
  cases a with
  | sentinel => rfl
  | entry i => simp only [sizes, mapLink, Array.size_modify]

@[simp] theorem isSome_link_mapLink :
    ((s.mapLink f a).link b).isSome = (s.link b).isSome := by
  rw [link_mapLink]
  split_ifs
  · rw [Option.isSome_map]
  · rfl

theorem mapping_mapMapping :
    (s.mapMapping g i).mapping j = if j = i then (s.mapping j).map g else s.mapping j := by
  simp only [mapping, mapMapping, Array.getElem?_modify]
  by_cases hij : i = j
  · rw [if_pos hij, if_pos hij.symm, Option.map_map, Option.map_map]
    rfl
  · rw [if_neg hij, if_neg (Ne.symm hij)]

@[simp] theorem link_mapMapping : (s.mapMapping g i).link b = s.link b := by
  cases b with
  | sentinel => rfl
  | entry j =>
    simp only [link, mapMapping, Array.getElem?_modify]
    split_ifs
    · rw [Option.map_map]
      rfl
    · rfl

@[simp] theorem sizes_mapMapping : (s.mapMapping g i).sizes = s.sizes := by
  simp only [sizes, mapMapping, Array.size_modify]

@[simp] theorem isSome_mapping_mapMapping :
    ((s.mapMapping g i).mapping j).isSome = (s.mapping j).isSome := by
  rw [mapping_mapMapping]
  split_ifs
  · rw [Option.isSome_map]
  · rfl

/-- A field of a map entry other than `next` has nothing to do with cells. -/
theorem cell_mapMapping (hg : ∀ x, (g x).next = x.next) : (s.mapMapping g i).cell c = s.cell c := by
  cases c with
  | bucket b => rfl
  | next j =>
    rw [cell, mapping_mapMapping, cell]
    split_ifs
    · rw [Option.map_map]
      exact congrArg (Option.map · _) (funext hg)
    · rfl

theorem cell_setCell :
    (s.setCell p c).cell c' = if c' = c then (s.cell c').map fun _ => p else s.cell c' := by
  cases c <;> cases c' <;>
    simp only [setCell, cell, mapMapping, mapping, reduceCtorEq, if_false, Array.getElem?_modify]
  case bucket.bucket b b' =>
    by_cases hb : b = b'
    · rw [if_pos hb, if_pos (by rw [hb])]
    · rw [if_neg hb, if_neg (by simpa using Ne.symm hb)]
  case next.next i j =>
    by_cases hij : i = j
    · rw [if_pos hij, if_pos (by rw [hij]), Option.map_map, Option.map_map, Option.map_map,
        Option.map_map]
      rfl
    · rw [if_neg hij, if_neg (by simpa using Ne.symm hij)]

@[simp] theorem sizes_setCell : (s.setCell p c).sizes = s.sizes := by
  cases c with
  | bucket b => simp only [sizes, setCell, Array.size_modify]
  | next i => exact sizes_mapMapping ..

/-- Writing a cell changes nothing of a map entry but its `next` field. -/
theorem mapping_setCell :
    (s.setCell p c).mapping j
      = if c = .next j then (s.mapping j).map fun x => { x with next := p } else s.mapping j := by
  cases c with
  | bucket b => rfl
  | next i =>
    show (s.mapMapping (fun x => { x with next := p }) i).mapping j = _
    rw [mapping_mapMapping]
    simp only [Cell.next.injEq, eq_comm]

@[simp] theorem isSome_mapping_setCell :
    ((s.setCell p c).mapping j).isSome = (s.mapping j).isSome := by
  rw [mapping_setCell]
  split_ifs
  · rw [Option.isSome_map]
  · rfl

end LruCache

end LruDatastructs
