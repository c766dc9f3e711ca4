import CppGraduate.Lib.Lru
import CppGraduate.LruDatastructs.IntMap

/-!
# The cache of lru-in-c-datastructs

`lru.c`: an access for a key that is not there takes the next entry of the
pool that was never used, or else recycles the last one of the recency
list, which is unlinked, given the new key and linked again. Nothing is
allocated after `lru_create`.
-/

namespace LruDatastructs

/-- `sizeof(CacheEntry)` on the targets the program is built for. -/
def sizeofCacheEntry : ℕ := 48

/-- Whether each of the allocations of `lru_create` succeeds. -/
structure Callocs where
  cache : Bool
  entries : Bool
  buckets : Bool

/-- What `calloc` makes of a cache. -/
def LruCache.zero : LruCache := ⟨⟨none, none⟩, ⟨#[], 0⟩, #[], 0, 0⟩

/-- `lru_create`; `none` is the result `NULL`. -/
def lruCreate (callocs : Callocs) (capacity : ℕ) : Option LruCache := do
  guard (capacity ≤ LruInC.sizeMax / sizeofCacheEntry)
  guard callocs.cache
  let s ← listInit .sentinel .zero
  if capacity = 0 then return s
  guard callocs.entries
  let index ← intMapInit callocs.buckets capacity
  return { s with index := index, entries := Array.replicate capacity .zero, capacity := capacity }

/-- What `lru_access` does with the map entry it found: its owner leaves the
list. -/
def detachFound (found : ℕ) (s : LruCache) : Option (ℕ × LruCache) := do
  let entry ← (← s.mapping found).value
  return (entry, ← listRemove (.entry entry) s)

/-- The entry `lru_access` takes for a new key: the next unused one, or the
last of the list. The cast of `recency.prev` to an entry is undefined where
it points at the sentinel. -/
def freeEntry (s : LruCache) : Option (ℕ × LruCache) :=
  if s.used < s.capacity then do
    let entry := s.used
    let s := { s with used := s.used + 1 }
    return (entry, ← listInit (.entry entry) s)
  else
    match s.recency.prev with
    | some (.entry entry) => do
      let s ← listRemove (.entry entry) s
      return (entry, ← intMapRemove entry s)
    | _ => none

/-- What `lru_access` does with a key it did not find. The assertion is a
step that may have no result. -/
def insertKey (key : Int64) (s : LruCache) : Option (ℕ × LruCache) := do
  let (entry, s) ← freeEntry s
  let s ← s.modifyMapping entry fun x => { x with key := key, value := some entry }
  let (inserted, s) ← intMapInsert entry s
  guard inserted
  return (entry, s)

/-- `lru_access` -/
def lruAccess (key : Int64) (s : LruCache) : Option (Bool × LruCache) :=
  if s.capacity = 0 then some (false, s)
  else do
    let found ← intMapFind s key
    let (entry, s) ← found.elim (insertKey key s) fun found => detachFound found s
    let s ← listPushFront .sentinel (.entry entry) s
    return (found.isSome, s)

/-- A sequence of accesses: what they returned, and the cache at the end. -/
def runAccesses : List Int64 → LruCache → Option (List Bool × LruCache)
  | [], s => some ([], s)
  | key :: keys, s => do
    let (hit, s) ← lruAccess key s
    let (hits, s) ← runAccesses keys s
    return (hit :: hits, s)

end LruDatastructs
