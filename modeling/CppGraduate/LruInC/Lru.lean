import CppGraduate.LruInC.HashMap
import CppGraduate.LruInC.List

/-!
# The cache of lru-in-c

`lru.c`: a recency list of entries and an index from keys to the list's
nodes. A state is the blocks the cache owns – list nodes and entries – and
the `LruCache` object itself; the chains of the index are inside it.

A call takes everything that may vary from one call to the next: the
arguments, any of which may be `NULL`, and what becomes of the three
allocations a miss makes. It returns what the caller sees: the result,
what `*value` holds afterwards, and the keys the loader was called with.
The loader of a call is called at most once, so a loader that answers
differently from one call to the next is a different function in each.
-/

namespace LruInC

/-- `PageId`. -/
abbrev PageId := Int64

/-- `Page`. -/
abbrev Page := Int64

/-- `SlowGetPage`. -/
abbrev SlowGetPage := PageId → Page

/-- `CacheEntry`; a field holds nothing until it is written. -/
structure CacheEntry where
  key : Option PageId
  value : Option Page

/-- A `CacheEntry` block as `malloc` returns it. -/
def CacheEntry.uninit : CacheEntry := ⟨none, none⟩

/-- `struct LruCache`. -/
structure LruCache where
  recency : Addr
  index : HashMap Addr
  capacity : ℕ
  size : ℕ

/-- `LruResult`. -/
inductive LruResult
  | hit
  | miss
  | noMemory
  | invalidArgument
  | indexError
  deriving DecidableEq

/-- The cache and the blocks it owns. -/
structure State where
  nodes : Heap ListNode
  entries : Heap CacheEntry
  cache : LruCache

/-- Whether each of the allocations of a miss succeeds: the entry, the
list node, the entry of the index. -/
structure Mallocs where
  entry : Bool
  node : Bool
  index : Bool

/-- What a caller sees of a call. -/
structure Outcome where
  result : LruResult
  /-- What `*value` holds afterwards, if `value` points anywhere. -/
  value : Option Page
  /-- The keys the loader was called with, in order. -/
  loads : List PageId

/-- `evict_oldest`. -/
def evictOldest (s : State) : Option State := do
  let node ← ← listBack s.cache.recency s.nodes
  let entry ← ← listValue node s.nodes
  let e ← s.entries.read entry
  let (_, index) := hashMapRemove s.cache.index (← e.key)
  let nodes ← listRemove node s.nodes
  let entries ← s.entries.free entry
  return ⟨nodes, entries, { s.cache with index := index, size := s.cache.size - 1 }⟩

/-- `insert_page`. The three early returns undo the allocations made so
far; the loader is called after the last of them. -/
def insertPage (mallocs : Mallocs) (key : PageId) (slowGetPage : SlowGetPage)
    (value : Page) (s : State) : Option (Outcome × State) := do
  if !mallocs.entry then return (⟨.noMemory, some value, []⟩, s)
  let (entry, entries) := s.entries.alloc .uninit
  let entries ← entries.modify entry fun e => { e with key := some key }
  match ← listPushFront mallocs.node s.cache.recency (some entry) s.nodes with
  | (none, nodes) =>
    let entries ← entries.free entry
    return (⟨.noMemory, some value, []⟩, { s with nodes := nodes, entries := entries })
  | (some node, nodes) =>
    let (result, index) := hashMapInsert mallocs.index s.cache.index key node
    if result ≠ .inserted then
      let nodes ← listRemove node nodes
      let entries ← entries.free entry
      return (⟨if result = .noMemory then .noMemory else .indexError, some value, []⟩,
        ⟨nodes, entries, { s.cache with index := index }⟩)
    let entries ← entries.modify entry fun e => { e with value := some (slowGetPage key) }
    let s : State := ⟨nodes, entries, { s.cache with index := index }⟩
    let s ← if s.cache.size = s.cache.capacity then evictOldest s else some s
    let s := { s with cache := { s.cache with size := s.cache.size + 1 } }
    let e ← s.entries.read entry
    return (⟨.miss, some (← e.value), [key]⟩, s)

/-- A call to `lookup_update`. -/
structure Call where
  /-- Whether the `cache` argument points at the cache or is `NULL`. -/
  cache : Bool
  key : PageId
  slowGetPage : Option SlowGetPage
  /-- What `*value` holds before the call, if `value` is not `NULL`. -/
  value : Option Page
  mallocs : Mallocs

/-- `lookup_update`. -/
def lookupUpdate (call : Call) (s : State) : Option (Outcome × State) :=
  match call.cache, call.value, call.slowGetPage with
  | true, some value, some slowGetPage =>
    if s.cache.capacity = 0 then
      some (⟨.miss, some (slowGetPage call.key), [call.key]⟩, s)
    else
      match hashMapFind s.cache.index call.key with
      | some node => do
        let nodes ← listMoveFront s.cache.recency node s.nodes
        let entry ← ← listValue node nodes
        let e ← s.entries.read entry
        return (⟨.hit, some (← e.value), []⟩, { s with nodes := nodes })
      | none => insertPage call.mallocs call.key slowGetPage value s
  | _, value, _ => some (⟨.invalidArgument, value, []⟩, s)

/-- Whether each of the allocations of `lru_create` succeeds. -/
structure CreateMallocs where
  cache : Bool
  list : Bool
  map : Bool
  buckets : Bool

/-- `lru_create`: nothing when an allocation fails or the capacity is out
of range; what was allocated by then is freed again. -/
def lruCreate (mallocs : CreateMallocs) (capacity : ℕ) : Option State := do
  guard mallocs.cache
  let (recency, nodes) := listCreate mallocs.list .empty
  let index := hashMapCreate mallocs.map mallocs.buckets (if capacity = 0 then 1 else capacity)
  return ⟨nodes, .empty, ⟨← recency, ← index, capacity, 0⟩⟩

/-- The loop of `lru_destroy`, with a bound on its passes. -/
def evictAll : ℕ → State → Option State
  | 0, _ => none
  | passes + 1, s => do
    if ← listEmpty s.cache.recency s.nodes then return s
    evictAll passes (← evictOldest s)

/-- `lru_destroy`, and what is left of the two kinds of blocks. Every pass
of its loop frees a node, so it makes no more than there ever were; the
index frees what only it points at. -/
def lruDestroy (s : State) : Option (Heap ListNode × Heap CacheEntry) := do
  let s ← evictAll (s.nodes.bound + 1) s
  let nodes ← listDestroy s.cache.recency s.nodes
  return (nodes, s.entries)

/-- A sequence of calls on one cache: the outcomes in order and the state
at the end. -/
def runCalls : List Call → State → Option (List Outcome × State)
  | [], s => some ([], s)
  | call :: calls, s => do
    let (out, s) ← lookupUpdate call s
    let (outs, s) ← runCalls calls s
    return (out :: outs, s)

end LruInC
