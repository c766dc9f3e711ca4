import CppGraduate.Lib.Chains
import CppGraduate.LruInC.HashMap

/-!
# The program lru-in-c-naive

One file, `main.c`: a null-terminated doubly linked list for recency, chains
of the same nodes for lookup, and the whole of the cache logic in the
request loop of `main`. The nodes are an array; a `Node *` is an index into
it, a `Node **` a bucket or the `hash_next` field of a node, and the null
pointer is `none`. Following it, or leaving an array, has no result.

Numbers are read with `scanf`, of which only the results matter here:
standard input is the integers it converts, in order, until it converts no
more. The loops over a chain are bounded by the number of nodes, and running
into the bound has no result either.
-/

namespace LruNaive

open Chains (Cell)

/-- `Node` -/
structure Node where
  value : Int64
  prev : Option ℕ
  next : Option ℕ
  hashNext : Option ℕ

/-- What `calloc` makes of a node. -/
def Node.zero : Node := ⟨0, none, none, none⟩

/-- `Cache` -/
structure Cache where
  head : Option ℕ
  tail : Option ℕ
  buckets : Array (Option ℕ)
  capacity : ℕ

/-- The variables of `main` that the request loop works on. -/
structure State where
  cache : Cache
  nodes : Array Node
  used : ℕ
  hits : Int64

/-- `bucket_for` -/
def bucketFor (value : Int64) (capacity : ℕ) : ℕ := (LruInC.hashOf value).toNat % capacity

/-! ## Pointers -/

namespace State

/-- Rewrite a node, if it is there. -/
def mapNode (s : State) (f : Node → Node) (i : ℕ) : State :=
  { s with nodes := s.nodes.modify i f }

/-- Write a node through a pointer. -/
def modifyNode (s : State) (i : ℕ) (f : Node → Node) : Option State :=
  if i < s.nodes.size then some (s.mapNode f i) else none

/-- What is in a cell. -/
def cell (s : State) : Cell ℕ → Option (Option ℕ)
  | .bucket b => s.cache.buckets[b]?
  | .next i => s.nodes[i]?.map Node.hashNext

/-- Rewrite a cell, if it is there. -/
def setCell (s : State) (p : Option ℕ) : Cell ℕ → State
  | .bucket b => { s with cache.buckets := s.cache.buckets.modify b fun _ => p }
  | .next i => s.mapNode (fun x => { x with hashNext := p }) i

/-- Write a pointer through a pointer to it. -/
def writeCell (s : State) (c : Cell ℕ) (p : Option ℕ) : Option State :=
  if (s.cell c).isSome then some (s.setCell p c) else none

/-- `if (i) i->next = p; else cache->head = p;` -/
def writeNext (s : State) (p : Option ℕ) : Option ℕ → Option State
  | none => some { s with cache.head := p }
  | some i => s.modifyNode i fun x => { x with next := p }

/-- `if (i) i->prev = p; else cache->tail = p;` -/
def writePrev (s : State) (p : Option ℕ) : Option ℕ → Option State
  | none => some { s with cache.tail := p }
  | some i => s.modifyNode i fun x => { x with prev := p }

end State

/-- `unlink_node` -/
def unlinkNode (node : ℕ) (s : State) : Option State := do
  let x ← s.nodes[node]?
  let s ← s.writeNext x.next x.prev
  let x ← s.nodes[node]?
  s.writePrev x.prev x.next

/-- `prepend` -/
def prepend (node : ℕ) (s : State) : Option State := do
  let s ← s.modifyNode node fun x => { x with prev := none }
  let s ← s.modifyNode node fun x => { x with next := s.cache.head }
  let s ← s.writePrev (some node) s.cache.head
  return { s with cache.head := some node }

/-! ## The request loop -/

/-- The loop that looks for a value in a chain. -/
def findFrom (value : Int64) (s : State) : ℕ → Option ℕ → Option (Option ℕ)
  | 0, _ => none
  | _ + 1, none => some none
  | passes + 1, some node => do
    let x ← s.nodes[node]?
    if x.value = value then return some node
    findFrom value s passes x.hashNext

/-- The loop that looks for the cell that points at a node. -/
def linkFrom (node : ℕ) (s : State) : ℕ → Cell ℕ → Option (Cell ℕ)
  | 0, _ => none
  | passes + 1, link => do
    let p ← s.cell link
    if p = some node then return link
    linkFrom node s passes (.next (← p))

/-- Reuse the least recently used node. -/
def reuseTail (s : State) : Option (ℕ × State) := do
  let node ← s.cache.tail
  let x ← s.nodes[node]?
  let oldBucket := bucketFor x.value s.cache.capacity
  let link ← linkFrom node s (s.nodes.size + 1) (.bucket oldBucket)
  let s ← s.writeCell link x.hashNext
  return (node, ← unlinkNode node s)

/-- The node for a new value: the next one of the array, or the tail. -/
def freeNode (s : State) : Option (ℕ × State) :=
  if s.used < s.cache.capacity then some (s.used, { s with used := s.used + 1 })
  else reuseTail s

/-- Give a node its value and put it in front of a chain. -/
def chainNode (value : Int64) (bucket node : ℕ) (s : State) : Option State := do
  let first ← s.cell (.bucket bucket)
  let s ← s.modifyNode node fun x => { x with value := value, hashNext := first }
  s.writeCell (.bucket bucket) (some node)

/-- The node for a value that is not there. -/
def insertValue (value : Int64) (bucket : ℕ) (s : State) : Option (ℕ × State) := do
  let (node, s) ← freeNode s
  return (node, ← chainNode value bucket node s)

/-- A pass of the loop over the requests, after a value was read. -/
def request (value : Int64) (s : State) : Option State :=
  if s.cache.capacity = 0 then some s
  else do
    let bucket := bucketFor value s.cache.capacity
    let first ← s.cell (.bucket bucket)
    let node ← findFrom value s (s.nodes.size + 1) first
    let (node, s) ← node.elim (insertValue value bucket s) fun node => do
      return (node, ← unlinkNode node { s with hits := s.hits + 1 })
    prepend node s

/-- A sequence of passes. -/
def requests : List Int64 → State → Option State
  | [], s => some s
  | value :: values, s => do requests values (← request value s)

/-! ## The program -/

/-- `sizeof(Node)` on the targets the program is built for. -/
def sizeofNode : ℕ := 32

/-- How the process ends. -/
structure Exit where
  stdout : String
  stderr : String
  /-- Whether the status is `EXIT_SUCCESS`. -/
  success : Bool

/-- The state before the first request. -/
def start (limit : ℕ) : State :=
  ⟨⟨none, none, Array.replicate limit none, limit⟩, Array.replicate limit .zero, 0, 0⟩

/-- The loop over the requests, with `left` requests to come and `i` made,
and what follows it. -/
def requestLoop : ℕ → ℕ → List Int64 → State → Option Exit
  | 0, _, _, s => some ⟨toString s.hits.toInt ++ "\n", "", true⟩
  | _ + 1, i, [], _ =>
    some ⟨"", "Expected element at position " ++ toString (i + 1) ++ ".\n", false⟩
  | left + 1, i, value :: values, s => do requestLoop left (i + 1) values (← request value s)

/-- The capacity the cache gets: no more than `count` distinct elements can
be stored. -/
def limit (requestedCapacity count : Int64) : ℕ :=
  (if requestedCapacity < count then requestedCapacity else count).toUInt64.toNat

/-- `main`; `ok` is whether the two allocations succeed. -/
def main (ok : Bool) : List Int64 → Option Exit
  | requestedCapacity :: count :: values =>
    if requestedCapacity < 0 ∨ count < 0 then
      some ⟨"", "Expected nonnegative cache size and element count.\n", false⟩
    else if LruInC.sizeMax / sizeofNode < limit requestedCapacity count
        ∨ LruInC.sizeMax / LruInC.sizeofPointer < limit requestedCapacity count then
      some ⟨"", "Cache is too large.\n", false⟩
    else if limit requestedCapacity count ≠ 0 ∧ !ok then
      some ⟨"", "Cannot allocate cache.\n", false⟩
    else requestLoop count.toInt.toNat 0 values (start (limit requestedCapacity count))
  | _ => some ⟨"", "Expected nonnegative cache size and element count.\n", false⟩

end LruNaive
