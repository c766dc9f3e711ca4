import CppGraduate.Lib.StdList
import Mathlib.Data.Nat.Basic
import Std.Data.HashMap

/-!
# The cache of lru-in-cxx

`cache.hpp`: a list of keys and pages, most recent first, and a hash map
from keys to iterators into it. The key type has an equality and a hash of
its own, as `std::unordered_map` takes them.

A call brings its own loader, which returns a page or throws. Nothing else
throws. What a caller sees is the result, or the exception, and the keys the
loader was called with.
-/

namespace LruInCxx

variable {K T ε : Type} [BEq K] [Hashable K]

/-- `cache_t` -/
structure Cache (K T : Type) [BEq K] [Hashable K] where
  sz : ℕ
  cache : StdList (K × T)
  hash : Std.HashMap K Iter

/-- The constructor. -/
def Cache.new (sz : ℕ) : Cache K T := ⟨sz, .empty, ∅⟩

/-- `max_capacity` -/
def Cache.maxCapacity (s : Cache K T) : ℕ := s.sz

/-- `full` -/
def Cache.full (s : Cache K T) : Bool := s.cache.size == s.sz

/-- A call to `lookup_update`. -/
structure Call (K T ε : Type) where
  key : K
  slowGetPage : K → Except ε T

/-- What a caller sees of a call. -/
structure Outcome (K ε : Type) where
  result : Except ε Bool
  /-- The keys the loader was called with, in order. -/
  loads : List K

/-- The least recent page goes: from the map, by its key, and from the
list. -/
def dropBack (s : Cache K T) : Option (Cache K T) := do
  let back ← s.cache.back?
  let hash := s.hash.erase back.1
  let cache ← s.cache.popBack
  return { s with cache := cache, hash := hash }

/-- What a full cache does before it takes a page. -/
def makeRoom (s : Cache K T) : Option (Cache K T) := if s.full then dropBack s else some s

/-- `lookup_update` -/
def lookupUpdate (call : Call K T ε) (s : Cache K T) : Option (Outcome K ε × Cache K T) :=
  if s.maxCapacity = 0 then some (⟨.ok false, []⟩, s)
  else
    match s.hash[call.key]? with
    | some eltit => do
      let cache ← s.cache.spliceFront eltit
      return (⟨.ok true, []⟩, { s with cache := cache })
    | none =>
      match call.slowGetPage call.key with
      | .error e => some (⟨.error e, [call.key]⟩, s)
      | .ok page => do
        let s ← makeRoom s
        let cache := s.cache.emplaceFront (call.key, page)
        let front ← cache.begin?
        return (⟨.ok false, [call.key]⟩,
          { s with cache := cache, hash := s.hash.insertIfNew call.key front })

/-- A sequence of calls on one cache: the outcomes in order and the cache at
the end. -/
def runCalls : List (Call K T ε) → Cache K T → Option (List (Outcome K ε) × Cache K T)
  | [], s => some ([], s)
  | call :: calls, s => do
    let (out, s) ← lookupUpdate call s
    let (outs, s) ← runCalls calls s
    return (out :: outs, s)

end LruInCxx
