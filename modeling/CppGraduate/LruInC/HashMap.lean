import Mathlib.Algebra.Group.Nat.Defs
import Mathlib.Data.List.Basic
import Mathlib.Data.List.Nodup
import Mathlib.Data.Nat.Notation

/-!
# The index of lru-in-c

`hash_map.c` is a table of collision chains. A chain is a list of entries
here, in the order of its `next` pointers; the walk over a chain is a
recursion on the list, and unlinking through a pointer to a pointer is
rebuilding the part of the chain before the entry. The table has one chain
for each bucket and at least one bucket, so a bucket number is never out
of range.

`hashMapFind` returns the value in place of writing it through a pointer:
`none` is the result `false`, which writes nothing.
-/

namespace LruInC

/-- `HashMapKey`, also the `PageId` of the cache. -/
abbrev HashMapKey := Int64

/-- `struct HashMapEntry`, without the `next` pointer the chain is made
of. -/
structure HashMapEntry (V : Type) where
  key : HashMapKey
  value : V

/-- **The hash map**: one chain for each of its buckets. -/
structure HashMap (V : Type) where
  bucketCount : ℕ
  /-- `hash_map_create` makes no table without buckets. -/
  pos : 0 < bucketCount
  buckets : Vector (List (HashMapEntry V)) bucketCount

/-- `HashMapResult`. -/
inductive HashMapResult
  | inserted
  | duplicate
  | noMemory
  deriving DecidableEq

variable {V : Type}

/-- The mixing steps of `bucket_for`, on `uint64_t`. -/
def hashOf (key : HashMapKey) : UInt64 :=
  let hash := key.toUInt64
  let hash := hash ^^^ (hash >>> 30)
  let hash := hash * 0xbf58476d1ce4e5b9
  let hash := hash ^^^ (hash >>> 27)
  let hash := hash * 0x94d049bb133111eb
  hash ^^^ (hash >>> 31)

/-- `bucket_for`. -/
def bucketFor (map : HashMap V) (key : HashMapKey) : Fin map.bucketCount :=
  ⟨(hashOf key).toNat % map.bucketCount, Nat.mod_lt _ map.pos⟩

/-- `SIZE_MAX` on the 64-bit targets the program is built for. -/
def sizeMax : ℕ := 2 ^ 64 - 1

/-- `sizeof(HashMapEntry *)` on those targets. -/
def sizeofPointer : ℕ := 8

/-- `hash_map_create`: no map without buckets, with a table larger than
the address space, or when one of its two allocations fails. -/
def hashMapCreate (okMap okBuckets : Bool) (bucketCount : ℕ) : Option (HashMap V) :=
  if h : 0 < bucketCount then
    if bucketCount ≤ sizeMax / sizeofPointer ∧ okMap ∧ okBuckets then
      some ⟨bucketCount, h, Vector.replicate bucketCount []⟩
    else none
  else none

/-- The chain of a bucket. -/
def chainAt (map : HashMap V) (i : Fin map.bucketCount) : List (HashMapEntry V) :=
  map.buckets[i]

/-- The chain a key belongs to. -/
def chainFor (map : HashMap V) (key : HashMapKey) : List (HashMapEntry V) :=
  chainAt map (bucketFor map key)

/-- Replace the chain a key belongs to. -/
def setChain (map : HashMap V) (key : HashMapKey) (chain : List (HashMapEntry V)) :
    HashMap V :=
  { map with buckets := map.buckets.set (bucketFor map key) chain }

/-- The loop of `hash_map_find`. -/
def findIn (key : HashMapKey) : List (HashMapEntry V) → Option V
  | [] => none
  | entry :: next => if entry.key = key then some entry.value else findIn key next

/-- The loop of `hash_map_remove`: the chain without the first entry of
the key, or nothing when it holds none. -/
def unlinkIn (key : HashMapKey) : List (HashMapEntry V) → Option (List (HashMapEntry V))
  | [] => none
  | entry :: next =>
    if entry.key = key then some next else (unlinkIn key next).map (entry :: ·)

/-- `hash_map_find`. -/
def hashMapFind (map : HashMap V) (key : HashMapKey) : Option V :=
  findIn key (chainFor map key)

/-- `hash_map_insert`; `ok` is whether the allocation succeeds. -/
def hashMapInsert (ok : Bool) (map : HashMap V) (key : HashMapKey) (value : V) :
    HashMapResult × HashMap V :=
  if (hashMapFind map key).isSome then (.duplicate, map)
  else if !ok then (.noMemory, map)
  else (.inserted, setChain map key (⟨key, value⟩ :: chainFor map key))

/-- `hash_map_remove`. -/
def hashMapRemove (map : HashMap V) (key : HashMapKey) : Bool × HashMap V :=
  match unlinkIn key (chainFor map key) with
  | none => (false, map)
  | some chain => (true, setChain map key chain)

/-! ## Well-formed tables -/

/-- **A well-formed table**: every entry sits in the chain of its key, and
no chain has a key twice. -/
structure HashMap.WF (map : HashMap V) : Prop where
  placed : ∀ i, ∀ e ∈ chainAt map i, bucketFor map e.key = i
  nodup : ∀ i, ((chainAt map i).map HashMapEntry.key).Nodup

/-- The chains after one of them was replaced. -/
theorem chainAt_setChain (map : HashMap V) (key : HashMapKey)
    (chain : List (HashMapEntry V)) (i : Fin map.bucketCount) :
    chainAt (setChain map key chain) i
      = if bucketFor map key = i then chain else chainAt map i := by
  show (map.buckets.set (bucketFor map key) chain)[(i : ℕ)] = _
  rw [Vector.getElem_set]
  simp only [Fin.ext_iff]
  rfl

/-- The chain of a key after one was replaced. -/
theorem chainFor_setChain (map : HashMap V) (key k : HashMapKey)
    (chain : List (HashMapEntry V)) :
    chainFor (setChain map key chain) k
      = if bucketFor map key = bucketFor map k then chain else chainFor map k :=
  chainAt_setChain map key chain (bucketFor map k)

/-- Replacing a chain by a well-formed one keeps the table well formed. -/
theorem HashMap.WF.setChain {map : HashMap V} (h : map.WF) {key : HashMapKey}
    {chain : List (HashMapEntry V)} (hp : ∀ e ∈ chain, bucketFor map e.key = bucketFor map key)
    (hn : (chain.map HashMapEntry.key).Nodup) : (setChain map key chain).WF := by
  refine ⟨fun i e he => ?_, fun i => ?_⟩
  · have hc := chainAt_setChain map key chain i
    rw [hc] at he
    split_ifs at he with hi
    · exact (hp e he).trans hi
    · exact h.placed i e he
  · have hc := chainAt_setChain map key chain i
    rw [hc]
    split_ifs
    · exact hn
    · exact h.nodup i

/-- The walk finds a key exactly when the chain has it. -/
theorem findIn_isSome_iff (key : HashMapKey) (chain : List (HashMapEntry V)) :
    (findIn key chain).isSome ↔ key ∈ chain.map HashMapEntry.key := by
  induction chain with
  | nil => simp [findIn]
  | cons e next ih =>
    rw [findIn, List.map_cons, List.mem_cons]
    split_ifs with he
    · simp [he]
    · rw [ih, or_iff_right (Ne.symm he)]

/-- Unlinking fails exactly when the walk finds nothing. -/
theorem unlinkIn_isSome (key : HashMapKey) (chain : List (HashMapEntry V)) :
    (unlinkIn key chain).isSome = (findIn key chain).isSome := by
  induction chain with
  | nil => rfl
  | cons e next ih =>
    rw [unlinkIn, findIn]
    split_ifs
    · rfl
    · rw [Option.isSome_map, ih]

/-- Unlinking leaves a sublist of the chain. -/
theorem unlinkIn_sublist {key : HashMapKey} {chain chain' : List (HashMapEntry V)}
    (h : unlinkIn key chain = some chain') : chain'.Sublist chain := by
  induction chain generalizing chain' with
  | nil => exact absurd h (by simp [unlinkIn])
  | cons e next ih =>
    rw [unlinkIn] at h
    split_ifs at h with he
    · cases h
      exact List.sublist_cons_self e next
    · obtain ⟨next', hn, rfl⟩ := Option.map_eq_some_iff.mp h
      exact (ih hn).cons_cons e

/-- Unlinking a key loses that key and no other. -/
theorem findIn_unlinkIn {key : HashMapKey} {chain chain' : List (HashMapEntry V)}
    (hn : (chain.map HashMapEntry.key).Nodup) (h : unlinkIn key chain = some chain')
    (k : HashMapKey) : findIn k chain' = if k = key then none else findIn k chain := by
  induction chain generalizing chain' with
  | nil => exact absurd h (by simp [unlinkIn])
  | cons e next ih =>
    obtain ⟨hne, hnn⟩ := List.nodup_cons.mp hn
    rw [unlinkIn] at h
    split_ifs at h with he
    · cases h
      rw [findIn]
      by_cases hk : k = key
      · rw [if_pos hk, ← Option.not_isSome_iff_eq_none, findIn_isSome_iff, hk, ← he]
        exact hne
      · rw [if_neg hk, if_neg (by rw [he]; exact Ne.symm hk)]
    · obtain ⟨next', hn', rfl⟩ := Option.map_eq_some_iff.mp h
      rw [findIn, findIn, ih hnn hn']
      split_ifs with h₁ h₂ h₂
      · exact absurd (h₁.trans h₂) he
      · rfl
      · rfl
      · rfl

/-! ## The operations against `hashMapFind` -/

/-- A new map is well formed and finds nothing. -/
theorem hashMapCreate_spec {okMap okBuckets : Bool} {n : ℕ} {map : HashMap V}
    (h : hashMapCreate okMap okBuckets n = some map) :
    map.WF ∧ ∀ k, hashMapFind map k = none := by
  unfold hashMapCreate at h
  split_ifs at h with hn hs
  cases h
  have hb : ∀ i, chainAt ⟨n, hn, Vector.replicate n ([] : List (HashMapEntry V))⟩ i
      = [] := fun i => Vector.getElem_replicate _
  refine ⟨⟨fun i e he => ?_, fun i => ?_⟩, fun k => ?_⟩
  · rw [hb] at he
    exact absurd he List.not_mem_nil
  · rw [hb]
    exact List.nodup_nil
  · rw [hashMapFind, chainFor, hb]
    rfl

/-- **Inserting an absent key** adds it and changes no other. -/
theorem hashMapInsert_spec {map : HashMap V} (hw : map.WF) {key : HashMapKey}
    (hk : hashMapFind map key = none) (value : V) :
    ∃ map', hashMapInsert true map key value = (.inserted, map') ∧ map'.WF
      ∧ ∀ k, hashMapFind map' k = if k = key then some value else hashMapFind map k := by
  refine ⟨_, by rw [hashMapInsert, hk]; rfl, hw.setChain ?_ ?_, fun k => ?_⟩
  · intro e he
    rcases List.mem_cons.mp he with rfl | he
    · rfl
    · exact hw.placed _ e he
  · rw [List.map_cons, List.nodup_cons]
    refine ⟨fun hm => ?_, hw.nodup _⟩
    rw [← findIn_isSome_iff] at hm
    rw [hashMapFind] at hk
    rw [hk] at hm
    exact absurd hm (by simp)
  · rw [hashMapFind, chainFor_setChain]
    by_cases hkk : k = key
    · subst hkk
      rw [if_pos rfl, if_pos rfl, findIn, if_pos rfl]
    · rw [if_neg hkk]
      split_ifs with hb
      · rw [findIn, if_neg (Ne.symm hkk), chainFor, hb]
        rfl
      · rfl

/-- A failed allocation leaves the map alone. -/
theorem hashMapInsert_fail {map : HashMap V} {key : HashMapKey}
    (hk : hashMapFind map key = none) (value : V) :
    hashMapInsert false map key value = (.noMemory, map) := by
  rw [hashMapInsert, hk]
  rfl

/-- **Removing a key** loses that key and no other. -/
theorem hashMapRemove_spec {map : HashMap V} (hw : map.WF) (key : HashMapKey) :
    (hashMapRemove map key).1 = (hashMapFind map key).isSome
      ∧ (hashMapRemove map key).2.WF
      ∧ ∀ k, hashMapFind (hashMapRemove map key).2 k
          = if k = key then none else hashMapFind map k := by
  have hs := unlinkIn_isSome key (chainFor map key)
  unfold hashMapRemove
  cases hu : unlinkIn key (chainFor map key) with
  | none =>
    rw [hu] at hs
    refine ⟨hs, hw, fun k => ?_⟩
    split_ifs with hk
    · rw [hk]
      exact Option.not_isSome_iff_eq_none.mp (by rw [hashMapFind, ← hs]; simp)
    · rfl
  | some chain =>
    rw [hu] at hs
    have hsub := unlinkIn_sublist hu
    refine ⟨hs, hw.setChain (fun e he => hw.placed _ e (hsub.subset he))
      ((hsub.map _).nodup (hw.nodup _)), fun k => ?_⟩
    rw [hashMapFind, chainFor_setChain]
    by_cases hb : bucketFor map key = bucketFor map k
    · rw [if_pos hb, hashMapFind, chainFor, ← hb]
      exact findIn_unlinkIn (hw.nodup _) hu k
    · rw [if_neg hb, if_neg (by rintro rfl; exact hb rfl), hashMapFind]

end LruInC
