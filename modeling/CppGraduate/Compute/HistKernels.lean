import CppGraduate.Lib.CxxInt
import CppGraduate.Lib.Loops
import CppGraduate.Lib.WorkItems

/-!
# The histogram kernels

`hist.cl` and `hist-onlyg-corr.cl`: every work-item of a group of `lsize`
goes through the data from its global number on in steps of the number of
all items. The first kernel counts in the local memory of the group and adds
the counts to the histogram in the end, the second counts in the histogram.

All variables are of type `int`. The numbers and sizes a work-item asks for
are of type `size_t` and converted, a sum out of range has no result, and
neither has an index that is not one of its buffer. The counters are 32-bit
words, and an atomic addition is one step.

The global memory remembers which elements of the data have been counted.
-/

namespace Hist

open WorkItems Cxx

/-- **The arguments of a launch**: the sizes, and data whose values are all
numbers of bins. -/
structure Launch where
  /-- `get_local_size(0)` -/
  lsize : ℕ
  /-- The number of groups. -/
  groups : ℕ
  /-- `num_bins` -/
  num_bins : ℕ
  /-- `data`, of `num_data` elements. -/
  data : List UInt8
  lsize_pos : 0 < lsize
  groups_pos : 0 < groups
  num_bins_pos : 0 < num_bins
  gsize_lt : groups * lsize < 2 ^ 64
  num_bins_lt : num_bins < 2 ^ 31
  num_data_lt : data.length < 2 ^ 31
  data_lt : ∀ d ∈ data, d.toNat < num_bins

namespace Launch

variable (S : Launch)

/-- `get_global_size(0)` -/
def gsize : ℕ := S.groups * S.lsize

/-- `num_data` -/
def num_data : ℕ := S.data.length

/-- The bin of an element of the data. -/
def bin (n : ℕ) : ℕ := (S.data.getD n 0).toNat

end Launch

/-- A work-item: its group, and its local number. -/
abbrev Item (S : Launch) : Type := Fin S.groups × Fin S.lsize

namespace Item

variable {S : Launch}

/-- `get_global_id(0)` -/
def globalId (i : Item S) : ℕ := i.1 * S.lsize + i.2

/-- `int lid` -/
def lid (i : Item S) : ℤ := IntType.int.convert (i.2 : ℕ)

/-- `int gid` -/
def gid (i : Item S) : ℤ := IntType.int.convert i.globalId

end Item

namespace Launch

/-- `int lsize` -/
def lstep (S : Launch) : ℤ := IntType.int.convert S.lsize

/-- `int gsize` -/
def gstep (S : Launch) : ℤ := IntType.int.convert S.gsize

end Launch

/-! ## Memory -/

/-- An index that is one of a buffer's. -/
def index (i : ℤ) (n : ℕ) : Option ℕ := if 0 ≤ i ∧ i < n then some i.toNat else none

/-- Reading an element. -/
def read {α : Type} (xs : List α) (i : ℤ) : Option α := do
  let n ← index i xs.length
  xs[n]?

/-- `atomic_add` -/
def atomicAdd (xs : List (BitVec 32)) (i : ℤ) (v : BitVec 32) : Option (List (BitVec 32)) := do
  let n ← index i xs.length
  let x ← xs[n]?
  some (xs.set n (x + v))

/-- The global memory: the histogram, and the elements counted so far. -/
structure Global where
  /-- `histogram` -/
  histogram : List (BitVec 32)
  /-- The elements that have been counted. -/
  counted : List ℕ

/-- The next element of a loop: `i += step`. -/
def advance (i step : ℤ) : Option ℤ := IntType.int.arith (i + step)

variable (S : Launch)

/-! ## hist.cl -/

namespace Local

/-- Where a work-item is. -/
inductive Pc where
  /-- The test of the first loop, and the barrier after the loop. -/
  | zero (i : ℤ)
  /-- The test of the second loop, and the barrier after the loop. -/
  | count (i : ℤ)
  /-- The test of the third loop, and the end after the loop. -/
  | flush (i : ℤ)
  /-- Between the read of the local counter and the addition. -/
  | add (i : ℤ) (v : BitVec 32)

/-- `local_hist[i] = 0;` and to the next test. -/
def zeroBody (i : ℤ) (m : List (BitVec 32) × Global) :
    Option (Pc × List (BitVec 32) × Global) := do
  let n ← index i m.1.length
  some (.zero (← advance i S.lstep), m.1.set n 0, m.2)

/-- `atomic_add(&local_hist[data[i]], 1);` and to the next test. -/
def countBody (i : ℤ) (m : List (BitVec 32) × Global) :
    Option (Pc × List (BitVec 32) × Global) := do
  let d ← read S.data i
  let loc ← atomicAdd m.1 d.toNat 1
  some (.count (← advance i S.gstep), loc, { m.2 with counted := i.toNat :: m.2.counted })

/-- The read of `local_hist[i]`. -/
def readBody (i : ℤ) (m : List (BitVec 32) × Global) :
    Option (Pc × List (BitVec 32) × Global) := do
  let v ← read m.1 i
  some (.add i v, m)

/-- `atomic_add(&histogram[i], v);` and to the next test. -/
def addBody (i : ℤ) (v : BitVec 32) (m : List (BitVec 32) × Global) :
    Option (Pc × List (BitVec 32) × Global) := do
  let h ← atomicAdd m.2.histogram i v
  some (.flush (← advance i S.lstep), m.1, { m.2 with histogram := h })

/-- What a work-item does next. -/
def next (j : Item S) : Pc → Next Pc (List (BitVec 32) × Global)
  | .zero i => if i < S.num_bins then .act (zeroBody S i) else .barrier (.count j.gid)
  | .count i => if i < S.num_data then .act (countBody S i) else .barrier (.flush j.lid)
  | .flush i => if i < S.num_bins then .act (readBody i) else .done
  | .add i v => .act (addBody S i v)

/-- `histogram` of hist.cl -/
def histogram : Kernel (Item S) (Fin S.groups) Pc (List (BitVec 32)) Global where
  group := Prod.fst
  init j := .zero j.lid
  next := next S

end Local

/-! ## hist-onlyg-corr.cl -/

namespace OnlyGlobal

/-- `atomic_add(&histogram[data[i]], 1);` and to the next test of the loop,
which is where a work-item is. -/
def body (i : ℤ) (m : Unit × Global) : Option (ℤ × Unit × Global) := do
  let d ← read S.data i
  let h ← atomicAdd m.2.histogram d.toNat 1
  some (← advance i S.gstep, m.1, ⟨h, i.toNat :: m.2.counted⟩)

/-- `histogram` of hist-onlyg-corr.cl -/
def histogram : Kernel (Item S) (Fin S.groups) ℤ Unit Global where
  group := Prod.fst
  init j := j.gid
  next _ i := if i < S.num_data then .act (body S i) else .done

end OnlyGlobal

end Hist
