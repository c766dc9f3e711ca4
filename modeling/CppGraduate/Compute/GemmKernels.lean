import CppGraduate.Lib.CxxInt
import CppGraduate.Lib.WorkItems
import Mathlib.Algebra.Ring.Defs

/-!
# The matrix multiplication kernels

`gemm_simple.cl` and `gemm_localmem.cl`: both kernels are `matrix_multiply`,
both are launched on as many work-items as `C` has entries, in groups of
`TS` times `TS`, and every work-item computes one entry.

The matrices are flat buffers. An index into one is an expression of type
`int`, which has no result when a product or a sum is out of range; neither
has reading or writing where the buffer has no entry. The entries are of
type `R`, with exact arithmetic.

Two things are in the model for the statements alone: a cell of a tile
remembers in which iteration it was stored, and the stores to `C` are
logged with the work-items they are made by.
-/

namespace Gemm

open WorkItems Cxx

/-- **The arguments of a launch**: the tile size, and the sizes of the
matrices as positive numbers of type `int`. The sizes of `C` are multiples of
the tile size, as the ranges of a launch have to be. -/
structure Sizes where
  /-- `TS`, and `LSZ` on the host. -/
  TS : ℕ
  /-- The rows of `A`. -/
  AX : ℕ
  /-- The columns of `A`. -/
  AY : ℕ
  /-- The columns of `B`. -/
  BY : ℕ
  TS_pos : 0 < TS
  AX_pos : 0 < AX
  AY_pos : 0 < AY
  BY_pos : 0 < BY
  AX_lt : AX < 2 ^ 31
  AY_lt : AY < 2 ^ 31
  BY_lt : BY < 2 ^ 31
  TS_dvd_AX : TS ∣ AX
  TS_dvd_BY : TS ∣ BY

variable {S : Sizes} {R : Type}

/-! ## The work-items -/

/-- A work-group: its numbers in the two dimensions. -/
abbrev Group (S : Sizes) : Type := Fin (S.AX / S.TS) × Fin (S.BY / S.TS)

/-- A work-item: its group, and its local numbers in the two dimensions. -/
abbrev Item (S : Sizes) : Type := Group S × (Fin S.TS × Fin S.TS)

namespace Item

/-- `row`, the local one. -/
abbrev row (i : Item S) : Fin S.TS := i.2.1

/-- `col`, the local one. -/
abbrev col (i : Item S) : Fin S.TS := i.2.2

/-- `globalRow`, which is `get_global_id(0)`. -/
def globalRow (i : Item S) : ℕ := S.TS * i.1.1 + i.row

/-- `globalCol`, which is `get_global_id(1)`. -/
def globalCol (i : Item S) : ℕ := S.TS * i.1.2 + i.col

end Item

/-! ## Indices and buffers -/

/-- The expression `i * n + j` of type `int`. -/
def flat (i n j : ℕ) : Option ℕ := do
  let p ← IntType.int.arith (i * n)
  let q ← IntType.int.arith (p + j)
  some q.toNat

/-- **The global memory that is written**: the buffer `C`, and the stores to
it that were made. -/
structure Global (S : Sizes) (R : Type) where
  /-- `C` -/
  C : List R
  /-- Which index was stored to, and by whom. -/
  stores : List (ℕ × Item S)

/-- `C[n] = x` -/
def Global.store (g : Global S R) (i : Item S) (n : ℕ) (x : R) : Option (Global S R) :=
  if n < g.C.length then some ⟨g.C.set n x, (n, i) :: g.stores⟩ else none

/-- `C[globalRow * BY + globalCol] = x` -/
def Global.storeEntry (g : Global S R) (i : Item S) (x : R) : Option (Global S R) := do
  g.store i (← flat i.globalRow S.BY i.globalCol) x

variable [Semiring R]

/-! ## gemm_simple.cl -/

namespace Simple

/-- Where a work-item is. -/
inductive Pc (R : Type) where
  /-- The test of the loop. -/
  | loop (k : ℕ) (sum : R)
  /-- The end. -/
  | done

/-- The body of the loop, up to its next test. -/
def body (S : Sizes) (A B : List R) (i : Item S) (k : ℕ) (sum : R) : Option (Pc R) := do
  let a ← A[← flat i.globalRow S.AY k]?
  let b ← B[← flat k S.BY i.globalCol]?
  some (.loop (k + 1) (sum + a * b))

/-- What a work-item does next. -/
def next (S : Sizes) (A B : List R) (i : Item S) : Pc R → Next (Pc R) (Unit × Global S R)
  | .loop k sum =>
    if k < S.AY then
      .act fun m => (body S A B i k sum).map (·, m)
    else
      .act fun m => (m.2.storeEntry i sum).map (.done, m.1, ·)
  | .done => .done

/-- `matrix_multiply` of gemm_simple.cl -/
def matrixMultiply (S : Sizes) (A B : List R) :
    Kernel (Item S) (Group S) (Pc R) Unit (Global S R) where
  group := Prod.fst
  init _ := .loop 0 0
  next := next S A B

end Simple

/-! ## gemm_localmem.cl -/

namespace Localmem

/-- A cell of a tile: what it holds, and the iteration this was stored in. -/
structure Cell (R : Type) where
  /-- The value. -/
  val : R
  /-- The value of `t` when it was stored. -/
  tile : Option ℕ

/-- The local memory of a group. -/
structure Tiles (S : Sizes) (R : Type) where
  /-- `Asub` -/
  Asub : Fin S.TS → Fin S.TS → Cell R
  /-- `Bsub` -/
  Bsub : Fin S.TS → Fin S.TS → Cell R

/-- A tile with one cell stored to. -/
def setCell (f : Fin S.TS → Fin S.TS → Cell R) (a b : Fin S.TS) (x : Cell R) :
    Fin S.TS → Fin S.TS → Cell R :=
  Function.update f a (Function.update (f a) b x)

/-- Where a work-item is. -/
inductive Pc (S : Sizes) (R : Type) where
  /-- The test of the loop over the tiles. -/
  | loop (t : ℕ) (acc : R)
  /-- Between the store to `Asub` and the one to `Bsub`. -/
  | loadB (t : ℕ) (acc : R)
  /-- The barrier after the stores. -/
  | loaded (t : ℕ) (acc : R)
  /-- The test of the inner loop, and the barrier after the loop. -/
  | inner (t k : ℕ) (acc : R)
  /-- Between the reads of `Asub` and of `Bsub`. -/
  | mul (t : ℕ) (k : Fin S.TS) (acc a : R)
  /-- The end. -/
  | done

/-- `numTiles` -/
def numTiles (S : Sizes) : ℕ := S.AY / S.TS

/-- `Asub[col][row] = A[globalRow * AY + tiledCol];` -/
def loadA (S : Sizes) (A : List R) (i : Item S) (t : ℕ) (m : Tiles S R) : Option (Tiles S R) := do
  let tiledCol ← flat S.TS t i.col
  let a ← A[← flat i.globalRow S.AY tiledCol]?
  some { m with Asub := setCell m.Asub i.col i.row ⟨a, some t⟩ }

/-- `Bsub[col][row] = B[tiledRow * BY + globalCol];` -/
def loadB (S : Sizes) (B : List R) (i : Item S) (t : ℕ) (m : Tiles S R) : Option (Tiles S R) := do
  let tiledRow ← flat S.TS t i.row
  let b ← B[← flat tiledRow S.BY i.globalCol]?
  some { m with Bsub := setCell m.Bsub i.col i.row ⟨b, some t⟩ }

/-- What a work-item does next. -/
def next (S : Sizes) (A B : List R) (i : Item S) :
    Pc S R → Next (Pc S R) (Tiles S R × Global S R)
  | .loop t acc =>
    if t < numTiles S then
      .act fun m => (loadA S A i t m.1).map (.loadB t acc, ·, m.2)
    else
      .act fun m => (m.2.storeEntry i acc).map (.done, m.1, ·)
  | .loadB t acc => .act fun m => (loadB S B i t m.1).map (.loaded t acc, ·, m.2)
  | .loaded t acc => .barrier (.inner t 0 acc)
  | .inner t k acc =>
    if h : k < S.TS then
      .act fun m => some (.mul t ⟨k, h⟩ acc (m.1.Asub ⟨k, h⟩ i.row).val, m)
    else
      .barrier (.loop (t + 1) acc)
  | .mul t k acc a =>
    .act fun m => some (.inner t (k + 1) (acc + a * (m.1.Bsub i.col k).val), m)
  | .done => .done

/-- `matrix_multiply` of gemm_localmem.cl -/
def matrixMultiply (S : Sizes) (A B : List R) :
    Kernel (Item S) (Group S) (Pc S R) (Tiles S R) (Global S R) where
  group := Prod.fst
  init _ := .loop 0 0
  next := next S A B

end Localmem

end Gemm
