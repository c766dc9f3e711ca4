import CppGraduate.Lib.CxxInt

/-!
# Buffers on the device

What the host programs use of the OpenCL wrapper: a buffer is created with a
size in bytes and holds anything, and elements are copied between an array of
the host and a buffer. A buffer of no bytes cannot be created.
-/

namespace Cl

open Cxx

variable {α : Type}

/-- `cl::Buffer` of so many bytes, for elements of the given size; `old` is
what the memory happens to hold. -/
def createBuffer (size bytes : ℕ) (old : ℕ → α) : Option (List α) :=
  if 0 < bytes then some ((List.range (bytes / size)).map old) else none

/-- `cl::copy`, of the first `n` elements. -/
def copy (n : ℕ) (src dst : List α) : Option (List α) :=
  if n ≤ src.length ∧ n ≤ dst.length then some (src.take n ++ dst.drop n) else none

/-- A buffer for `n` elements. -/
theorem createBuffer_mul {size n : ℕ} (hs : 0 < size) (hn : 0 < n) (old : ℕ → α) :
    createBuffer size (n * size) old = some ((List.range n).map old) := by
  unfold createBuffer
  rw [if_pos (Nat.mul_pos hn hs), Nat.mul_div_cancel _ hs]

/-- A buffer for no elements. -/
theorem createBuffer_zero (size : ℕ) (old : ℕ → α) : createBuffer size 0 old = none := rfl

/-- The length of a buffer. -/
theorem length_buffer (n : ℕ) (old : ℕ → α) : ((List.range n).map old).length = n := by
  rw [List.length_map, List.length_range]

/-- A copy of all elements. -/
theorem copy_all {n : ℕ} {src dst : List α} (hs : src.length = n) (hd : dst.length = n) :
    copy n src dst = some src := by
  unfold copy
  rw [if_pos ⟨Nat.le_of_eq hs.symm, Nat.le_of_eq hd.symm⟩,
    List.take_of_length_le (Nat.le_of_eq hs), List.drop_of_length_le (Nat.le_of_eq hd),
    List.append_nil]

/-- A product of sizes in the range of `int`. -/
theorem arith_mul_of_lt {X Y : ℕ} (h : X * Y < 2 ^ 31) :
    IntType.int.arith ((X : ℤ) * Y) = some ((X * Y : ℕ) : ℤ) := by
  have hlo : IntType.int.lo ≤ 0 := IntType.int.lo_nonpos
  have hhi : IntType.int.hi = 2 ^ 31 - 1 := by decide
  rw [← Int.natCast_mul]
  exact IntType.arith_of_inRange (by omega) (by omega)

/-- A product of sizes out of the range of `int`. -/
theorem arith_mul_of_le {X Y : ℕ} (h : 2 ^ 31 ≤ X * Y) : IntType.int.arith ((X : ℤ) * Y) = none := by
  have hhi : IntType.int.hi = 2 ^ 31 - 1 := by decide
  rw [← Int.natCast_mul]
  exact IntType.arith_signed_of_hi_lt rfl (by omega)

/-- A size of type `size_t`: the product of a count with the size of an
element, of at most eight bytes. -/
theorem arith_bytes {n size : ℕ} (hn : n < 2 ^ 31) (hs : size ≤ 8) :
    IntType.sizeT.arith ((n : ℤ) * size) = some ((n * size : ℕ) : ℤ) := by
  have hlo : IntType.sizeT.lo = 0 := by decide
  have hhi : IntType.sizeT.hi = 2 ^ 64 - 1 := by decide
  have hle : n * size ≤ 2 ^ 31 * 8 := Nat.mul_le_mul (Nat.le_of_lt hn) hs
  rw [← Int.natCast_mul]
  exact IntType.arith_of_inRange (by omega) (by omega)

/-- A count that is converted to `size_t`. -/
theorem convert_sizeT {n : ℕ} (h : n < 2 ^ 31) : IntType.sizeT.convert n = n := by
  have hlo : IntType.sizeT.lo = 0 := by decide
  have hhi : IntType.sizeT.hi = 2 ^ 64 - 1 := by decide
  exact IntType.convert_of_inRange (by omega) (by omega)

end Cl
