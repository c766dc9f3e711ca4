import Mathlib.Algebra.Group.Int.Defs
import Mathlib.Algebra.Group.Nat.Defs
import Mathlib.Data.Int.Notation
import Mathlib.Data.Nat.Notation
import Mathlib.Tactic.Common

/-!
# The integer types of C++ and their arithmetic

An integer type is a width and a signedness. Values are mathematical
integers in the type's range; arithmetic is carried out in the promoted
type, where unsigned results are reduced modulo a power of two and signed
results outside the range are undefined. `none` stands for that undefined
result, so a program that adds two values in this model says, by not being
`none`, that the addition was defined.

The widths are those of the usual 64-bit platforms: `char`, `short`, `int`
and `long`.
-/

namespace Cxx

/-- An integer type: its width in bits and whether it has negative
values. -/
structure IntType where
  /-- The number of bits. -/
  width : ℕ
  /-- Whether the type is signed. -/
  signed : Bool
  /-- The widths there are. -/
  width_mem : width = 8 ∨ width = 16 ∨ width = 32 ∨ width = 64
deriving DecidableEq

namespace IntType

/-- The type `int`. -/
def int : IntType := ⟨32, true, by decide⟩

/-- The type `unsigned`. -/
def unsigned : IntType := ⟨32, false, by decide⟩

/-- The type `char`, signed as on the usual platforms. -/
def char : IntType := ⟨8, true, by decide⟩

/-- The type `std::size_t`. -/
def sizeT : IntType := ⟨64, false, by decide⟩

/-- The type `std::ptrdiff_t`. -/
def ptrdiffT : IntType := ⟨64, true, by decide⟩

/-- The smallest value. -/
def lo (τ : IntType) : ℤ := if τ.signed then -2 ^ (τ.width - 1) else 0

/-- The largest value. -/
def hi (τ : IntType) : ℤ := if τ.signed then 2 ^ (τ.width - 1) - 1 else 2 ^ τ.width - 1

/-- A conversion to the type: the value of the range that is congruent to
`z`. -/
def convert (τ : IntType) (z : ℤ) : ℤ :=
  if τ.signed then (z + 2 ^ (τ.width - 1)) % 2 ^ τ.width - 2 ^ (τ.width - 1)
  else z % 2 ^ τ.width

/-- The type arithmetic is done in: what is narrower than `int` becomes
`int`, which holds all its values. -/
def promote (τ : IntType) : IntType := if τ.width < 32 then int else τ

/-- The usual arithmetic conversions: of two promoted types the wider one,
of two equally wide the unsigned one. -/
def common (τ υ : IntType) : IntType :=
  if τ.promote.width < υ.promote.width then υ.promote
  else if υ.promote.width < τ.promote.width then τ.promote
  else if τ.promote.signed then υ.promote else τ.promote

/-- The result of an operation of a promoted type whose exact result is
`z`; `none` when it is undefined. -/
def arith (τ : IntType) (z : ℤ) : Option ℤ :=
  if τ.signed then if τ.lo ≤ z ∧ z ≤ τ.hi then some z else none
  else some (τ.convert z)

/-- The increment `++z` of a variable of the type: computed in the promoted
type and converted back. -/
def incr (τ : IntType) (z : ℤ) : Option ℤ :=
  (τ.promote.arith (z + 1)).map τ.convert

/-! ## Values that are in range -/

/-- Converting a value of the type changes nothing. -/
theorem convert_of_inRange {τ : IntType} {z : ℤ} (hlo : τ.lo ≤ z) (hhi : z ≤ τ.hi) :
    τ.convert z = z := by
  obtain ⟨w, s, rfl | rfl | rfl | rfl⟩ := τ <;> cases s <;>
    simp [lo, hi, convert] at * <;> omega

/-- A result in the range of its type is what the operation yields. -/
theorem arith_of_inRange {τ : IntType} {z : ℤ} (hlo : τ.lo ≤ z) (hhi : z ≤ τ.hi) :
    τ.arith z = some z := by
  unfold arith
  simp [hlo, hhi, convert_of_inRange hlo hhi]

/-- Signed arithmetic above the range is undefined. -/
theorem arith_signed_of_hi_lt {τ : IntType} {z : ℤ} (hs : τ.signed = true) (hhi : τ.hi < z) :
    τ.arith z = none := by
  unfold arith
  rw [if_pos hs, if_neg (by omega)]

/-- Where signed arithmetic has a result, it is the exact one. -/
theorem of_arith_signed {τ : IntType} {z w : ℤ} (hs : τ.signed = true) (h : τ.arith z = some w) :
    w = z ∧ τ.lo ≤ z ∧ z ≤ τ.hi := by
  unfold arith at h
  rw [if_pos hs] at h
  split at h
  · exact ⟨(Option.some.inj h).symm, by assumption⟩
  · cases h

/-- Unsigned arithmetic is reduced modulo the number of values. -/
theorem arith_unsigned {τ : IntType} (hs : τ.signed = false) (z : ℤ) :
    τ.arith z = some (z % 2 ^ τ.width) := by
  simp [arith, convert, hs]

/-- The range of every type lies around zero. -/
theorem lo_nonpos (τ : IntType) : τ.lo ≤ 0 := by
  obtain ⟨w, s, rfl | rfl | rfl | rfl⟩ := τ <;> cases s <;> simp [lo]

/-- Every type has a positive value. -/
theorem hi_pos (τ : IntType) : 0 < τ.hi := by
  obtain ⟨w, s, rfl | rfl | rfl | rfl⟩ := τ <;> cases s <;> simp [hi]

/-- So `0` is a value of every type. -/
theorem zero_mem (τ : IntType) : τ.lo ≤ 0 ∧ 0 ≤ τ.hi := ⟨τ.lo_nonpos, Int.le_of_lt τ.hi_pos⟩

/-- Promotion keeps every value. -/
theorem range_promote (τ : IntType) : τ.promote.lo ≤ τ.lo ∧ τ.hi ≤ τ.promote.hi := by
  obtain ⟨w, s, rfl | rfl | rfl | rfl⟩ := τ <;> cases s <;> simp [lo, hi, promote, int]

/-- The values of an unsigned type are those below a power of two. -/
theorem hi_unsigned {τ : IntType} (hs : τ.signed = false) : τ.hi = 2 ^ τ.width - 1 := by
  simp [hi, hs]

/-- The smallest value of an unsigned type. -/
theorem lo_unsigned {τ : IntType} (hs : τ.signed = false) : τ.lo = 0 := by
  simp [lo, hs]

/-- A promoted type is unsigned only where the type itself is, and then it
is the same. -/
theorem promote_unsigned {τ : IntType} (hs : τ.promote.signed = false) : τ.promote = τ := by
  unfold promote at *
  split
  · rw [if_pos (by assumption)] at hs
    cases hs
  · rfl

/-- The unsigned types that are not narrower than `int`. -/
theorem eq_of_promote_unsigned {τ : IntType} (hs : τ.promote.signed = false) :
    τ = unsigned ∨ τ = sizeT := by
  obtain ⟨w, s, rfl | rfl | rfl | rfl⟩ := τ <;> cases s <;>
    simp [promote, int, unsigned, sizeT] at hs ⊢

/-- No value of a type exceeds `std::size_t`. -/
theorem hi_le_sizeT (τ : IntType) : τ.hi ≤ sizeT.hi := by
  obtain ⟨w, s, rfl | rfl | rfl | rfl⟩ := τ <;> cases s <;> simp [hi, sizeT]

/-- Arithmetic with a distance of iterators is done in a type that holds
the values of the other operand, promoted or not. -/
theorem range_common_ptrdiffT (τ : IntType) :
    (τ.common ptrdiffT).lo ≤ τ.lo ∧ τ.hi ≤ τ.promote.hi
      ∧ τ.promote.hi ≤ (τ.common ptrdiffT).hi := by
  obtain ⟨w, s, rfl | rfl | rfl | rfl⟩ := τ <;> cases s <;>
    simp [lo, hi, common, promote, int, ptrdiffT]

/-- A conversion yields a value of the type. -/
theorem convert_le_hi (τ : IntType) (z : ℤ) : τ.convert z ≤ τ.hi := by
  obtain ⟨w, s, rfl | rfl | rfl | rfl⟩ := τ <;> cases s <;> simp [convert, hi] <;> omega

/-! ## Counting up -/

/-- Below the largest value the increment adds one. -/
theorem incr_of_lt {τ : IntType} {z : ℤ} (hlo : τ.lo ≤ z) (hlt : z < τ.hi) :
    τ.incr z = some (z + 1) := by
  have hp := τ.range_promote
  unfold incr
  rw [arith_of_inRange (by omega) (by omega), Option.map_some,
    convert_of_inRange (by omega) (by omega)]

/-- An increment yields a value of the type. -/
theorem incr_le_hi {τ : IntType} {z z' : ℤ} (h : τ.incr z = some z') : z' ≤ τ.hi := by
  obtain ⟨w, -, rfl⟩ := Option.map_eq_some_iff.mp h
  exact τ.convert_le_hi w

/-- The increment of the largest value is undefined: it is for the signed
types that are not narrower than `int`. -/
def OverflowsAtHi (τ : IntType) : Prop := τ.signed = true ∧ 32 ≤ τ.width

instance (τ : IntType) : Decidable τ.OverflowsAtHi :=
  inferInstanceAs (Decidable (_ ∧ _))

/-- A type that overflows is not narrow: promotion keeps it. -/
theorem promote_of_overflows {τ : IntType} (h : τ.OverflowsAtHi) : τ.promote = τ := by
  unfold promote
  exact if_neg (Nat.not_lt.mpr h.2)

/-- At the largest value of a type that overflows there the increment is
undefined. -/
theorem incr_hi_of_overflows {τ : IntType} (h : τ.OverflowsAtHi) : τ.incr τ.hi = none := by
  unfold incr
  rw [promote_of_overflows h, arith_signed_of_hi_lt h.1 (by omega), Option.map_none]

/-- The range of any other type has no more values than the promoted type
has positive ones and zero. -/
theorem hi_sub_lo_le {τ : IntType} (h : ¬ τ.OverflowsAtHi) : τ.hi - τ.lo ≤ τ.promote.hi := by
  obtain ⟨w, s, rfl | rfl | rfl | rfl⟩ := τ <;> cases s <;>
    simp [OverflowsAtHi] at h <;> simp [promote, int, lo, hi]

/-- At the largest value of any other type the increment wraps around. -/
theorem incr_hi_isSome {τ : IntType} (h : ¬ τ.OverflowsAtHi) : (τ.incr τ.hi).isSome := by
  obtain ⟨w, s, rfl | rfl | rfl | rfl⟩ := τ <;> cases s <;>
    simp [OverflowsAtHi] at h <;> simp [incr, promote, int, arith, lo, hi]

end IntType

end Cxx
