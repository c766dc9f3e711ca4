import CppGraduate.Lib.Bisection
import CppGraduate.Lib.CxxInt
import Mathlib.Tactic.Linarith

/-!
# The integer square root of templates

`Sqrt<N>` of `isqrt.cc` bisects at compile time. Where a specialization
`Sqrt<N, L, H>` is named, its default argument `mid` is computed. Where it is
instantiated, it either is the partial specialization `Sqrt<N, S, S, S>`, or
it names both halves and takes the value of one of them. Everything is of
type `int`, and a constant expression that overflows is an error.

**Main result**: `isqrtCorrect_iff`. The value is the square root for every
`N` from 1 to 92679. For 0 the bracket is empty, and `Sqrt<0, 1, 0>` is its
own lower half; from 92680 on the first `mid * mid` overflows.
-/

namespace Constexpr

open Cxx Bisection

/-! ## The templates -/

/-- **A specialization** `Sqrt<N, L, H, mid>`. -/
structure Sqrt where
  /-- `N` -/
  N : ℤ
  /-- `L` -/
  L : ℤ
  /-- `H` -/
  H : ℤ
  /-- `mid` -/
  mid : ℤ
deriving DecidableEq

namespace Sqrt

/-- `Sqrt<N, L, H>`, where `mid` is `(L + H + 1) / 2`. -/
def named (N L H : ℤ) : Option Sqrt := do
  let sum ← IntType.int.arith (L + H)
  let sum ← IntType.int.arith (sum + 1)
  let mid ← IntType.int.arith (sum.tdiv 2)
  some ⟨N, L, H, mid⟩

/-- **An instantiation**: a value of its own, or the specialization it takes
its value from. -/
def instantiate (s : Sqrt) : Option (ℤ ⊕ Sqrt) :=
  if s.L = s.H ∧ s.H = s.mid then some (Sum.inl s.L)
  else do
    let square ← IntType.int.arith (s.mid * s.mid)
    let last ← IntType.int.arith (s.mid - 1)
    let lower ← named s.N s.L last
    let upper ← named s.N s.mid s.H
    some (Sum.inr (if s.N < square then lower else upper))

/-- The value, when it takes at most so many instantiations. -/
def value : ℕ → Sqrt → Option ℤ
  | 0, _ => none
  | n + 1, s =>
    match s.instantiate with
    | none => none
    | some (Sum.inl S) => some S
    | some (Sum.inr s') => value n s'

end Sqrt

/-- `Sqrt<N>`, where `L` is 1 and `H` is `N`. -/
def isqrt (n : ℕ) (N : ℤ) : Option ℤ := do
  let s ← Sqrt.named N 1 N
  s.value n

/-- **`Sqrt<N>` is the square root**: finitely many instantiations reach the
base case without an overflow, and its value is the root. -/
def IsqrtCorrect (N : ℤ) : Prop :=
  ∃ n r, isqrt n N = some r ∧ r * r ≤ N ∧ N < (r + 1) * (r + 1)

namespace Sqrt

variable {N L H : ℤ}

/-! ## Naming and instantiating -/

/-- The bounds of `int`. -/
theorem int_bounds : IntType.int.lo = -2147483648 ∧ IntType.int.hi = 2147483647 := by decide

/-- The midpoint of bounds whose sum is in range. -/
theorem named_of_le (hL : 1 ≤ L) (hH : 1 ≤ H) (h : L + H + 1 ≤ IntType.int.hi) :
    named N L H = some ⟨N, L, H, middle L H⟩ := by
  obtain ⟨hlo, hhi⟩ := int_bounds
  unfold named middle
  rw [IntType.arith_of_inRange (by omega) (by omega), Option.bind_eq_bind, Option.bind_some,
    IntType.arith_of_inRange (by omega) h, Option.bind_some,
    Int.tdiv_eq_ediv_of_nonneg (by omega), IntType.arith_of_inRange (by omega) (by omega)]
  rfl

/-- What is named has its default argument in range. -/
theorem of_named {s : Sqrt} (h : named N L H = some s) (hL : 0 ≤ L) (hH : 0 ≤ H) :
    s = ⟨N, L, H, middle L H⟩ := by
  obtain ⟨sum, hsum, h⟩ := Option.bind_eq_some_iff.mp h
  obtain ⟨sum', hsum', h⟩ := Option.bind_eq_some_iff.mp h
  obtain ⟨m, hm, h⟩ := Option.bind_eq_some_iff.mp h
  obtain ⟨rfl, -⟩ := IntType.of_arith_signed rfl hsum
  obtain ⟨rfl, -⟩ := IntType.of_arith_signed rfl hsum'
  obtain ⟨rfl, -⟩ := IntType.of_arith_signed rfl hm
  rw [Int.tdiv_eq_ediv_of_nonneg (by omega)] at h
  exact (Option.some.inj h).symm

/-- The base case. -/
theorem instantiate_self : instantiate ⟨N, L, L, middle L L⟩ = some (Sum.inl L) :=
  if_pos ⟨rfl, (middle_self L).symm⟩

/-- **The recursive case**, where nothing overflows. -/
theorem instantiate_of_lt (hL : 1 ≤ L) (hlt : L < H) (hmid : middle L H ≤ 46340) (hH : H ≤ 92679) :
    instantiate ⟨N, L, H, middle L H⟩
      = some (Sum.inr (if middle L H * middle L H ≤ N then ⟨N, middle L H, H, middle (middle L H) H⟩
        else ⟨N, L, middle L H - 1, middle L (middle L H - 1)⟩)) := by
  obtain ⟨hlo, hhi⟩ := int_bounds
  have hgt := lt_middle hlt
  have hle := middle_le hlt.le
  have hsq : middle L H * middle L H ≤ 46340 * 46340 := by nlinarith
  have hpos : 0 ≤ middle L H * middle L H := by nlinarith
  unfold instantiate
  rw [if_neg (fun h => hlt.ne h.1)]
  show Option.bind (IntType.int.arith (middle L H * middle L H)) _ = _
  rw [IntType.arith_of_inRange (by omega) (by omega), Option.bind_some]
  show Option.bind (IntType.int.arith (middle L H - 1)) _ = _
  rw [IntType.arith_of_inRange (by omega) (by omega), Option.bind_some]
  show Option.bind (named N L (middle L H - 1)) _ = _
  rw [named_of_le hL (by omega) (by omega), Option.bind_some]
  show Option.bind (named N (middle L H) H) _ = _
  rw [named_of_le (by omega) (by omega) (by omega), Option.bind_some, ← ite_not]
  simp only [not_lt]

/-- The value where an instantiation takes it from another. -/
theorem value_succ_inr {s s' : Sqrt} (n : ℕ) (h : s.instantiate = some (Sum.inr s')) :
    value (n + 1) s = value n s' := by
  rw [value, h]

/-! ## Bisection -/

/-- **The instantiations bisect**: as long as the midpoint has a square in
range, and the upper half is taken only where its midpoints have too. -/
theorem value_eq_bisect {k : ℕ} (hL : 1 ≤ L) (hle : L ≤ H) (hmid : middle L H ≤ 46340)
    (hH : H ≤ 92679) (hright : middle L H * middle L H ≤ N → H ≤ 46340) (hk : H - L < 2 ^ k) :
    value (k + 1) ⟨N, L, H, middle L H⟩ = some (bisect (fun r => r * r ≤ N) k L H) := by
  induction k generalizing L H with
  | zero =>
    have heq : L = H := by omega
    subst heq
    rw [value, instantiate_self]
    rfl
  | succ k ih =>
    rcases hle.eq_or_lt with rfl | hlt
    · rw [value, instantiate_self, bisect, if_pos rfl]
    · have hgt := lt_middle hlt
      rw [value_succ_inr _ (instantiate_of_lt hL hlt hmid hH), bisect, if_neg hlt.ne]
      by_cases hsq : middle L H * middle L H ≤ N
      · rw [if_pos hsq, if_pos hsq]
        have hH' : H ≤ 46340 := hright hsq
        have hmid' : middle (middle L H) H ≤ H := middle_le (middle_le hle)
        exact ih (by omega) (middle_le hle) (hmid'.trans hH') hH (fun _ => hH') (half_right hk)
      · rw [if_neg hsq, if_neg hsq]
        have hmid' : middle L (middle L H - 1) ≤ middle L H - 1 := middle_le (by omega)
        exact ih hL (by omega) (by omega) (by omega) (fun _ => by omega) (half_left hk)

/-! ## The root -/

/-- The bracket `Sqrt<N>` starts with. -/
theorem bracket_one (h : 1 ≤ N) : Bracket (fun r => r * r ≤ N) 1 N where
  le := h
  holds := h
  fails := by
    show ¬ (N + 1) * (N + 1) ≤ N
    nlinarith

/-- **Eighteen instantiations are enough** up to 92679. -/
theorem isqrt_of_le (h : 1 ≤ N) (hN : N ≤ 92679) :
    isqrt 18 N = some (bisect (fun r => r * r ≤ N) 17 1 N) := by
  obtain ⟨-, hhi⟩ := int_bounds
  unfold isqrt
  rw [named_of_le (le_refl 1) h (by omega), Option.bind_eq_bind, Option.bind_some]
  have hmid : middle 1 N ≤ 46340 := by
    unfold middle
    omega
  refine value_eq_bisect (le_refl 1) h hmid hN (fun hsq => ?_) (by omega)
  -- the first midpoint is too large by itself
  by_contra hlt
  have hlarge : 23171 ≤ middle 1 N := by
    unfold middle
    omega
  nlinarith

/-- The smallest bracket is empty, and its lower half is the bracket
itself. -/
theorem value_zero (n : ℕ) : value n ⟨0, 1, 0, 1⟩ = none := by
  induction n with
  | zero => rfl
  | succ n ih =>
    have hself : instantiate ⟨0, 1, 0, 1⟩ = some (Sum.inr ⟨0, 1, 0, 1⟩) := by decide
    rw [value_succ_inr n hself, ih]

/-- **Where there is a value**, the square of the first midpoint is in
range. -/
theorem le_of_isqrt {n : ℕ} {r : ℤ} (h₀ : 0 ≤ N) (h : isqrt n N = some r) :
    1 ≤ N ∧ N ≤ 92679 := by
  obtain ⟨-, hhi⟩ := int_bounds
  obtain ⟨s, hs, h⟩ := Option.bind_eq_some_iff.mp h
  obtain rfl := of_named hs (Int.zero_le_ofNat 1) h₀
  constructor
  · by_contra hlt
    obtain rfl : N = 0 := by omega
    have hnone : value n ⟨0, 1, 0, middle 1 0⟩ = none := value_zero n
    rw [hnone] at h
    cases h
  · by_contra hlt
    cases n with
    | zero => cases h
    | succ n =>
      have hmid : 46341 ≤ middle 1 N := by
        unfold middle
        omega
      have hnone : instantiate ⟨N, 1, N, middle 1 N⟩ = none := by
        unfold instantiate
        rw [if_neg fun h => absurd (h.1 : 1 = N) (by omega)]
        show Option.bind (IntType.int.arith (middle 1 N * middle 1 N)) _ = _
        rw [IntType.arith_signed_of_hi_lt rfl (by nlinarith)]
        rfl
      rw [value, hnone] at h
      cases h

end Sqrt

open Sqrt

/-- **`Sqrt<N>` is the square root of `N`** if and only if `N` is at least 1
and at most 92679. -/
theorem isqrtCorrect_iff (N : ℤ) (h₀ : 0 ≤ N) (_ : N ≤ IntType.int.hi) :
    IsqrtCorrect N ↔ 1 ≤ N ∧ N ≤ 92679 := by
  constructor
  · rintro ⟨n, r, h, -⟩
    exact le_of_isqrt h₀ h
  · rintro ⟨h, hN⟩
    obtain ⟨hle, hlt⟩ := bisect_spec (k := 17) (bracket_one h) (by omega)
    exact ⟨18, _, isqrt_of_le h hN, hle, not_le.mp hlt⟩

/-- The root that `main` prints. -/
theorem isqrtCorrect_sixteen : IsqrtCorrect 16 :=
  (isqrtCorrect_iff 16 (by decide) (by decide)).mpr (by decide)

/-- `Sqrt<0>` has no value. -/
theorem not_isqrtCorrect_zero : ¬ IsqrtCorrect 0 :=
  fun ⟨_, _, h, _⟩ => absurd (le_of_isqrt (le_refl 0) h).1 (by decide)

end Constexpr
