import Mathlib.Algebra.Group.Int.Defs
import Mathlib.Algebra.Group.Nat.Defs
import Mathlib.Data.Int.Notation
import Mathlib.Data.Nat.Notation
import Mathlib.Tactic.Common

/-!
# Bisection

A search for an integer at which a property ends: the property holds there
and does not hold for the next one. The search keeps a bracket and halves it.
The midpoint is rounded up, so that it is never the lower bound of a bracket
of two or more, and the midpoint itself stays in the bracket only when the
property holds of it.

Nothing is asked of the property. Where it is monotone, what is found is the
largest integer it holds of.
-/

namespace Bisection

variable {p : ℤ → Prop} {L H : ℤ}

/-- The midpoint, rounded up. -/
def middle (L H : ℤ) : ℤ := (L + H + 1) / 2

/-- **A bracket**: the property holds at its lower bound, and no more after
its upper bound. -/
structure Bracket (p : ℤ → Prop) (L H : ℤ) : Prop where
  le : L ≤ H
  holds : p L
  fails : ¬ p (H + 1)

/-- The integer found after so many halvings. -/
def bisect (p : ℤ → Prop) [DecidablePred p] : ℕ → ℤ → ℤ → ℤ
  | 0, L, _ => L
  | k + 1, L, H =>
    if L = H then L
    else if p (middle L H) then bisect p k (middle L H) H
    else bisect p k L (middle L H - 1)

/-- The midpoint lies above the lower bound. -/
theorem lt_middle (h : L < H) : L < middle L H := by
  unfold middle
  omega

/-- The midpoint lies within the bounds. -/
theorem middle_le (h : L ≤ H) : middle L H ≤ H := by
  unfold middle
  omega

/-- The midpoint of bounds that have met. -/
theorem middle_self (L : ℤ) : middle L L = L := by
  unfold middle
  omega

/-- What is left below the midpoint is at most half. -/
theorem half_left {k : ℕ} (h : H - L < 2 ^ (k + 1)) : middle L H - 1 - L < 2 ^ k := by
  have hpow : (2 : ℤ) ^ (k + 1) = 2 ^ k * 2 := Int.pow_succ 2 k
  unfold middle
  omega

/-- What is left from the midpoint on is at most half. -/
theorem half_right {k : ℕ} (h : H - L < 2 ^ (k + 1)) : H - middle L H < 2 ^ k := by
  have hpow : (2 : ℤ) ^ (k + 1) = 2 ^ k * 2 := Int.pow_succ 2 k
  unfold middle
  omega

/-- The lower half, where the property does not hold at the midpoint. -/
theorem Bracket.left (hB : Bracket p L H) (hlt : L < H) (hmid : ¬ p (middle L H)) :
    Bracket p L (middle L H - 1) where
  le := Int.le_sub_one_of_lt (lt_middle hlt)
  holds := hB.holds
  fails := by rwa [Int.sub_add_cancel]

/-- The upper half, where it does. -/
theorem Bracket.right (hB : Bracket p L H) (hmid : p (middle L H)) : Bracket p (middle L H) H where
  le := middle_le hB.le
  holds := hmid
  fails := hB.fails

/-- A bracket of width less than one is a single integer. -/
theorem Bracket.eq (hB : Bracket p L H) (h : H - L < 2 ^ 0) : L = H := by
  have := hB.le
  omega

/-- **Bisection finds where the property ends**, in as many halvings as the
width has binary digits. -/
theorem bisect_spec [DecidablePred p] {k : ℕ} (hB : Bracket p L H) (hk : H - L < 2 ^ k) :
    p (bisect p k L H) ∧ ¬ p (bisect p k L H + 1) := by
  induction k generalizing L H with
  | zero =>
    have hfails := hB.fails
    rw [← hB.eq hk] at hfails
    exact ⟨hB.holds, hfails⟩
  | succ k ih =>
    unfold bisect
    split_ifs with heq hmid
    · subst heq
      exact ⟨hB.holds, hB.fails⟩
    · exact ih (hB.right hmid) (half_right hk)
    · exact ih (hB.left (Int.lt_iff_le_and_ne.mpr ⟨hB.le, heq⟩) hmid) (half_left hk)

end Bisection
