import CppGraduate.Compute.HistKernels

/-!
# Loops in strides

Items numbered from zero to `m` share the indices below `n`: item `r` begins
with `r` and goes on in steps of `m`. The indices it has come to are those
below its variable that leave the remainder `r`, each once (`lt_add_iff`).

The variable is of type `int`, and so is the step. It leaves the loop at an
index of at most `n + m - 1`, and some item does at just that index. So the
loop ends for all items if and only if `n + m` is at most `2 ^ 31`:
`AllLeave` says that it ends for all of them, and `le_of_allLeave` what
follows.
-/

namespace Hist

open Cxx

/-! ## Natural numbers -/

/-- **An item in its loop**: the variable has the remainder of the item. -/
structure InStride (r m n : ℕ) (i : ℤ) : Prop where
  nonneg : 0 ≤ i
  rem : i.toNat % m = r
  lt : i.toNat < n + m

/-- The items begin in their loops. -/
theorem InStride.start {r m : ℕ} (n : ℕ) (h : r < m) : InStride r m n r :=
  ⟨Int.natCast_nonneg r, Nat.mod_eq_of_lt h, by
    rw [Int.toNat_natCast]
    exact Nat.lt_add_left n h⟩

/-- One step in the loop. -/
theorem InStride.next {r m n : ℕ} {i : ℤ} (h : InStride r m n i) (hi : i < n) :
    InStride r m n (i + m) := by
  have hnat : (i + m).toNat = i.toNat + m := by
    have := h.nonneg
    omega
  have hnn := h.nonneg
  refine ⟨by omega, ?_, by omega⟩
  rw [hnat, Nat.add_mod_right]
  exact h.rem

/-- Two numbers with the same remainder are at least one step apart. -/
theorem add_le_of_mod_eq {m a b : ℕ} (h : a % m = b % m) (hlt : a < b) : a + m ≤ b := by
  have hdvd : m ∣ b - a := Nat.dvd_of_mod_eq_zero (Nat.sub_mod_eq_zero_of_mod_eq h.symm)
  have := Nat.le_of_dvd (by omega) hdvd
  omega

/-- **The indices before the next one**: one more with the item's remainder. -/
theorem lt_add_iff {r m k b : ℕ} (hm : 0 < m) (hk : k % m = r) (hb : b % m = r) :
    b < k + m ↔ b < k ∨ b = k := by
  constructor
  · intro hlt
    by_contra hne
    have := add_le_of_mod_eq (hk.trans hb.symm) (by omega)
    omega
  · rintro (h | rfl)
    · exact Nat.lt_add_right m h
    · exact Nat.lt_add_of_pos_right hm

/-! ## Values of type int -/

/-- A number in the range of `int` is converted to itself. -/
theorem convert_natCast {n : ℕ} (h : n < 2 ^ 31) : IntType.int.convert n = n := by
  have hlo : IntType.int.lo ≤ 0 := IntType.int.lo_nonpos
  have hhi : IntType.int.hi = 2 ^ 31 - 1 := by decide
  exact IntType.convert_of_inRange (by omega) (by omega)

/-- A sum in the range of `int`. -/
theorem advance_of_lt {i step : ℤ} (h₀ : 0 ≤ i + step) (h : i + step < 2 ^ 31) :
    advance i step = some (i + step) := by
  have hlo : IntType.int.lo ≤ 0 := IntType.int.lo_nonpos
  have hhi : IntType.int.hi = 2 ^ 31 - 1 := by decide
  exact IntType.arith_of_inRange (by omega) (by omega)

/-- The next index of an item that stays in the range of `int`. -/
theorem InStride.advance {r m n : ℕ} {i : ℤ} (h : InStride r m n i) (hi : i < n)
    (hmn : n + m ≤ 2 ^ 31) : advance i m = some (i + m) :=
  advance_of_lt (by have := h.nonneg; omega) (by omega)

/-- A sum that has a result is exact and in the range of `int`. -/
theorem of_advance {i step j : ℤ} (h : advance i step = some j) : j = i + step ∧ j < 2 ^ 31 := by
  have hhi : IntType.int.hi = 2 ^ 31 - 1 := by decide
  unfold advance IntType.arith at h
  rw [if_pos (show IntType.int.signed = true from rfl)] at h
  split at h
  · next hr =>
    obtain rfl := Option.some.inj h
    exact ⟨rfl, by omega⟩
  · cases h

/-- The indices an item comes to in a loop up to `n`, as long as they are
indices. -/
inductive Comes (start step : ℤ) (n : ℕ) : ℤ → Prop
  | start : Comes start step n start
  | next {i j : ℤ} (h : Comes start step n i) (h₀ : 0 ≤ i) (hlt : i < n)
      (hj : advance i step = some j) : Comes start step n j

/-- **An item leaves its loop** at some index. -/
def Leaves (start step : ℤ) (n : ℕ) : Prop := ∃ i, Comes start step n i ∧ n ≤ i

/-- **All of `m` items leave their loops**, numbers and step being converted
to `int`. -/
def AllLeave (m n : ℕ) : Prop :=
  ∀ r < m, Leaves (IntType.int.convert r) (IntType.int.convert m) n

/-- An item with a number that is converted to a negative one is not in a
loop. -/
theorem Comes.eq_start {start step : ℤ} {n : ℕ} {i : ℤ} (h : Comes start step n i)
    (hneg : start < 0) : i = start := by
  induction h with
  | start => rfl
  | next _ h₀ _ _ ih => omega

/-- A step that is converted to a negative one leads below zero. -/
theorem Comes.lt_of_neg {step : ℤ} {n : ℕ} {i : ℤ} (h : Comes 0 step n i) (hn : 0 < n)
    (hneg : step ≤ -2 ^ 31) (hlt : n < 2 ^ 31) : i < n := by
  cases h with
  | start => omega
  | next _ _ hi hj =>
    obtain ⟨rfl, -⟩ := of_advance hj
    omega

/-- The indices an item comes to have its remainder and are in range. -/
theorem Comes.rem {r m n : ℕ} {i : ℤ} (h : Comes r m n i) (hr : r < 2 ^ 31) :
    0 ≤ i ∧ i < 2 ^ 31 ∧ i.toNat % m = r % m := by
  induction h with
  | start => exact ⟨Int.natCast_nonneg r, by omega, by rw [Int.toNat_natCast]⟩
  | next _ h₀ _ hj ih =>
    obtain ⟨rfl, hlt⟩ := of_advance hj
    refine ⟨by omega, hlt, ?_⟩
    rw [Int.toNat_add h₀ (Int.natCast_nonneg m), Int.toNat_natCast, Nat.add_mod_right]
    exact ih.2.2

/-- **If all items leave their loops, no variable overflows**: the item that
comes to the last index would go beyond the range, and so would numbers and
sizes that are not in the range themselves. -/
theorem le_of_allLeave {m n : ℕ} (hm : 0 < m) (hn : n < 2 ^ 31) (h : AllLeave m n) :
    n + m ≤ 2 ^ 31 := by
  by_contra hgt
  have hconv : IntType.int.convert (2 ^ 31 : ℕ) = -2 ^ 31 := by decide
  rcases lt_trichotomy m (2 ^ 31) with hlt | rfl | hlt
  · -- the item that comes to `n - 1` leaves the loop at `n - 1 + m` or later
    obtain ⟨i, hi, hni⟩ := h ((n - 1) % m) (Nat.mod_lt _ hm)
    have hr : (n - 1) % m < m := Nat.mod_lt _ hm
    rw [convert_natCast (hr.trans hlt), convert_natCast hlt] at hi
    obtain ⟨h₀, hi31, hrem⟩ := hi.rem (hr.trans hlt)
    rw [Nat.mod_mod] at hrem
    have := add_le_of_mod_eq hrem.symm (by omega)
    omega
  · obtain ⟨i, hi, hni⟩ := h 0 hm
    rw [hconv] at hi
    have := Comes.lt_of_neg (show Comes 0 _ _ _ from hi) (by omega) le_rfl hn
    omega
  · obtain ⟨i, hi, hni⟩ := h (2 ^ 31) hlt
    rw [hconv] at hi
    have := hi.eq_start (by decide)
    omega

end Hist
