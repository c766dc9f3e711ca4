import Mathlib.Data.List.Basic
import Mathlib.Tactic.Common

/-!
# Moving a block of a sequence

`repose` moves the block `[first, last)` before a position of the same
sequence with one `std::rotate`. A position strictly inside the block is meant
to be refused, but the guard asks for `last < pos && first > pos`, which no
block satisfies: such a position reaches `std::rotate(first, last, pos)` with
`pos` before `last`, where the result is undefined.

What a move is, is said without rotations: the elements outside the block that
were before the position, then the block, then the other elements outside it
(`moved`). **Main result** (`repose_contract_iff`): the call does what it is for
exactly when the position is not strictly inside the block.
-/

namespace Algorithms

variable {α : Type*}

/-! ## The function -/

/-- `std::rotate`: the elements of `[middle, last)` change places with those of
`[first, middle)`. Undefined unless `first ≤ middle ≤ last`, all in the
sequence. -/
def rotate (first middle last : ℕ) (xs : List α) : Option (List α) :=
  if first ≤ middle ∧ middle ≤ last ∧ last ≤ xs.length then
    some (xs.take first ++ (xs.take last).drop middle ++ (xs.take middle).drop first
      ++ xs.drop last)
  else none

/-- **Reposing `[first, last)` before `pos`**: how the call ends, with the
sequence it leaves; `none` where it is undefined. -/
def repose (first last pos : ℕ) (xs : List α) : Option (Except String Unit × List α) :=
  if first = pos ∨ last = pos then some (.ok (), xs)
  else if last < pos ∧ first > pos then
    some (.error "Can not move to position inside interval", xs)
  else if first < pos then do
    let ys ← rotate first last pos xs
    return (.ok (), ys)
  else do
    let ys ← rotate pos first last xs
    return (.ok (), ys)

/-! ## What it is for -/

/-- The elements at the positions with a property, in order. -/
def select (p : ℕ → Bool) (xs : List α) : List α :=
  (xs.zipIdx.filter (fun e => p e.2)).map Prod.fst

/-- Whether a position is in the block. -/
def inBlock (first last i : ℕ) : Bool := first ≤ i && i < last

/-- The sequence with the block before `pos`: it and the elements outside it
keep their order. -/
def moved (first last pos : ℕ) (xs : List α) : List α :=
  select (fun i => i < pos && !inBlock first last i) xs ++ select (inBlock first last) xs ++
    select (fun i => pos ≤ i && !inBlock first last i) xs

/-- **What a call is for**: it refuses a position strictly inside the block,
leaving the sequence as it is, and moves the block otherwise. -/
def Contract (first last pos : ℕ) (xs : List α) : Prop :=
  if first < pos ∧ pos < last then ∃ e, repose first last pos xs = some (.error e, xs)
  else repose first last pos xs = some (.ok (), moved first last pos xs)

/-! ## Selecting -/

/-- Selecting goes through a concatenation, with the positions of the second
part shifted. -/
theorem select_append (p : ℕ → Bool) (xs ys : List α) :
    select p (xs ++ ys) = select p xs ++ select (fun i => p (xs.length + i)) ys := by
  simp only [select, List.zipIdx_append, List.filter_append, List.map_append, Nat.zero_add]
  congr 1
  rw [List.zipIdx_eq_map_add, List.filter_map, List.map_map]
  congr 1

/-- All positions selected. -/
theorem select_all {p : ℕ → Bool} (xs : List α) (h : ∀ i, i < xs.length → p i = true) :
    select p xs = xs := by
  rw [select, List.filter_eq_self.mpr, List.zipIdx_map_fst]
  rintro ⟨x, i⟩ hx
  exact h i (by simpa using (List.mem_zipIdx hx).2.1)

/-- No position selected. -/
theorem select_none {p : ℕ → Bool} (xs : List α) (h : ∀ i, i < xs.length → p i = false) :
    select p xs = [] := by
  rw [select, List.filter_eq_nil_iff.mpr, List.map_nil]
  rintro ⟨x, i⟩ hx
  have hi : i < xs.length := by simpa using (List.mem_zipIdx hx).2.1
  simp [h i hi]

/-- A sequence cut at three positions. -/
theorem exists_cuts {i j k : ℕ} {xs : List α} (hij : i ≤ j) (hjk : j ≤ k) (hk : k ≤ xs.length) :
    ∃ a b c d, xs = a ++ b ++ c ++ d ∧ a.length = i ∧ b.length = j - i ∧ c.length = k - j := by
  refine ⟨xs.take i, (xs.take j).drop i, (xs.take k).drop j, xs.drop k, ?_, ?_, ?_, ?_⟩
  · have h1 : xs.take i ++ (xs.take j).drop i = xs.take j := by
      conv_rhs => rw [← List.take_append_drop i (xs.take j), List.take_take, Nat.min_eq_left hij]
    have h2 : xs.take j ++ (xs.take k).drop j = xs.take k := by
      conv_rhs => rw [← List.take_append_drop j (xs.take k), List.take_take, Nat.min_eq_left hjk]
    rw [h1, h2, List.take_append_drop]
  · simp; omega
  · simp; omega
  · simp; omega

/-- Rotating at the cuts exchanges the two parts between them. -/
theorem rotate_append (a b c d : List α) :
    rotate a.length (a.length + b.length) (a.length + b.length + c.length) (a ++ b ++ c ++ d)
      = some (a ++ c ++ b ++ d) := by
  have hab : (a ++ b).length = a.length + b.length := List.length_append
  have habc : (a ++ b ++ c).length = a.length + b.length + c.length := by
    simp [Nat.add_assoc]
  have ha : (a ++ b ++ c ++ d).take a.length = a := by simp
  have hb : (a ++ b ++ c ++ d).take (a.length + b.length) = a ++ b := by
    rw [List.append_assoc (a ++ b), ← hab, List.take_left']
    rfl
  have hc : (a ++ b ++ c ++ d).take (a.length + b.length + c.length) = a ++ b ++ c := by
    rw [← habc, List.take_left']
    rfl
  have hd : (a ++ b ++ c ++ d).drop (a.length + b.length + c.length) = d := by
    rw [← habc, List.drop_left']
    rfl
  rw [rotate, if_pos ⟨by omega, by omega, by simp [Nat.add_assoc]⟩, ha, hb, hc, hd,
    List.drop_left' rfl, List.drop_left' hab]

/-! ## Moving -/

/-- A position before the block: the elements between them come after it. -/
theorem moved_append_before (a b c d : List α) :
    moved (a.length + b.length) (a.length + b.length + c.length) a.length (a ++ b ++ c ++ d)
      = a ++ c ++ b ++ d := by
  simp only [moved, select_append, List.length_append]
  rw [select_all a, select_none b, select_none c, select_none d,
    select_none a, select_none b, select_all c, select_none d,
    select_none a, select_all b, select_none c, select_all d]
  · simp
  all_goals
    intro i hi
    simp only [inBlock, Bool.and_eq_true, Bool.and_eq_false_iff, Bool.not_eq_true',
      Bool.not_eq_false', decide_eq_true_eq, decide_eq_false_iff_not]
    omega

/-- A position after the block: the elements between them come before it. -/
theorem moved_append_after (a b c d : List α) :
    moved a.length (a.length + b.length) (a.length + b.length + c.length) (a ++ b ++ c ++ d)
      = a ++ c ++ b ++ d := by
  simp only [moved, select_append, List.length_append]
  rw [select_all a, select_none b, select_all c, select_none d,
    select_none a, select_all b, select_none c, select_none d,
    select_none a, select_none b, select_none c, select_all d]
  · simp
  all_goals
    intro i hi
    simp only [inBlock, Bool.and_eq_true, Bool.and_eq_false_iff, Bool.not_eq_true',
      Bool.not_eq_false', decide_eq_true_eq, decide_eq_false_iff_not]
    omega

/-- **Outside the block's inside, the block is moved.** -/
theorem repose_of_outside {first last pos : ℕ} {xs : List α} (hblock : first ≤ last)
    (hlast : last ≤ xs.length) (hpos : pos ≤ xs.length) (hout : pos ≤ first ∨ last ≤ pos) :
    repose first last pos xs = some (.ok (), moved first last pos xs) := by
  rcases hout with h | h
  · -- the position is at or before the block
    obtain ⟨a, b, c, d, rfl, rfl, hb, hc⟩ := exists_cuts h hblock hlast
    obtain rfl : first = a.length + b.length := by omega
    obtain rfl : last = a.length + b.length + c.length := by omega
    rw [moved_append_before]
    unfold repose
    split_ifs with heq hguard hlt
    · -- where nothing is done, nothing is between, or there is no block
      rcases heq with heq | heq
      · rw [List.eq_nil_of_length_eq_zero (show b.length = 0 by omega)]
        simp
      · rw [List.eq_nil_of_length_eq_zero (show b.length = 0 by omega),
          List.eq_nil_of_length_eq_zero (show c.length = 0 by omega)]
    · omega
    · omega
    · rw [rotate_append]
      rfl
  · -- the position is at or after the block
    obtain ⟨a, b, c, d, rfl, rfl, hb, hc⟩ := exists_cuts hblock h hpos
    obtain rfl : last = a.length + b.length := by omega
    obtain rfl : pos = a.length + b.length + c.length := by omega
    rw [moved_append_after]
    unfold repose
    split_ifs with heq hguard hlt
    · rcases heq with heq | heq
      · rw [List.eq_nil_of_length_eq_zero (show b.length = 0 by omega),
          List.eq_nil_of_length_eq_zero (show c.length = 0 by omega)]
      · rw [List.eq_nil_of_length_eq_zero (show c.length = 0 by omega)]
        simp
    · omega
    · rw [rotate_append]
      rfl
    · omega

/-- Strictly inside, the guard lets the position through and the rotation is
undefined. -/
theorem repose_of_inside {first last pos : ℕ} {xs : List α} (hfirst : first < pos)
    (hlast : pos < last) : repose first last pos xs = none := by
  rw [repose, if_neg (by omega), if_neg (by omega), if_pos hfirst, rotate, if_neg (by omega)]
  rfl

/-- **Main result**: `repose` does what it is for exactly when the position is
not strictly inside the block. -/
theorem repose_contract_iff (first last pos : ℕ) (xs : List α) (hblock : first ≤ last)
    (hlast : last ≤ xs.length) (hpos : pos ≤ xs.length) :
    Contract first last pos xs ↔ ¬ (first < pos ∧ pos < last) := by
  unfold Contract
  constructor
  · rintro h hin
    rw [if_pos hin, repose_of_inside hin.1 hin.2] at h
    obtain ⟨e, he⟩ := h
    exact absurd he (by simp)
  · intro hin
    rw [if_neg hin]
    exact repose_of_outside hblock hlast hpos (by omega)

/-- Moving the middle of five elements to the front. -/
theorem repose_contract_iff_example :
    Contract 1 3 0 [10, 20, 30, 40, 50] ↔ ¬ (1 < 0 ∧ 0 < 3) :=
  repose_contract_iff 1 3 0 [10, 20, 30, 40, 50] (by decide) (by decide) (by decide)

/-- A position inside a block of two elements is not refused. -/
theorem repose_inside_counterexample :
    ¬ ∀ (xs : List ℕ) (first last pos : ℕ), first ≤ last → last ≤ xs.length → pos ≤ xs.length →
      Contract first last pos xs := by
  intro h
  obtain ⟨e, he⟩ := h [10, 20] 0 2 1 (by decide) (by decide) (by decide)
  exact absurd he (by simp [repose, rotate])

end Algorithms
