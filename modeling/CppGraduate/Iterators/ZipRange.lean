import Mathlib.Data.List.Basic
import Mathlib.Tactic.Common

/-!
# Iterating two containers in parallel

A `zip_iterator_t` holds an iterator into each of two containers and advances
both. Two of them are equal when both components are, so the end of a
`zip_range_t` is reached only by an iterator that reaches both ends in the same
step: a loop over containers of different lengths leaves the shorter one.

**Main result** (`rangeFor_iff`): a range-based `for` over two containers visits
the pairs up to the end of the shorter one, and no further, exactly when
neither is the shorter.
-/

namespace Itertools

variable {α β : Type*}

/-- `zip_iterator_t`: a position in the keys and one in the values. A position
is the number of an element, or the length of its container at the end. -/
structure ZipIterator where
  /-- `Kit_`. -/
  kit : ℕ
  /-- `Vit_`. -/
  vit : ℕ
deriving DecidableEq

namespace ZipIterator

/-- `equals`, which `==` and `!=` go by. -/
def equals (lhs rhs : ZipIterator) : Bool := lhs.kit == rhs.kit && lhs.vit == rhs.vit

/-- `operator++`: advances both, neither from its end. -/
def incr (K : List α) (V : List β) (it : ZipIterator) : Option ZipIterator :=
  if it.kit < K.length ∧ it.vit < V.length then some ⟨it.kit + 1, it.vit + 1⟩ else none

/-- `operator*`: the two elements, of which there is none at an end. -/
def deref (K : List α) (V : List β) (it : ZipIterator) : Option (α × β) :=
  match K[it.kit]?, V[it.vit]? with
  | some k, some v => some (k, v)
  | _, _ => none

/-- What advancing does. -/
theorem incr_eq_some {K : List α} {V : List β} {it next : ZipIterator}
    (h : it.incr K V = some next) :
    it.kit < K.length ∧ it.vit < V.length ∧ next = ⟨it.kit + 1, it.vit + 1⟩ := by
  unfold incr at h
  split_ifs at h with hlt
  exact ⟨hlt.1, hlt.2, (Option.some.inj h).symm⟩

end ZipIterator

/-- `begin()` of the zipped range. -/
def zipBegin : ZipIterator := ⟨0, 0⟩

/-- `end()` of the zipped range. -/
def zipEnd (K : List α) (V : List β) : ZipIterator := ⟨K.length, V.length⟩

/-- A range-based `for` from an iterator on: what its body is given, in order;
`none` where an iterator is used at its end. -/
def rangeForFrom (K : List α) (V : List β) (it : ZipIterator) : Option (List (α × β)) :=
  if it.equals (zipEnd K V) then some []
  else
    match it.deref K V, _hnext : it.incr K V with
    | some both, some next => (rangeForFrom K V next).map (both :: ·)
    | _, _ => none
termination_by K.length - it.kit
decreasing_by
  obtain ⟨hlt, -, rfl⟩ := ZipIterator.incr_eq_some _hnext
  simp only
  omega

/-- **`for (auto &&both : make_zip_range(K, V))`**: the pairs visited. -/
def rangeFor (K : List α) (V : List β) : Option (List (α × β)) := rangeForFrom K V zipBegin

/-! ## The loop -/

/-- At the end of both containers the loop is over. -/
theorem rangeForFrom_end (K : List α) (V : List β) :
    rangeForFrom K V ⟨K.length, V.length⟩ = some [] := by
  rw [rangeForFrom, if_pos (by simp [ZipIterator.equals, zipEnd])]

/-- At the end of one container only, the loop goes on and uses its iterator. -/
theorem rangeForFrom_past {K : List α} {V : List β} {it : ZipIterator}
    (hone : it.kit = K.length ∧ it.vit ≠ V.length ∨ it.kit ≠ K.length ∧ it.vit = V.length) :
    rangeForFrom K V it = none := by
  have hne : it.equals (zipEnd K V) = false := by
    simp only [ZipIterator.equals, zipEnd, Bool.and_eq_false_iff, beq_eq_false_iff_ne]
    omega
  have hderef : it.deref K V = none := by
    rcases hone with ⟨h, -⟩ | ⟨-, h⟩
    · simp [ZipIterator.deref, h]
    · cases hk : K[it.kit]? <;> simp [ZipIterator.deref, h, hk]
  rw [rangeForFrom, hne, hderef]
  rfl

/-- Before both ends, the loop visits the two elements and advances. -/
theorem rangeForFrom_step {K : List α} {V : List β} {i j : ℕ} (hi : i < K.length)
    (hj : j < V.length) :
    rangeForFrom K V ⟨i, j⟩
      = (rangeForFrom K V ⟨i + 1, j + 1⟩).map ((K[i], V[j]) :: ·) := by
  have hne : ZipIterator.equals ⟨i, j⟩ (zipEnd K V) = false := by
    simp only [ZipIterator.equals, zipEnd, Bool.and_eq_false_iff, beq_eq_false_iff_ne]
    omega
  have hderef : ZipIterator.deref K V ⟨i, j⟩ = some (K[i], V[j]) := by
    simp [ZipIterator.deref, hi, hj]
  have hincr : ZipIterator.incr K V ⟨i, j⟩ = some ⟨i + 1, j + 1⟩ := if_pos ⟨hi, hj⟩
  rw [rangeForFrom, hne]
  simp only [Bool.false_eq_true, if_false]
  split
  · rename_i both next hboth hnext
    obtain rfl := Option.some.inj (hderef.symm.trans hboth)
    obtain rfl := Option.some.inj (hincr.symm.trans hnext)
    rfl
  · rename_i hstuck
    exact absurd hincr (hstuck _ _ hderef)

/-- **What a loop from inside visits**: the rest of both containers in
parallel where they have equally much of it, and otherwise nothing that is
defined. -/
theorem rangeForFrom_eq (K : List α) (V : List β) (i j : ℕ) (hi : i ≤ K.length)
    (hj : j ≤ V.length) :
    rangeForFrom K V ⟨i, j⟩
      = if K.length - i = V.length - j then some ((K.drop i).zip (V.drop j)) else none := by
  rcases Nat.lt_or_eq_of_le hi with hi | rfl
  · rcases Nat.lt_or_eq_of_le hj with hj | rfl
    · rw [rangeForFrom_step hi hj, rangeForFrom_eq K V (i + 1) (j + 1) hi hj]
      by_cases hlen : K.length - i = V.length - j
      · rw [if_pos (by omega), if_pos hlen, List.drop_eq_getElem_cons hi,
          List.drop_eq_getElem_cons hj]
        rfl
      · rw [if_neg (by omega), if_neg hlen]
        rfl
    · rw [rangeForFrom_past (.inr ⟨Nat.ne_of_lt hi, rfl⟩), if_neg (by omega)]
  · rcases Nat.lt_or_eq_of_le hj with hj | rfl
    · rw [rangeForFrom_past (.inl ⟨rfl, Nat.ne_of_lt hj⟩), if_neg (by omega)]
    · rw [rangeForFrom_end, if_pos (by omega), List.drop_length, List.zip_nil_left]
termination_by K.length - i

/-- **Main result**: the loop visits the pairs of both containers up to the end
of the shorter, and stays inside both, exactly when they have equally many
elements. -/
theorem rangeFor_iff (K : List α) (V : List β) :
    rangeFor K V = some (K.zip V) ↔ K.length = V.length := by
  rw [rangeFor, zipBegin, rangeForFrom_eq K V 0 0 (Nat.zero_le _) (Nat.zero_le _)]
  simp

/-- Zipping two keys with one value. -/
theorem rangeFor_counterexample :
    ¬ ∀ (K : List ℕ) (V : List ℕ), rangeFor K V = some (K.zip V) := by
  intro h
  have hrun := h [1, 2] [10]
  rw [rangeFor, zipBegin, rangeForFrom_eq _ _ 0 0 (by decide) (by decide)] at hrun
  exact absurd hrun (by decide)

end Itertools
