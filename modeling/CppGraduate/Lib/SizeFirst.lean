import Mathlib.Data.List.Shortlex

/-!
# Comparing sequences, size first

The shorter of two sequences is the smaller one; of two sequences of the same
size the first different elements decide. If the comparison of the elements
is a strict total order, so is that of the sequences, and so is that of
sequences of sequences.
-/

namespace SizeFirst

variable {α β : Type}

/-- The loop over the indices: the first different elements decide. -/
def lessFrom [DecidableEq α] (lt : α → α → Bool) : List α → List α → Bool
  | x :: xs, y :: ys => if x ≠ y then lt x y else lessFrom lt xs ys
  | _, _ => false

/-- `less`: by size, then by the first different elements. -/
def less [DecidableEq α] (lt : α → α → Bool) (xs ys : List α) : Bool :=
  if xs.length ≠ ys.length then xs.length < ys.length else lessFrom lt xs ys

/-- **A strict total order consistent with equality**: exactly one of
`a < b`, `a == b` and `b < a` holds, and `<` is transitive. -/
structure StrictTotal (lt eq : α → α → Bool) : Prop where
  /-- Exactly one of the three holds. -/
  exactlyOne : ∀ a b, (lt a b = true ∧ eq a b = false ∧ lt b a = false)
    ∨ (lt a b = false ∧ eq a b = true ∧ lt b a = false)
    ∨ (lt a b = false ∧ eq a b = false ∧ lt b a = true)
  trans : ∀ a b c, lt a b = true → lt b c = true → lt a c = true

/-- The relation of a comparison. -/
abbrev Rel (lt : α → α → Bool) (a b : α) : Prop := lt a b = true

/-- A comparison by a strict total order, and one by equality. -/
theorem StrictTotal.of_rel {lt eq : α → α → Bool} [IsStrictTotalOrder α (Rel lt)]
    (heq : ∀ a b, eq a b = true ↔ a = b) : StrictTotal lt eq where
  exactlyOne a b := by
    have hne : ∀ {a b}, Rel lt a b → eq a b = false := fun {a b} hab => by
      rw [← Bool.not_eq_true, heq]
      rintro rfl
      exact irrefl_of (Rel lt) a hab
    have hnot : ∀ {a b}, Rel lt a b → lt b a = false := fun hab =>
      Bool.not_eq_true _ ▸ asymm_of (Rel lt) hab
    rcases trichotomous_of (Rel lt) a b with hab | rfl | hba
    · exact Or.inl ⟨hab, hne hab, hnot hab⟩
    · have hirrefl : lt a a = false := Bool.not_eq_true _ ▸ irrefl_of (Rel lt) a
      exact Or.inr (Or.inl ⟨hirrefl, (heq a a).mpr rfl, hirrefl⟩)
    · refine Or.inr (Or.inr ⟨hnot hba, ?_, hba⟩)
      rw [← Bool.not_eq_true, heq, eq_comm, ← heq, Bool.not_eq_true]
      exact hne hba
  trans _ _ _ hab hbc := trans_of (Rel lt) hab hbc

/-- A comparison by what determines a value. -/
theorem isStrictTotalOrder_comap (lt : α → α → Bool) [IsStrictTotalOrder α (Rel lt)] {f : β → α}
    (hf : Function.Injective f) : IsStrictTotalOrder β (Rel fun a b => lt (f a) (f b)) :=
  { InvImage.trichotomous (r := Rel lt) hf, Order.Preimage.instIsStrictOrder (r := Rel lt) with }

section

variable [DecidableEq α] {lt : α → α → Bool}

/-- The loop compares lexicographically. -/
theorem lessFrom_iff [Std.Irrefl (Rel lt)] {xs ys : List α} (h : xs.length = ys.length) :
    lessFrom lt xs ys = true ↔ List.Lex (Rel lt) xs ys := by
  induction xs generalizing ys with
  | nil =>
    rw [List.length_nil, eq_comm, List.length_eq_zero_iff] at h
    rw [h]
    exact iff_of_false nofun nofun
  | cons x xs ih =>
    cases ys with
    | nil => cases h
    | cons y ys =>
      rw [lessFrom]
      by_cases hxy : x = y
      · subst hxy
        rw [if_neg (not_not.mpr rfl), ih (Nat.succ.inj h), List.lex_cons_iff]
      · rw [if_pos hxy]
        refine ⟨fun hlt => .rel hlt, fun hlex => ?_⟩
        cases hlex with
        | cons _ => exact absurd rfl hxy
        | rel hlt => exact hlt

/-- **The comparison is the shortlex order.** -/
theorem less_iff [Std.Irrefl (Rel lt)] {xs ys : List α} :
    less lt xs ys = true ↔ List.Shortlex (Rel lt) xs ys := by
  unfold less
  rw [List.shortlex_def]
  split_ifs with h
  · rw [decide_eq_true_iff]
    exact (or_iff_left fun hlex => h hlex.1).symm
  · rw [not_not] at h
    rw [lessFrom_iff h]
    exact ⟨fun hlex => Or.inr ⟨h, hlex⟩, fun hor => (hor.resolve_left h.not_lt).2⟩

/-- **Sequences of things in strict total order are in strict total
order.** -/
instance isStrictTotalOrder_less [IsStrictTotalOrder α (Rel lt)] :
    IsStrictTotalOrder (List α) (Rel (less lt)) := by
  have hrel : Rel (less lt) = List.Shortlex (Rel lt) := by
    ext xs ys
    exact less_iff
  have hlex : IsStrictWeakOrder (List α) (List.Lex (Rel lt)) :=
    isStrictWeakOrder_of_isOrderConnected
  rw [hrel]
  exact {
    trichotomous := Std.Trichotomous.trichotomous
    irrefl := irrefl_of (List.Shortlex (Rel lt))
    trans := by
      intro xs ys zs hxy hyz
      rw [List.shortlex_def] at hxy hyz ⊢
      -- the sizes decide, or all three are the same
      rcases hxy with hxy | ⟨hxy, hltxy⟩ <;> rcases hyz with hyz | ⟨hyz, hltyz⟩
      · exact Or.inl (hxy.trans hyz)
      · exact Or.inl (hxy.trans_eq hyz)
      · exact Or.inl (hxy.trans_lt hyz)
      · exact Or.inr ⟨hxy.trans hyz, trans_of (List.Lex (Rel lt)) hltxy hltyz⟩ }

end

end SizeFirst
