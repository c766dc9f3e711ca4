import Mathlib.Data.List.Basic

/-!
# What a list of tokens can be read as

Things are written as lists of tokens. If what is written can be told from
what follows it, then a whole token list can be read in one way only. What
may follow is a condition on the rest of the list, often on its first token
alone.

The lemmas take such things apart: two things one after the other, a thing
between fixed tokens, and a list of things.
-/

variable {τ α β : Type}

/-- **Things can be told from what follows them**, provided that `F` holds of
it. -/
def Readable (tok : α → List τ) (F : List τ → Prop) : Prop :=
  ∀ a b r r', F r → F r' → tok a ++ r = tok b ++ r' → a = b ∧ r = r'

namespace Readable

variable {tok : α → List τ} {tok' : β → List τ} {F F' : List τ → Prop}

/-- **A token list is one thing at most.** -/
theorem injective (h : Readable tok F) (hF : F []) : Function.Injective tok := fun a b hab =>
  (h a b [] [] hF hF (by rw [hab])).1

/-- A single token. -/
theorem single {f : α → τ} (hf : Function.Injective f) : Readable (fun a => [f a]) F := by
  intro a b r r' _ _ h
  rw [List.singleton_append, List.singleton_append, List.cons.injEq] at h
  exact ⟨hf h.1, h.2⟩

/-- **One thing after another.** -/
theorem pair (h : Readable tok F) (h' : Readable tok' F') (hF : ∀ b r, F' r → F (tok' b ++ r)) :
    Readable (fun p : α × β => tok p.1 ++ tok' p.2) F' := by
  intro p q r r' hr hr' heq
  rw [List.append_assoc, List.append_assoc] at heq
  obtain ⟨h₁, heq⟩ := h _ _ _ _ (hF _ _ hr) (hF _ _ hr') heq
  obtain ⟨h₂, heq⟩ := h' _ _ _ _ hr hr' heq
  exact ⟨Prod.ext h₁ h₂, heq⟩

/-- A fixed token follows. -/
theorem followed (h : Readable tok F) {c : τ} (hF : ∀ r, F' r → F (c :: r)) :
    Readable (fun a => tok a ++ [c]) F' := by
  intro a b r r' hr hr' heq
  rw [List.append_assoc, List.append_assoc] at heq
  obtain ⟨h₁, heq⟩ := h _ _ _ _ (hF _ hr) (hF _ hr') heq
  exact ⟨h₁, List.tail_eq_of_cons_eq heq⟩

/-- A fixed token goes before. -/
theorem preceded (h : Readable tok F) (c : τ) : Readable (fun a => c :: tok a) F := fun a b r r' hr
    hr' heq => h a b r r' hr hr' (List.tail_eq_of_cons_eq heq)

/-- **A list of things**, none of which begins what follows the list. -/
theorem flatMap (h : Readable tok F) (hfirst : ∀ a r r', F' r' → tok a ++ r ≠ r')
    (hnext : ∀ a r, F (tok a ++ r)) (hlast : ∀ r, F' r → F r) :
    Readable (fun l : List α => l.flatMap tok) F' := by
  have hrest : ∀ (l : List α) r, F' r → F (l.flatMap tok ++ r) := by
    intro l r hr
    cases l with
    | nil => exact hlast r hr
    | cons a l =>
      rw [List.flatMap_cons, List.append_assoc]
      exact hnext a _
  intro l l' r r' hr hr' heq
  change l.flatMap tok ++ r = l'.flatMap tok ++ r' at heq
  induction l generalizing l' with
  | nil =>
    cases l' with
    | nil => exact ⟨rfl, heq⟩
    | cons b l' =>
      rw [List.flatMap_cons, List.append_assoc] at heq
      exact absurd heq.symm (hfirst b _ _ hr)
  | cons a l ih =>
    cases l' with
    | nil =>
      rw [List.flatMap_cons, List.append_assoc] at heq
      exact absurd heq (hfirst a _ _ hr')
    | cons b l' =>
      rw [List.flatMap_cons, List.flatMap_cons, List.append_assoc, List.append_assoc] at heq
      obtain ⟨h₁, heq⟩ := h _ _ _ _ (hrest l r hr) (hrest l' r' hr') heq
      obtain ⟨h₂, heq⟩ := ih l' heq
      exact ⟨by rw [h₁, h₂], heq⟩

end Readable
