import Mathlib.Data.Nat.Notation
import Mathlib.Logic.Function.Basic

/-!
# Nested scopes

What is declared where, in the scopes that enclose a place of a program,
innermost first. A name means the declaration of the innermost scope that
has one. A declaration is made in the innermost scope; the others are not
changed by anything that happens inside them.
-/

/-- **Nested scopes**, innermost first: for each the declarations made in it
so far. -/
abbrev Scopes (N D : Type) : Type := List (N → Option D)

namespace Scopes

variable {N D : Type}

/-- What a name means. -/
def lookup (x : N) : Scopes N D → Option D
  | [] => none
  | f :: fs =>
    match f x with
    | some d => some d
    | none => lookup x fs

/-- A declaration in the innermost scope. -/
def declare [DecidableEq N] (x : N) (d : D) : Scopes N D → Scopes N D
  | [] => []
  | f :: fs => Function.update f x (some d) :: fs

/-- A scope more. -/
def opened (fs : Scopes N D) : Scopes N D := (fun _ => none) :: fs

/-- **A name means the declaration of the innermost scope that has one.** -/
theorem lookup_eq_some_iff {x : N} {fs : Scopes N D} {d : D} :
    lookup x fs = some d ↔
      ∃ inner f outer, fs = inner ++ f :: outer ∧ (∀ g ∈ inner, g x = none) ∧ f x = some d := by
  induction fs with
  | nil =>
    refine ⟨nofun, ?_⟩
    rintro ⟨inner, f, outer, h, -⟩
    exact absurd h.symm (List.append_ne_nil_of_right_ne_nil _ (List.cons_ne_nil f outer))
  | cons f fs ih =>
    unfold lookup
    split
    · next d' hf =>
      constructor
      · intro h
        exact ⟨[], f, fs, rfl, nofun, hf.trans h⟩
      · rintro ⟨inner, g, outer, h, hinner, hg⟩
        cases inner with
        | nil => rw [← hf, (List.cons.inj h).1, hg]
        | cons g' inner =>
          have hnone := hinner g' List.mem_cons_self
          rw [← (List.cons.inj h).1, hf] at hnone
          cases hnone
    · next hf =>
      rw [ih]
      constructor
      · rintro ⟨inner, g, outer, h, hinner, hg⟩
        refine ⟨f :: inner, g, outer, congrArg (f :: ·) h, fun g' hg' => ?_, hg⟩
        rcases List.mem_cons.mp hg' with rfl | hg'
        · exact hf
        · exact hinner g' hg'
      · rintro ⟨inner, g, outer, h, hinner, hg⟩
        cases inner with
        | nil =>
          rw [← (List.cons.inj h).1, hf] at hg
          cases hg
        | cons g' inner =>
          exact ⟨inner, g, outer, (List.cons.inj h).2,
            fun g'' hg'' => hinner g'' (List.mem_cons_of_mem g' hg''), hg⟩

/-- A name means nothing when no scope declares it. -/
theorem lookup_eq_none_iff {x : N} {fs : Scopes N D} :
    lookup x fs = none ↔ ∀ f ∈ fs, f x = none := by
  induction fs with
  | nil => exact ⟨fun _ => nofun, fun _ => rfl⟩
  | cons f fs ih =>
    unfold lookup
    split
    · next d hf =>
      refine ⟨nofun, fun h => ?_⟩
      rw [h f List.mem_cons_self] at hf
      cases hf
    · next hf =>
      rw [ih]
      refine ⟨fun h g hg => ?_, fun h g hg => h g (List.mem_cons_of_mem f hg)⟩
      rcases List.mem_cons.mp hg with rfl | hg
      · exact hf
      · exact h g hg

end Scopes
