import CppGraduate.NumGrammar.Equations
import Mathlib.Data.List.Induction

/-!
# The equation grammars agree

The grammars of `numgrammar` derive the same token lists, each of them in one
way, and print the same lines for them: those of the list of equations that
is written there, with the values of its sides from the left to the right.

The grammar of `advgrammar` has no rule for the empty list, which the grammar
in its header has. On every other token list it does what its header says,
and its lines are those that `numgrammar-sr-fixed.y` prints.
-/

namespace NumGrammar

/-- **The two corrected grammars agree**: they derive the same token lists, in
one way each, and print the same lines, which are those of the equations that
the token list is written for. -/
theorem fixed_agrees_srFixed (ts : List Token) :
    ((∃ d : Fixed.Eqlist, d.tokens = ts) ↔ ∃ d : SrFixed.Eqlist, d.tokens = ts)
    ∧ (∀ d d' : Fixed.Eqlist, d.tokens = ts → d'.tokens = ts → d = d')
    ∧ (∀ d d' : SrFixed.Eqlist, d.tokens = ts → d'.tokens = ts → d = d')
    ∧ ∀ (d : Fixed.Eqlist) (d' : SrFixed.Eqlist), d.tokens = ts → d'.tokens = ts →
      d.lines = d'.lines ∧ ∃ l, written l = ts ∧ d.lines = l.map Equation.line := by
  refine ⟨⟨?_, ?_⟩, fun d d' h h' => ?_, fun d d' h h' => ?_, fun d d' h h' => ⟨?_, ?_⟩⟩
  · rintro ⟨d, rfl⟩
    obtain ⟨d', h⟩ := SrFixed.Eqlist.equations_surjective d.equations
    exact ⟨d', by rw [d'.tokens_eq, h, d.tokens_eq]⟩
  · rintro ⟨d, rfl⟩
    obtain ⟨d', h⟩ := Fixed.Eqlist.equations_surjective d.equations
    exact ⟨d', by rw [d'.tokens_eq, h, d.tokens_eq]⟩
  · refine Fixed.Eqlist.equations_injective (written_injective ?_)
    rw [← d.tokens_eq, ← d'.tokens_eq, h, h']
  · refine SrFixed.Eqlist.equations_injective (written_injective ?_)
    rw [← d.tokens_eq, ← d'.tokens_eq, h, h']
  · have heq : d.equations = d'.equations := written_injective (by
      rw [← d.tokens_eq, ← d'.tokens_eq, h, h'])
    rw [d.lines_eq, d'.lines_eq, heq]
  · exact ⟨d.equations, by rw [← d.tokens_eq, h], d.lines_eq⟩

/-! ## The header grammar -/

/-- What the header calls `E` is a side. -/
theorem Header.e_iff {ts : List Token} : Header.E ts ↔ ∃ s : Side, s.tokens = ts := by
  constructor
  · intro h
    induction h with
    | number n => exact ⟨(n, []), rfl⟩
    | plus h n ih =>
      obtain ⟨s, rfl⟩ := ih
      exact ⟨(s.1, s.2 ++ [(.plus, n)]), Side.tokens_concat _ _ _⟩
    | minus h n ih =>
      obtain ⟨s, rfl⟩ := ih
      exact ⟨(s.1, s.2 ++ [(.minus, n)]), Side.tokens_concat _ _ _⟩
  · rintro ⟨⟨n, l⟩, rfl⟩
    induction l using List.reverseRecOn with
    | nil => exact .number n
    | append_singleton l t ih =>
      obtain ⟨s, m⟩ := t
      rw [Side.tokens_concat]
      cases s
      · exact .plus ih m
      · exact .minus ih m

/-- **What the header calls `EQL`** is a list of equations. -/
theorem Header.eql_iff {ts : List Token} : Header.EQL ts ↔ ∃ l, written l = ts := by
  constructor
  · intro h
    induction h with
    | empty => exact ⟨[], rfl⟩
    | next h _ ih =>
      obtain ⟨l, rfl⟩ := ih
      cases h with
      | mk h h' =>
        obtain ⟨s, rfl⟩ := e_iff.mp h
        obtain ⟨s', rfl⟩ := e_iff.mp h'
        exact ⟨(s, s') :: l, written_cons _ _⟩
  · rintro ⟨l, rfl⟩
    induction l with
    | nil => exact .empty
    | cons e l ih =>
      rw [written_cons]
      exact .next (.mk (e_iff.mpr ⟨e.1, rfl⟩) (e_iff.mpr ⟨e.2, rfl⟩)) ih

/-! ## The grammar that builds a list -/

/-- **The grammar of advgrammar on a token list**: it derives the list if its
header does, and then the lines printed are those of
`numgrammar-sr-fixed.y`. -/
def Adv.Matches (ts : List Token) : Prop :=
  ((∃ d : Adv.Eqlist, d.tokens = ts) ↔ Header.EQL ts)
  ∧ ∀ d : Adv.Eqlist, d.tokens = ts → (∃ d' : SrFixed.Eqlist, d'.tokens = ts)
    ∧ ∀ d' : SrFixed.Eqlist, d'.tokens = ts → d.lines = d'.lines

/-- **The grammar of advgrammar does what its header says, and prints what
`numgrammar-sr-fixed.y` prints, on every token list but the empty one.** -/
theorem Adv.matches_iff (ts : List Token) : Adv.Matches ts ↔ ts ≠ [] := by
  constructor
  · rintro ⟨h, -⟩ rfl
    obtain ⟨d, hd⟩ := h.mpr .empty
    rw [d.tokens_eq] at hd
    exact d.equations_ne_nil (written_injective hd)
  · intro hts
    refine ⟨⟨?_, fun h => ?_⟩, fun d hd => ⟨?_, fun d' hd' => ?_⟩⟩
    · rintro ⟨d, rfl⟩
      exact Header.eql_iff.mpr ⟨d.equations, d.tokens_eq.symm⟩
    · obtain ⟨l, rfl⟩ := Header.eql_iff.mp h
      have hl : l ≠ [] := by
        rintro rfl
        exact hts rfl
      obtain ⟨d, rfl⟩ := Adv.Eqlist.exists_equations hl
      exact ⟨d, d.tokens_eq⟩
    · obtain ⟨d', h⟩ := SrFixed.Eqlist.equations_surjective d.equations
      exact ⟨d', by rw [d'.tokens_eq, h, ← d.tokens_eq, hd]⟩
    · have heq : d.equations = d'.equations := written_injective (by
        rw [← d.tokens_eq, ← d'.tokens_eq, hd, hd'])
      rw [d.lines_eq, d'.lines_eq, heq]

/-- The empty list is in the header's language only. -/
theorem Adv.not_matches_nil : ¬ ∀ ts : List Token, Adv.Matches ts := by
  intro h
  obtain ⟨d, hd⟩ := (h []).1.mpr .empty
  cases d with
  | next e l => exact absurd (congrArg List.length hd) (by simp [Adv.Eqlist.tokens])
  | last e => exact absurd (congrArg List.length hd) (by simp [Adv.Eqlist.tokens])

end NumGrammar
