import CppGraduate.Lib.Reading
import CppGraduate.NumGrammar.Grammars
import Mathlib.Logic.Function.Basic

/-!
# Lists of equations

What the three grammars are about: a list of equations, each with two sides,
each side a number and the numbers added to it or subtracted from it one
after the other. A token list is written for one list of equations at most.

Every derivation of each grammar is one of a list of equations, and prints
the line of each equation in turn. The two grammars of `numgrammar` derive
every list; that of `advgrammar` derives all but the empty one.
-/

namespace NumGrammar

/-- The sign of a term. -/
inductive Sign
  | plus
  | minus
deriving DecidableEq

/-- The token of a sign. -/
def Sign.token : Sign → Token
  | .plus => .plus
  | .minus => .minus

/-- What a term does to what stands to the left of it. -/
def Sign.apply (v : Int32) : Sign → Int32 → Int32
  | .plus, n => v + n
  | .minus, n => v - n

/-- A term with the sign before it. -/
abbrev Term : Type := Sign × Int32

/-- **A side of an equation**: a number and the terms that follow it. -/
abbrev Side : Type := Int32 × List Term

/-- **An equation.** -/
abbrev Equation : Type := Side × Side

/-- A term as it is written. -/
def Term.tokens (t : Term) : List Token := [t.1.token, .number t.2]

/-- A side as it is written. -/
def Side.tokens (s : Side) : List Token := [.number s.1] ++ s.2.flatMap Term.tokens

/-- An equation as it is written. -/
def Equation.tokens (e : Equation) : List Token := e.1.tokens ++ .equal :: e.2.tokens

/-- A list of equations as it is written. -/
def written (l : List Equation) : List Token := l.flatMap fun e => e.tokens ++ [.scolon]

/-- **The value of a side**, from the left to the right. -/
def Side.value (s : Side) : Int32 := s.2.foldl (fun v t => t.1.apply v t.2) s.1

/-- The line of an equation. -/
def Equation.line (e : Equation) : String := checking e.1.value e.2.value

/-! ## Only one list is written so -/

/-- What may follow a side: no sign. -/
def AfterSide (r : List Token) : Prop := r.head? ≠ some .plus ∧ r.head? ≠ some .minus

/-- Terms can be told from what follows them. -/
theorem readable_terms : Readable (List.flatMap Term.tokens) AfterSide := by
  have hterm : Readable Term.tokens fun _ => True := by
    rintro ⟨s, n⟩ ⟨s', n'⟩ r r' - - h
    cases s <;> cases s' <;> cases h <;> exact ⟨rfl, rfl⟩
  refine hterm.flatMap (fun t r r' hr' h => ?_) (fun _ _ => trivial) fun _ _ => trivial
  subst h
  obtain ⟨s, n⟩ := t
  cases s
  · exact hr'.1 rfl
  · exact hr'.2 rfl

/-- A side can be told from what follows it. -/
theorem readable_side : Readable Side.tokens AfterSide :=
  (Readable.single (F := fun _ => True) fun _ _ h => Token.number.inj h).pair readable_terms
    fun _ _ _ => trivial

/-- An equation can be told from what follows it. -/
theorem readable_equation : Readable Equation.tokens AfterSide :=
  readable_side.pair (readable_side.preceded .equal) fun _ _ _ => ⟨nofun, nofun⟩

/-- **A token list is written for one list of equations at most.** -/
theorem written_injective : Function.Injective written := by
  have hone : Readable (fun e : Equation => e.tokens ++ [.scolon]) fun _ => True :=
    readable_equation.followed fun _ _ => ⟨nofun, nofun⟩
  refine Readable.injective (F := (· = [])) (hone.flatMap (fun e r r' hr' h => ?_)
    (fun _ _ => trivial) fun _ _ => trivial) rfl
  rw [hr', Equation.tokens, List.append_eq_nil_iff, List.append_eq_nil_iff] at h
  exact List.cons_ne_nil _ _ h.1.2

/-- A list with another equation in front. -/
theorem written_cons (e : Equation) (l : List Equation) :
    written (e :: l) = e.1.tokens ++ .equal :: e.2.tokens ++ .scolon :: written l := by
  rw [written, List.flatMap_cons, List.append_assoc]
  rfl

/-- Terms added one after the other, to whatever has a side. -/
theorem Side.foldl_add {E : Type} {add : E → Term → E} {side : E → Side}
    (h : ∀ e t, side (add e t) = ((side e).1, (side e).2 ++ [t])) (l : List Term) (e : E) :
    side (l.foldl add e) = ((side e).1, (side e).2 ++ l) := by
  induction l generalizing e with
  | nil => rw [List.append_nil, List.foldl_nil]
  | cons t l ih => rw [List.foldl_cons, ih, h, List.append_assoc, List.singleton_append]

/-- A term more to the right. -/
theorem Side.value_concat (n : Int32) (l : List Term) (t : Term) :
    Side.value (n, l ++ [t]) = t.1.apply (Side.value (n, l)) t.2 := by
  rw [Side.value, Side.value, List.foldl_append]
  rfl

/-- A term more to the right. -/
theorem Side.tokens_concat (n : Int32) (l : List Term) (t : Term) :
    Side.tokens (n, l ++ [t]) = Side.tokens (n, l) ++ t.tokens := by
  rw [Side.tokens, Side.tokens, List.flatMap_append, ← List.append_assoc, List.flatMap_singleton]

/-! ## The derivations of numgrammar.y -/

namespace Fixed

/-- The terms of a derivation. -/
def Arith.terms : Arith → List Term
  | .plus n a => (.plus, n) :: a.terms
  | .minus n a => (.minus, n) :: a.terms
  | .empty => []

/-- The derivation of terms. -/
def Arith.ofTerms : List Term → Arith
  | [] => .empty
  | (.plus, n) :: l => .plus n (ofTerms l)
  | (.minus, n) :: l => .minus n (ofTerms l)

/-- The side a derivation is of. -/
def Expr.side (e : Expr) : Side := (e.number, e.arith.terms)

/-- The equations a derivation is of. -/
def Eqlist.equations : Eqlist → List Equation
  | .next e l => (e.left.side, e.right.side) :: l.equations
  | .empty => []

theorem Arith.ofTerms_terms (a : Arith) : ofTerms a.terms = a := by
  induction a with
  | plus n a ih => rw [terms, ofTerms, ih]
  | minus n a ih => rw [terms, ofTerms, ih]
  | empty => rfl

theorem Arith.terms_ofTerms (l : List Term) : (ofTerms l).terms = l := by
  induction l with
  | nil => rfl
  | cons t l ih =>
    obtain ⟨s, n⟩ := t
    cases s <;> rw [ofTerms, terms, ih]

theorem Arith.tokens_eq (a : Arith) : a.tokens = a.terms.flatMap Term.tokens := by
  induction a with
  | plus n a ih => rw [tokens, terms, List.flatMap_cons, ih]; rfl
  | minus n a ih => rw [tokens, terms, List.flatMap_cons, ih]; rfl
  | empty => rfl

/-- The terms are summed from the right, with their signs. -/
theorem Arith.add_value (a : Arith) (v : Int32) :
    v + a.value = a.terms.foldl (fun v t => t.1.apply v t.2) v := by
  induction a generalizing v with
  | plus n a ih =>
    rw [value, terms, List.foldl_cons, ← ih, ← Int32.add_assoc]
    rfl
  | minus n a ih =>
    rw [value, terms, List.foldl_cons, ← ih, ← Int32.add_assoc, ← Int32.sub_eq_add_neg]
    rfl
  | empty => exact Int32.add_zero v

theorem Expr.side_injective : Function.Injective Expr.side := by
  rintro ⟨n, a⟩ ⟨n', a'⟩ h
  obtain ⟨hn, ha⟩ := Prod.mk.inj h
  rw [Expr.mk.injEq]
  exact ⟨hn, by rw [← a.ofTerms_terms, ← a'.ofTerms_terms, ha]⟩

theorem Eqlist.equations_injective : Function.Injective Eqlist.equations := by
  intro l l' h
  induction l generalizing l' with
  | empty =>
    cases l' with
    | empty => rfl
    | next => cases h
  | next e l ih =>
    cases l' with
    | empty => cases h
    | next e' l' =>
      obtain ⟨he, hl⟩ := List.cons_eq_cons.mp h
      obtain ⟨h₁, h₂⟩ := Prod.mk.inj he
      rw [ih hl, Eqlist.next.injEq, Equals.mk.injEq]
      exact ⟨⟨Expr.side_injective h₁, Expr.side_injective h₂⟩, rfl⟩

/-- Every list of equations has a derivation. -/
theorem Eqlist.equations_surjective : Function.Surjective Eqlist.equations := by
  have hside : ∀ s : Side, (Expr.mk s.1 (.ofTerms s.2)).side = s := fun s => by
    rw [Expr.side, Arith.terms_ofTerms]
  intro l
  induction l with
  | nil => exact ⟨.empty, rfl⟩
  | cons e l ih =>
    obtain ⟨d, rfl⟩ := ih
    refine ⟨.next ⟨⟨e.1.1, .ofTerms e.1.2⟩, ⟨e.2.1, .ofTerms e.2.2⟩⟩ d, ?_⟩
    rw [equations, hside e.1, hside e.2]

/-- **What a derivation derives** is its list of equations. -/
theorem Eqlist.tokens_eq (l : Eqlist) : l.tokens = written l.equations := by
  have hside : ∀ e : Expr, e.tokens = e.side.tokens := fun e => by
    rw [Expr.tokens, Arith.tokens_eq]
    rfl
  induction l with
  | empty => rfl
  | next e l ih =>
    rw [tokens, equations, written_cons, ih, Equals.tokens, hside, hside]

/-- **The lines printed** are those of the equations. -/
theorem Eqlist.lines_eq (l : Eqlist) : l.lines = l.equations.map Equation.line := by
  have hvalue : ∀ e : Expr, e.value = e.side.value := fun e => e.arith.add_value e.number
  induction l with
  | empty => rfl
  | next e l ih =>
    rw [lines, equations, List.map_cons, ih, Equals.line, hvalue, hvalue]
    rfl

end Fixed

/-! ## The derivations of numgrammar-sr-fixed.y -/

namespace SrFixed

/-- The side a derivation is of. -/
def Expr.side : Expr → Side
  | .plus e n => (e.side.1, e.side.2 ++ [(.plus, n)])
  | .minus e n => (e.side.1, e.side.2 ++ [(.minus, n)])
  | .number n => (n, [])

/-- A term is added to a derivation. -/
def Expr.add (e : Expr) : Term → Expr
  | (.plus, n) => .plus e n
  | (.minus, n) => .minus e n

/-- The derivation of a side. -/
def Expr.ofSide (s : Side) : Expr := s.2.foldl Expr.add (.number s.1)

/-- The equations a derivation is of. -/
def Eqlist.equations : Eqlist → List Equation
  | .next e l => (e.left.side, e.right.side) :: l.equations
  | .empty => []

theorem Expr.ofSide_side (e : Expr) : ofSide e.side = e := by
  have hadd : ∀ (s : Side) (t : Term), ofSide (s.1, s.2 ++ [t]) = (ofSide s).add t := fun s t => by
    rw [ofSide, List.foldl_append]
    rfl
  induction e with
  | plus e n ih => rw [side, hadd, ih]; rfl
  | minus e n ih => rw [side, hadd, ih]; rfl
  | number n => rfl

theorem Expr.side_ofSide (s : Side) : (ofSide s).side = s := by
  have hadd : ∀ (e : Expr) (t : Term), (e.add t).side = (e.side.1, e.side.2 ++ [t]) := by
    rintro e ⟨s, n⟩
    cases s <;> rfl
  exact Side.foldl_add hadd s.2 (.number s.1)

theorem Expr.tokens_eq (e : Expr) : e.tokens = e.side.tokens := by
  induction e with
  | plus e n ih => rw [tokens, side, Side.tokens_concat, ih]; rfl
  | minus e n ih => rw [tokens, side, Side.tokens_concat, ih]; rfl
  | number n => rfl

theorem Expr.value_eq (e : Expr) : e.value = e.side.value := by
  induction e with
  | plus e n ih => rw [value, side, Side.value_concat, ih]; rfl
  | minus e n ih => rw [value, side, Side.value_concat, ih]; rfl
  | number n => rfl

theorem Eqlist.equations_injective : Function.Injective Eqlist.equations := by
  have hside : Function.Injective Expr.side := Function.LeftInverse.injective Expr.ofSide_side
  intro l l' h
  induction l generalizing l' with
  | empty =>
    cases l' with
    | empty => rfl
    | next => cases h
  | next e l ih =>
    cases l' with
    | empty => cases h
    | next e' l' =>
      obtain ⟨he, hl⟩ := List.cons_eq_cons.mp h
      obtain ⟨h₁, h₂⟩ := Prod.mk.inj he
      rw [ih hl, Eqlist.next.injEq, Equals.mk.injEq]
      exact ⟨⟨hside h₁, hside h₂⟩, rfl⟩

/-- Every list of equations has a derivation. -/
theorem Eqlist.equations_surjective : Function.Surjective Eqlist.equations := by
  intro l
  induction l with
  | nil => exact ⟨.empty, rfl⟩
  | cons e l ih =>
    obtain ⟨d, rfl⟩ := ih
    refine ⟨.next ⟨.ofSide e.1, .ofSide e.2⟩ d, ?_⟩
    rw [equations, Expr.side_ofSide, Expr.side_ofSide]

/-- **What a derivation derives** is its list of equations. -/
theorem Eqlist.tokens_eq (l : Eqlist) : l.tokens = written l.equations := by
  induction l with
  | empty => rfl
  | next e l ih =>
    rw [tokens, equations, written_cons, ih, Equals.tokens, Expr.tokens_eq, Expr.tokens_eq]

/-- **The lines printed** are those of the equations. -/
theorem Eqlist.lines_eq (l : Eqlist) : l.lines = l.equations.map Equation.line := by
  induction l with
  | empty => rfl
  | next e l ih =>
    rw [lines, equations, List.map_cons, ih, Equals.line, Expr.value_eq, Expr.value_eq]
    rfl

end SrFixed

/-! ## The derivations of advgrammar/numgrammar.y -/

namespace Adv

/-- The side a derivation is of. -/
def Expr.side : Expr → Side
  | .number n => (n, [])
  | .plus e n => (e.side.1, e.side.2 ++ [(.plus, n)])
  | .minus e n => (e.side.1, e.side.2 ++ [(.minus, n)])

/-- A term is added to a derivation. -/
def Expr.add (e : Expr) : Term → Expr
  | (.plus, n) => .plus e n
  | (.minus, n) => .minus e n

/-- The derivation of a side. -/
def Expr.ofSide (s : Side) : Expr := s.2.foldl Expr.add (.number s.1)

/-- The equations a derivation is of. -/
def Eqlist.equations : Eqlist → List Equation
  | .next e l => (e.left.side, e.right.side) :: l.equations
  | .last e => [(e.left.side, e.right.side)]

theorem Expr.side_ofSide (s : Side) : (ofSide s).side = s := by
  have hadd : ∀ (e : Expr) (t : Term), (e.add t).side = (e.side.1, e.side.2 ++ [t]) := by
    rintro e ⟨s, n⟩
    cases s <;> rfl
  exact Side.foldl_add hadd s.2 (.number s.1)

theorem Expr.tokens_eq (e : Expr) : e.tokens = e.side.tokens := by
  induction e with
  | number n => rfl
  | plus e n ih => rw [tokens, side, Side.tokens_concat, ih]; rfl
  | minus e n ih => rw [tokens, side, Side.tokens_concat, ih]; rfl

/-- The numbers collected for a side sum up to its value. -/
theorem Expr.accumulate_value (e : Expr) : accumulate e.value = e.side.value := by
  induction e with
  | number n => exact Int32.zero_add n
  | plus e n ih =>
    rw [value, accumulate, List.foldl_append, side, Side.value_concat, ← ih]
    rfl
  | minus e n ih =>
    rw [value, accumulate, List.foldl_append, side, Side.value_concat, ← ih]
    exact (Int32.sub_eq_add_neg _ _).symm

/-- Every list of equations has a derivation, except for the empty one. -/
theorem Eqlist.exists_equations {l : List Equation} (h : l ≠ []) :
    ∃ d : Eqlist, d.equations = l := by
  induction l with
  | nil => exact absurd rfl h
  | cons e l ih =>
    by_cases hl : l = []
    · subst hl
      refine ⟨.last ⟨.ofSide e.1, .ofSide e.2⟩, ?_⟩
      rw [equations, Expr.side_ofSide, Expr.side_ofSide]
    · obtain ⟨d, rfl⟩ := ih hl
      refine ⟨.next ⟨.ofSide e.1, .ofSide e.2⟩ d, ?_⟩
      rw [equations, Expr.side_ofSide, Expr.side_ofSide]

theorem Eqlist.equations_ne_nil (l : Eqlist) : l.equations ≠ [] := by
  cases l <;> exact List.cons_ne_nil _ _

/-- **What a derivation derives** is its list of equations. -/
theorem Eqlist.tokens_eq (l : Eqlist) : l.tokens = written l.equations := by
  induction l with
  | last e =>
    rw [tokens, equations, written_cons, Equals.tokens, Expr.tokens_eq, Expr.tokens_eq]
    rfl
  | next e l ih =>
    rw [tokens, equations, written_cons, ih, Equals.tokens, Expr.tokens_eq, Expr.tokens_eq]

/-- **The lines printed** are those of the equations: the list is built from
its end, and turned round when it is inserted. -/
theorem Eqlist.lines_eq (l : Eqlist) : l.lines = l.equations.map Equation.line := by
  have hline : ∀ e : Equals, checking (accumulate e.value.1) (accumulate e.value.2)
      = Equation.line (e.left.side, e.right.side) := fun e => by
    rw [Equals.value, Expr.accumulate_value, Expr.accumulate_value]
    rfl
  induction l with
  | last e => exact congrArg (fun x => [x]) (hline e)
  | next e l ih =>
    rw [lines, value, insert, List.reverse_append, equations, List.map_cons, ← ih, ← hline]
    rfl

end Adv

end NumGrammar
