import CppGraduate.Lib.SternBrocot
import Mathlib.Data.Int.GCD

/-!
# Rationals and continued fractions

`childs` finds the children of a rational in the Stern–Brocot tree by way of
its continued fraction: it expands the rational, edits the last term in two
ways and evaluates the two results, smaller one first.

Integers are unbounded and quotients are compared exactly, so what is left of
the arithmetic of `int` and `double` is that `/` and `%` truncate towards zero
and that a division by zero, like a failed `assert`, has no result: `none`.
-/

namespace Sbt

/-- `rational_t`: a numerator and a denominator. -/
abbrev Rational := ℤ × ℤ

/-- The root of the tree. -/
def top : Rational := (1, 1)

/-- The remainder of a truncating division is smaller than the divisor. -/
theorem natAbs_tmod_lt (a : ℤ) {b : ℤ} (hb : b ≠ 0) : (a.tmod b).natAbs < b.natAbs := by
  rw [Int.natAbs_tmod]
  exact Nat.mod_lt _ (Int.natAbs_pos.mpr hb)

/-- The loop of `gcd`. -/
def gcdLoop (a b : ℤ) : ℤ :=
  if b = 0 then a else gcdLoop b (a.tmod b)
termination_by b.natAbs
decreasing_by exact natAbs_tmod_lt a ‹_›

/-- The greatest common divisor, the larger argument first. -/
def gcd (a b : ℤ) : ℤ := if a < b then gcdLoop b a else gcdLoop a b

/-- The loop of `to_contfrac`; `res` is what it has pushed. -/
def toContfracLoop (x y : ℤ) (res : List ℤ) : Option (List ℤ) :=
  if y = 0 then none
  else
    let i := x.tdiv y
    let f := x.tmod y
    if f = 0 then some (res ++ [i])
    else
      let cdiv := gcd y f
      if cdiv = 0 then none
      else toContfracLoop (y.tdiv cdiv) (f.tdiv cdiv) (res ++ [i])
termination_by y.natAbs
decreasing_by
  refine lt_of_le_of_lt ?_ (natAbs_tmod_lt x ‹_›)
  rw [Int.natAbs_tdiv]
  exact Nat.div_le_self _ _

/-- **Continued fraction of `x / y`**, asserting that `y` is not zero. -/
def toContfrac (x y : ℤ) : Option (List ℤ) := if y = 0 then none else toContfracLoop x y []

/-- The body of the loop of `from_contfrac`: `x / y` becomes
`cur + y / x`, cancelled. -/
def fromContfracStep : Rational → ℤ → Option Rational
  | (x, y), cur =>
    let cdiv := gcd (cur * x + y) x
    if cdiv = 0 then none else some ((cur * x + y).tdiv cdiv, x.tdiv cdiv)

/-- **The rational a continued fraction stands for**, evaluated from its last
term backwards; asserts that there is one. -/
def fromContfrac (cf : List ℤ) : Option Rational := do
  let x ← cf.getLast?
  cf.dropLast.reverse.foldlM fromContfracStep (x, 1)

/-- The quotient the comparisons compute. -/
def quotient (x : Rational) : ℚ := x.1 / x.2

/-- The smaller of two rationals, the first of two equal ones. -/
def rationalMin (x₁ x₂ : Rational) : Rational :=
  if quotient x₁ > quotient x₂ then x₂ else x₁

/-- The larger of two rationals, the second of two equal ones. -/
def rationalMax (x₁ x₂ : Rational) : Rational :=
  if quotient x₁ ≤ quotient x₂ then x₂ else x₁

/-- **The two children of a rational.** With `[a₀, …, aₖ]` its continued
fraction, one child is `[a₀, …, aₖ + 1]` and the other `[a₀, …, aₖ - 1, 2]`. -/
def childs (cur : Rational) : Option (Rational × Rational) := do
  let cf ← toContfrac cur.1 cur.2
  let a ← cf.getLast?
  let elt1 ← fromContfrac (cf.dropLast ++ [a + 1])
  let elt2 ← fromContfrac (cf.dropLast ++ [a - 1, 2])
  return (rationalMin elt1 elt2, rationalMax elt1 elt2)

/-- One iteration of `test_queue`: the front of the queue is popped and, where
`expand` says so, its children are pushed at the back. -/
def queueStep (expand : Rational → Bool) : List Rational → Option (List Rational)
  | [] => none
  | cur :: q =>
    if expand cur then do
      let (left, right) ← childs cur
      return q ++ [left, right]
    else some q

/-- The queue after `n` iterations. -/
def queueAfter (expand : Rational → Bool) : ℕ → Option (List Rational)
  | 0 => some [top]
  | n + 1 => (queueAfter expand n).bind (queueStep expand)

/-- What iteration `n` prints: the front of the queue it finds. -/
def printed (expand : Rational → Bool) (n : ℕ) : Option Rational :=
  (queueAfter expand n).bind List.head?

/-- A positive rational in lowest terms. -/
def Reduced (x : Rational) : Prop := 0 < x.1 ∧ 0 < x.2 ∧ Int.gcd x.1 x.2 = 1

/-! ## The greatest common divisor -/

/-- On naturals the loop computes their greatest common divisor. -/
theorem gcdLoop_natCast (a b : ℕ) : gcdLoop a b = Nat.gcd a b := by
  induction b using Nat.strong_induction_on generalizing a with
  | h b ih =>
    rw [gcdLoop]
    split_ifs with hb
    · simp [Int.natCast_eq_zero.mp hb]
    · have hpos : 0 < b := by omega
      rw [← Int.ofNat_tmod, ih (a % b) (Nat.mod_lt a hpos) b, Nat.gcd_comm a b, Nat.gcd_rec b a,
        Nat.gcd_comm]

/-- On naturals `gcd` is the greatest common divisor, in either order. -/
theorem gcd_natCast (a b : ℕ) : gcd a b = Nat.gcd a b := by
  unfold gcd
  split_ifs
  · rw [gcdLoop_natCast, Nat.gcd_comm]
  · rw [gcdLoop_natCast]

/-! ## Expanding -/

/-- The continued fraction of `p / q` by Euclid's algorithm. -/
def contfrac (p q : ℕ) : List ℕ :=
  if q = 0 then [] else p / q :: contfrac q (p % q)
termination_by q
decreasing_by exact Nat.mod_lt _ (Nat.pos_of_ne_zero ‹_›)

/-- What the terms from the second on are worth, with a first one before
them. -/
def convergent (a : ℕ) (s : ℕ × ℕ) : ℕ × ℕ := (a * s.1 + s.2, s.1)

/-- The fraction a continued fraction stands for; the empty one is
infinite. -/
def eval (cf : List ℕ) : ℕ × ℕ := cf.foldr convergent (1, 0)

/-- A step of Euclid's algorithm keeps a fraction in lowest terms. -/
theorem coprime_mod {p q : ℕ} (hpq : p.Coprime q) : q.Coprime (p % q) := by
  rw [Nat.coprime_comm, Nat.Coprime, ← Nat.gcd_rec, Nat.gcd_comm]
  exact hpq

/-- Evaluating an expansion gives the fraction back. -/
theorem eval_contfrac (p q : ℕ) (hpq : p.Coprime q) : eval (contfrac p q) = (p, q) := by
  induction q using Nat.strong_induction_on generalizing p with
  | h q ih =>
    rw [contfrac]
    split_ifs with hq
    · subst hq
      rw [show p = 1 by simpa using hpq]
      rfl
    · have hlt : p % q < q := Nat.mod_lt p (Nat.pos_of_ne_zero hq)
      have hrec : q.Coprime (p % q) := coprime_mod hpq
      rw [eval, List.foldr_cons, ← eval, ih _ hlt q hrec]
      simp only [convergent, Prod.mk.injEq, and_true]
      rw [Nat.mul_comm]
      exact Nat.div_add_mod p q

/-- The last term of an expansion is at least one. -/
theorem exists_contfrac_eq (p q : ℕ) (hp : 0 < p) (hq : 0 < q) :
    ∃ cf a, contfrac p q = cf ++ [a + 1] := by
  induction q using Nat.strong_induction_on generalizing p with
  | h q ih =>
    rw [contfrac, if_neg hq.ne']
    rcases Nat.eq_zero_or_pos (p % q) with h | h
    · have hdiv : 0 < p / q :=
        Nat.div_pos (Nat.le_of_dvd hp (Nat.dvd_of_mod_eq_zero h)) hq
      refine ⟨[], p / q - 1, ?_⟩
      rw [h, contfrac, if_pos rfl, List.nil_append, Nat.sub_add_cancel hdiv]
    · obtain ⟨cf, a, hcf⟩ := ih (p % q) (Nat.mod_lt p hq) q hq h
      exact ⟨p / q :: cf, a, by rw [hcf, List.cons_append]⟩

/-- The loop appends the expansion of a fraction in lowest terms: the
cancelling in it has nothing to cancel. -/
theorem toContfracLoop_natCast (p q : ℕ) (hq : 0 < q) (hpq : p.Coprime q) (res : List ℤ) :
    toContfracLoop p q res = some (res ++ (contfrac p q).map (↑)) := by
  induction q using Nat.strong_induction_on generalizing p res with
  | h q ih =>
    have hrec : q.Coprime (p % q) := coprime_mod hpq
    rw [toContfracLoop, if_neg (by omega), contfrac, if_neg hq.ne']
    simp only [← Int.ofNat_tdiv, ← Int.ofNat_tmod, Int.natCast_eq_zero, gcd_natCast]
    split_ifs with hf hgcd
    · rw [hf, contfrac, if_pos rfl, List.map_cons, List.map_nil]
    · rw [hrec] at hgcd
      exact absurd hgcd Nat.one_ne_zero
    · rw [hrec, Nat.div_one, Nat.div_one,
        ih _ (Nat.mod_lt p hq) q (Nat.pos_of_ne_zero hf) hrec, List.map_cons,
        List.append_assoc, List.singleton_append]

/-- **`to_contfrac` computes the continued fraction** of a fraction in lowest
terms. -/
theorem toContfrac_natCast (p q : ℕ) (hq : 0 < q) (hpq : p.Coprime q) :
    toContfrac p q = some ((contfrac p q).map (↑)) := by
  rw [toContfrac, if_neg (by omega), toContfracLoop_natCast p q hq hpq, List.nil_append]

/-! ## Evaluating -/

/-- A pair of naturals as a rational. -/
def ofPair (s : ℕ × ℕ) : Rational := (s.1, s.2)

/-- One more term in front keeps a fraction in lowest terms. -/
theorem coprime_convergent {s : ℕ × ℕ} (hs : s.1.Coprime s.2) (a : ℕ) :
    (convergent a s).1.Coprime (convergent a s).2 := by
  have h : s.2.Coprime s.1 := Nat.coprime_comm.mp hs
  simpa [convergent, Nat.add_comm] using h

/-- The body of the loop puts a term in front. -/
theorem fromContfracStep_ofPair {s : ℕ × ℕ} (hs : s.1.Coprime s.2) (a : ℕ) :
    fromContfracStep (ofPair s) a = some (ofPair (convergent a s)) := by
  have hgcd : gcd ((a : ℤ) * s.1 + s.2) s.1 = 1 := by
    have h := gcd_natCast (a * s.1 + s.2) s.1
    rw [show (a * s.1 + s.2).gcd s.1 = 1 from coprime_convergent hs a] at h
    exact_mod_cast h
  simp [fromContfracStep, ofPair, convergent, hgcd]

/-- The loop puts the terms in front one by one. -/
theorem foldlM_fromContfracStep (cf : List ℕ) {s : ℕ × ℕ} (hs : s.1.Coprime s.2) :
    (cf.map (↑)).reverse.foldlM fromContfracStep (ofPair s)
        = some (ofPair (cf.foldr convergent s)) ∧
      (cf.foldr convergent s).1.Coprime (cf.foldr convergent s).2 := by
  induction cf with
  | nil => exact ⟨rfl, hs⟩
  | cons a cf ih =>
    obtain ⟨hrun, hco⟩ := ih
    refine ⟨?_, coprime_convergent hco a⟩
    rw [List.map_cons, List.reverse_cons, List.foldlM_append, hrun]
    simpa using fromContfracStep_ofPair hco a

/-- **`from_contfrac` evaluates** every continued fraction of naturals that
has a last term. -/
theorem fromContfrac_natCast (cf : List ℕ) (a : ℕ) :
    fromContfrac ((cf ++ [a]).map (↑)) = some (ofPair (eval (cf ++ [a]))) := by
  have hrun := (foldlM_fromContfracStep cf (s := (a, 1)) (Nat.coprime_one_right a)).1
  rw [fromContfrac, List.map_append, List.map_singleton, List.getLast?_concat,
    List.dropLast_concat, eval, List.foldr_append]
  simpa [convergent, ofPair] using hrun

end Sbt
