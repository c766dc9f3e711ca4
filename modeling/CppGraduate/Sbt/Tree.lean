import CppGraduate.Sbt.ContFrac

/-!
# The children of a rational

The terms of a continued fraction are the lengths of the runs of equal turns
on the way to its fraction: to the right by the first term, to the left by the
second, and so on, with the last run one shorter. Raising the last term is
therefore one more turn the same way, and splitting one off the last term and
putting a `2` after it is one turn the other way – which is what `childs` does
(`childs_node`).

Expanding every node from the root then produces the whole tree, and
breadth first, as `test_queue` goes, iteration `n` prints the `n`-th node:
**Main result** (`childs_sternBrocot`).
-/

open SternBrocot

namespace Sbt

/-! ## Runs of turns -/

/-- The turns a continued fraction stands for, every term a whole run. -/
def runs : Turn → List ℕ → List Turn
  | _, [] => []
  | t, a :: cf => List.replicate a t ++ runs t.flip cf

/-- The turn after as many runs as there are terms. -/
def nextTurn : Turn → List ℕ → Turn
  | t, [] => t
  | t, _ :: cf => nextTurn t.flip cf

@[simp] theorem nextTurn_append (t : Turn) (cf : List ℕ) (a : ℕ) :
    nextTurn t (cf ++ [a]) = (nextTurn t cf).flip := by
  induction cf generalizing t with
  | nil => rfl
  | cons b cf ih => exact ih t.flip

theorem runs_append (t : Turn) (cf : List ℕ) (a : ℕ) :
    runs t (cf ++ [a]) = runs t cf ++ List.replicate a (nextTurn t cf) := by
  induction cf generalizing t with
  | nil => simp [runs, nextTurn]
  | cons b cf ih => simp [runs, nextTurn, ih]

/-- A fraction, or its inverse when the first run goes to the left. -/
def orient : Turn → ℕ × ℕ → ℕ × ℕ
  | .right, s => s
  | .left, s => s.swap

/-- **The node a continued fraction leads to**: all its runs, the last one
shorter by one turn. -/
theorem node_runs (t : Turn) (cf : List ℕ) (a : ℕ) :
    node (runs t cf ++ List.replicate a (nextTurn t cf)) = orient t (eval (cf ++ [a + 1])) := by
  induction cf generalizing t with
  | nil =>
    cases t with
    | left =>
      have h := node_replicate_left a []
      simpa [runs, nextTurn, orient, eval, convergent] using h
    | right =>
      have h := node_replicate_right a []
      simpa [runs, nextTurn, orient, eval, convergent] using h
  | cons b cf ih =>
    rw [runs, nextTurn, List.append_assoc]
    cases t with
    | left =>
      rw [node_replicate_left, ih]
      rfl
    | right =>
      rw [node_replicate_right, ih]
      rfl

/-- The path to a fraction, from its continued fraction. -/
theorem node_contfrac {p q a : ℕ} {cf : List ℕ} (hpq : p.Coprime q)
    (hcf : contfrac p q = cf ++ [a + 1]) :
    node (runs .right cf ++ List.replicate a (nextTurn .right cf)) = (p, q) := by
  rw [node_runs, ← hcf, eval_contfrac p q hpq, orient]

/-! ## Children -/

/-- The quotient of a node is its value. -/
theorem quotient_ofPair (s : ℕ × ℕ) : quotient (ofPair s) = value s := by
  simp [quotient, value, ofPair]

/-- Of the two children in either order the left one is the smaller. -/
theorem rationalMin_children (w : List Turn) (t : Turn) :
    rationalMin (ofPair (node (w ++ [t]))) (ofPair (node (w ++ [t.flip])))
        = ofPair (node (w ++ [.left])) ∧
      rationalMax (ofPair (node (w ++ [t]))) (ofPair (node (w ++ [t.flip])))
        = ofPair (node (w ++ [.right])) := by
  have hlt := (value_left_lt w).trans (value_lt_right w)
  unfold rationalMin rationalMax
  simp only [quotient_ofPair]
  cases t with
  | left => exact ⟨if_neg hlt.not_gt, if_pos hlt.le⟩
  | right => exact ⟨if_pos hlt, if_neg hlt.not_ge⟩

/-- **`childs` returns the two children of a node**, the left one first. -/
theorem childs_node (w : List Turn) :
    childs (ofPair (node w))
      = some (ofPair (node (w ++ [.left])), ofPair (node (w ++ [.right]))) := by
  obtain ⟨hp, hq⟩ := node_pos w
  obtain ⟨cf, a, hcf⟩ := exists_contfrac_eq _ _ hp hq
  have hw : runs .right cf ++ List.replicate a (nextTurn .right cf) = w :=
    node_injective (node_contfrac (node_coprime w) hcf)
  -- raising the last term lengthens the last run
  have hsame : eval (cf ++ [a + 1 + 1]) = node (w ++ [nextTurn .right cf]) := by
    rw [show eval (cf ++ [a + 1 + 1]) = orient .right (eval (cf ++ [a + 1 + 1])) from rfl,
      ← node_runs, List.replicate_succ', ← List.append_assoc, hw]
  -- splitting it starts a new run
  have hother : eval (cf ++ [a] ++ [2]) = node (w ++ [(nextTurn .right cf).flip]) := by
    rw [show eval (cf ++ [a] ++ [2]) = orient .right (eval (cf ++ [a] ++ [1 + 1])) from rfl,
      ← node_runs, runs_append, nextTurn_append, hw, List.replicate_one]
  have helt1 := fromContfrac_natCast cf (a + 1 + 1)
  have helt2 := fromContfrac_natCast (cf ++ [a]) 2
  rw [hsame] at helt1
  rw [hother] at helt2
  have hexp : toContfrac (node w).1 (node w).2 = some (cf.map (↑) ++ [(a : ℤ) + 1]) := by
    rw [toContfrac_natCast _ _ hq (node_coprime w), hcf]
    simp
  obtain ⟨hmin, hmax⟩ := rationalMin_children w (nextTurn .right cf)
  have h1 : fromContfrac (cf.map (↑) ++ [(a : ℤ) + 1 + 1])
      = some (ofPair (node (w ++ [nextTurn .right cf]))) := by simpa using helt1
  have h2 : fromContfrac (cf.map (↑) ++ [(a : ℤ) + 1 - 1, 2])
      = some (ofPair (node (w ++ [(nextTurn .right cf).flip]))) := by simpa using helt2
  simp only [childs, ofPair, hexp, Option.bind_eq_bind, Option.bind_some, List.getLast?_concat,
    List.dropLast_concat]
  simp only [h1, h2, Option.bind_some, hmin, hmax]
  rfl

/-! ## The queue -/

/-- **The queue breadth first**: after `n` iterations that all expand, the
nodes from the `n`-th to the `2n`-th. -/
theorem queueAfter_all (n : ℕ) :
    queueAfter (fun _ => true) n
      = some ((List.range' n (n + 1)).map (fun i => ofPair (node (breadthFirst i)))) := by
  induction n with
  | zero => simp [queueAfter, ofPair, top]
  | succ n ih =>
    rw [queueAfter, ih, Option.bind_some, List.range'_succ, List.map_cons, queueStep]
    simp only [if_true, childs_node, Option.bind_eq_bind, Option.bind_some]
    rw [← breadthFirst_left, ← breadthFirst_right]
    have hrange : List.range' (n + 1) (n + 1 + 1)
        = List.range' (n + 1) n ++ [2 * n + 1, 2 * n + 2] := by
      rw [List.range'_concat, List.range'_concat, List.append_assoc,
        show n + 1 + 1 * n = 2 * n + 1 by omega, show n + 1 + 1 * (n + 1) = 2 * n + 2 by omega]
      rfl
    rw [hrange, List.map_append]
    rfl

/-- Expanding every node, iteration `n` prints the `n`-th node. -/
theorem printed_all (n : ℕ) :
    printed (fun _ => true) n = some (ofPair (node (breadthFirst n))) := by
  rw [printed, queueAfter_all, List.range'_succ]
  rfl

/-! ## The whole tree -/

/-- A reduced rational is a node of the tree. -/
theorem exists_pair {x : Rational} (hx : Reduced x) :
    ∃ p q : ℕ, 0 < p ∧ 0 < q ∧ p.Coprime q ∧ x = ofPair (p, q) := by
  obtain ⟨p, q⟩ := x
  obtain ⟨hp, hq, hgcd⟩ := hx
  simp only at hp hq hgcd
  lift p to ℕ using hp.le
  lift q to ℕ using hq.le
  exact ⟨p, q, by omega, by omega, hgcd, rfl⟩

/-- A node of the tree is a reduced rational. -/
theorem reduced_node (w : List Turn) : Reduced (ofPair (node w)) := by
  obtain ⟨hp, hq⟩ := node_pos w
  exact ⟨Int.natCast_pos.mpr hp, Int.natCast_pos.mpr hq, node_coprime w⟩

/-- **Main result: `childs` builds the Stern–Brocot tree.** A positive rational
in lowest terms is expanded into a continued fraction that evaluates to it
again; it is a node of the tree, and `childs` returns that node's left and
right child, which are positive, in lowest terms and on either side of it. The
expansion of every node from `top` prints it in exactly one iteration, and
prints nothing but such rationals. -/
theorem childs_sternBrocot (x : Rational) (hx : Reduced x) :
    ((toContfrac x.1 x.2).bind fromContfrac = some x) ∧
      (∃ w l r, ofPair (node w) = x ∧ childs x = some (l, r) ∧
        l = ofPair (node (w ++ [.left])) ∧ r = ofPair (node (w ++ [.right])) ∧
        Reduced l ∧ Reduced r ∧ quotient l < quotient x ∧ quotient x < quotient r) ∧
      (∃! n, printed (fun _ => true) n = some x) ∧
      ∀ n, ∃ y, printed (fun _ => true) n = some y ∧ Reduced y := by
  obtain ⟨p, q, hp, hq, hpq, rfl⟩ := exists_pair hx
  refine ⟨?_, ?_, ?_, fun n => ⟨_, printed_all n, reduced_node _⟩⟩
  · obtain ⟨cf, a, hcf⟩ := exists_contfrac_eq p q hp hq
    simp only [ofPair]
    rw [toContfrac_natCast p q hq hpq, Option.bind_some, hcf, fromContfrac_natCast, ← hcf,
      eval_contfrac p q hpq]
    rfl
  · obtain ⟨w, hw, -⟩ := existsUnique_node p q hp hq hpq
    rw [← hw]
    refine ⟨w, _, _, rfl, childs_node w, rfl, rfl, reduced_node _, reduced_node _, ?_, ?_⟩
    · simpa only [quotient_ofPair] using value_left_lt w
    · simpa only [quotient_ofPair] using value_lt_right w
  · have hinj : ∀ n, printed (fun _ => true) n = some (ofPair (p, q))
        ↔ node (breadthFirst n) = (p, q) := by
      intro n
      rw [printed_all]
      simp [ofPair, Prod.ext_iff]
    simpa only [hinj] using existsUnique_breadthFirst p q hp hq hpq

/-- At `3/2`, whose children are `4/3` and `5/3`. -/
theorem childs_sternBrocot_three_halves :
    ((toContfrac 3 2).bind fromContfrac = some (3, 2)) ∧
      (∃ w l r, ofPair (node w) = (3, 2) ∧ childs (3, 2) = some (l, r) ∧
        l = ofPair (node (w ++ [.left])) ∧ r = ofPair (node (w ++ [.right])) ∧
        Reduced l ∧ Reduced r ∧ quotient l < quotient (3, 2) ∧ quotient (3, 2) < quotient r) ∧
      (∃! n, printed (fun _ => true) n = some (3, 2)) ∧
      ∀ n, ∃ y, printed (fun _ => true) n = some y ∧ Reduced y :=
  childs_sternBrocot (3, 2) ⟨by decide, by decide, by decide⟩

end Sbt
