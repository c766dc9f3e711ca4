import Mathlib.Algebra.Order.Field.Basic
import Mathlib.Algebra.Order.Field.Rat
import Mathlib.Data.Nat.GCD.Basic
import Mathlib.Tactic.Linarith
import Mathlib.Tactic.Positivity
import Mathlib.Tactic.Ring

/-!
# The Stern–Brocot tree

The tree's nodes are the mediants of a shrinking interval of fractions that
starts as `0/1, 1/0`: a turn to the left replaces the upper end by the
mediant, a turn to the right the lower one. A path is read from the root, so
the two children of the node at `w` are the nodes at `w` extended by one
turn.

Read from its *first* turn instead, a path acts on a fraction by the two
moves `p/q ↦ p/(p+q)` and `p/q ↦ (p+q)/q` (`node_left`, `node_right`); that is
the recursion the facts below follow. Every node is a positive fraction in
lowest terms, every such fraction is a node, and no two paths reach the same
one: **Main result** (`existsUnique_node`).

The breadth-first order numbers the paths: the root is `0` and the children of
`n` are `2n + 1` and `2n + 2`.
-/

namespace SternBrocot

/-- A step from a node to one of its two children. -/
inductive Turn
  | left
  | right
deriving DecidableEq

/-- The other turn. -/
def Turn.flip : Turn → Turn
  | left => right
  | right => left

/-! ## Nodes as mediants -/

/-- An interval of fractions by its two ends, each a numerator with a
denominator. -/
structure Ends where
  /-- The lower end. -/
  lo : ℕ × ℕ
  /-- The upper end. -/
  hi : ℕ × ℕ

/-- The mediant of two fractions. -/
def mediant (a b : ℕ × ℕ) : ℕ × ℕ := (a.1 + b.1, a.2 + b.2)

/-- The interval below a node once a turn is taken. -/
def Ends.turn (e : Ends) : Turn → Ends
  | .left => ⟨e.lo, mediant e.lo e.hi⟩
  | .right => ⟨mediant e.lo e.hi, e.hi⟩

/-- The interval at the root. -/
def Ends.root : Ends := ⟨(0, 1), (1, 0)⟩

/-- **The node at a path**: the mediant of what the path's turns have made of
the root's interval. -/
def node (w : List Turn) : ℕ × ℕ :=
  let e := w.foldl Ends.turn Ends.root
  mediant e.lo e.hi

@[simp] theorem node_nil : node [] = (1, 1) := rfl

/-! ## Paths by their first turn -/

/-- What a first turn does to the fraction the rest of the path reaches. -/
def Turn.move : Turn → ℕ × ℕ → ℕ × ℕ
  | left, (p, q) => (p, p + q)
  | right, (p, q) => (p + q, q)

/-- A move takes mediants to mediants. -/
theorem Turn.move_mediant (t : Turn) (a b : ℕ × ℕ) :
    t.move (mediant a b) = mediant (t.move a) (t.move b) := by
  cases t <;> simp only [move, mediant, Nat.add_add_add_comm]

/-- **Descending commutes with a move**: the interval moved first and
narrowed afterwards is the one narrowed first and moved afterwards. -/
theorem foldl_turn_move (t : Turn) (w : List Turn) (e : Ends) :
    w.foldl Ends.turn ⟨t.move e.lo, t.move e.hi⟩
      = ⟨t.move (w.foldl Ends.turn e).lo, t.move (w.foldl Ends.turn e).hi⟩ := by
  induction w generalizing e with
  | nil => rfl
  | cons u w ih =>
    rw [List.foldl_cons, List.foldl_cons, ← ih (e.turn u)]
    cases u <;> simp only [Ends.turn, Turn.move_mediant]

/-- A turn put in front of a path is a move of its node. -/
theorem node_cons (t : Turn) (w : List Turn) : node (t :: w) = t.move (node w) := by
  have hroot : Ends.root.turn t = ⟨t.move Ends.root.lo, t.move Ends.root.hi⟩ := by
    cases t <;> rfl
  simp only [node, List.foldl_cons, hroot, foldl_turn_move, Turn.move_mediant]

@[simp] theorem node_left (w : List Turn) :
    node (.left :: w) = ((node w).1, (node w).1 + (node w).2) := node_cons _ w

@[simp] theorem node_right (w : List Turn) :
    node (.right :: w) = ((node w).1 + (node w).2, (node w).2) := node_cons _ w

/-- Some turns to the right add as often the whole. -/
theorem node_replicate_right (a : ℕ) (w : List Turn) :
    node (List.replicate a .right ++ w) = (a * (node w).2 + (node w).1, (node w).2) := by
  induction a with
  | zero => simp
  | succ a ih =>
    rw [List.replicate_succ, List.cons_append, node_right, ih]
    simp only [Prod.mk.injEq, and_true]
    ring

/-- Some turns to the left do the same to the inverse. -/
theorem node_replicate_left (a : ℕ) (w : List Turn) :
    node (List.replicate a .left ++ w) = ((node w).1, a * (node w).1 + (node w).2) := by
  induction a with
  | zero => simp
  | succ a ih =>
    rw [List.replicate_succ, List.cons_append, node_left, ih]
    simp only [Prod.mk.injEq, true_and]
    ring

/-! ## Every fraction once -/

/-- A node has a positive numerator and a positive denominator. -/
theorem node_pos (w : List Turn) : 0 < (node w).1 ∧ 0 < (node w).2 := by
  induction w with
  | nil => exact ⟨Nat.one_pos, Nat.one_pos⟩
  | cons t w ih => cases t <;> simp <;> omega

/-- A node is in lowest terms. -/
theorem node_coprime (w : List Turn) : (node w).1.Coprime (node w).2 := by
  induction w with
  | nil => exact Nat.coprime_one_left 1
  | cons t w ih => cases t <;> simpa using ih

/-- **No node is reached twice.** The first turn of a path shows in its node
being below or above one. -/
theorem node_injective : Function.Injective node := by
  intro v
  induction v with
  | nil =>
    intro w h
    cases w with
    | nil => rfl
    | cons u w =>
      have := node_pos w
      cases u <;> simp at h <;> omega
  | cons t v ih =>
    intro w h
    cases w with
    | nil =>
      have := node_pos v
      cases t <;> simp at h <;> omega
    | cons u w =>
      have hv := node_pos v
      have hw := node_pos w
      cases t <;> cases u <;> simp only [node_left, node_right, Prod.mk.injEq] at h
      · rw [ih (Prod.ext h.1 (by omega))]
      · omega
      · omega
      · rw [ih (Prod.ext (by omega) h.2)]

/-- **Every positive fraction in lowest terms is a node**, by the subtractive
Euclidean algorithm. -/
theorem exists_node_eq (p q : ℕ) (hp : 0 < p) (hq : 0 < q) (hpq : p.Coprime q) :
    ∃ w, node w = (p, q) := by
  rcases lt_trichotomy p q with h | rfl | h
  · obtain ⟨w, hw⟩ := exists_node_eq p (q - p) hp (by omega)
      ((Nat.coprime_sub_self_right h.le).mpr hpq)
    exact ⟨.left :: w, by rw [node_left, hw]; simp only [Prod.mk.injEq, true_and]; omega⟩
  · obtain rfl : p = 1 := by simpa using hpq
    exact ⟨[], rfl⟩
  · obtain ⟨w, hw⟩ := exists_node_eq (p - q) q (by omega) hq
      ((Nat.coprime_sub_self_left h.le).mpr hpq)
    exact ⟨.right :: w, by rw [node_right, hw]; simp only [Prod.mk.injEq, and_true]; omega⟩
termination_by p + q

/-- **Main result: every positive fraction in lowest terms is reached by
exactly one path.** -/
theorem existsUnique_node (p q : ℕ) (hp : 0 < p) (hq : 0 < q) (hpq : p.Coprime q) :
    ∃! w, node w = (p, q) := by
  obtain ⟨w, hw⟩ := exists_node_eq p q hp hq hpq
  exact ⟨w, hw, fun v hv => node_injective (hv.trans hw.symm)⟩

/-! ## Order -/

/-- The fraction a node stands for. -/
def value (a : ℕ × ℕ) : ℚ := a.1 / a.2

/-- Comparing nodes is comparing products across. -/
theorem value_node_lt {v w : List Turn} :
    value (node v) < value (node w) ↔ (node v).1 * (node w).2 < (node w).1 * (node v).2 := by
  have hv : (0 : ℚ) < (node v).2 := by exact_mod_cast (node_pos v).2
  have hw : (0 : ℚ) < (node w).2 := by exact_mod_cast (node_pos w).2
  rw [value, value, div_lt_div_iff₀ hv hw]
  exact_mod_cast Iff.rfl

/-- A common first turn does not change how two nodes compare. -/
theorem value_node_cons_lt (t : Turn) {v w : List Turn} :
    value (node (t :: v)) < value (node (t :: w)) ↔ value (node v) < value (node w) := by
  rw [value_node_lt, value_node_lt]
  cases t with
  | left => simp only [node_left]; constructor <;> intro h <;> nlinarith only [h]
  | right => simp only [node_right]; constructor <;> intro h <;> nlinarith only [h]

/-- The left child is below its node. -/
theorem value_left_lt (w : List Turn) : value (node (w ++ [.left])) < value (node w) := by
  induction w with
  | nil => rw [value_node_lt]; decide
  | cons t w ih => exact (value_node_cons_lt t).mpr ih

/-- The right child is above its node. -/
theorem value_lt_right (w : List Turn) : value (node w) < value (node (w ++ [.right])) := by
  induction w with
  | nil => rw [value_node_lt]; decide
  | cons t w ih => exact (value_node_cons_lt t).mpr ih

/-! ## The breadth-first order -/

/-- The path that is the `n`-th in breadth-first order. -/
def breadthFirst (n : ℕ) : List Turn :=
  if n = 0 then []
  else breadthFirst ((n - 1) / 2) ++ [if n % 2 = 1 then .left else .right]

@[simp] theorem breadthFirst_zero : breadthFirst 0 = [] := by simp [breadthFirst]

/-- The left child of the `n`-th path. -/
theorem breadthFirst_left (n : ℕ) : breadthFirst (2 * n + 1) = breadthFirst n ++ [.left] := by
  rw [breadthFirst, if_neg (by omega), if_pos (by omega), show (2 * n + 1 - 1) / 2 = n by omega]

/-- The right child of the `n`-th path. -/
theorem breadthFirst_right (n : ℕ) : breadthFirst (2 * n + 2) = breadthFirst n ++ [.right] := by
  rw [breadthFirst, if_neg (by omega), if_neg (by omega), show (2 * n + 2 - 1) / 2 = n by omega]

/-- The number of a path. -/
def number (w : List Turn) : ℕ :=
  w.foldl (fun n t => match t with | .left => 2 * n + 1 | .right => 2 * n + 2) 0

/-- A path's number leads back to it. -/
theorem breadthFirst_number (w : List Turn) : breadthFirst (number w) = w := by
  induction w using List.reverseRecOn with
  | nil => simp [number]
  | append_singleton w t ih =>
    rw [number, List.foldl_append]
    rw [← number]
    cases t with
    | left => exact (breadthFirst_left _).trans (by rw [ih])
    | right => exact (breadthFirst_right _).trans (by rw [ih])

/-- A number is the one of its path. -/
theorem number_breadthFirst (n : ℕ) : number (breadthFirst n) = n := by
  induction n using breadthFirst.induct with
  | case1 => simp [number]
  | case2 n hn ih =>
    rw [breadthFirst, if_neg hn, number, List.foldl_append, ← number, ih]
    split_ifs <;> simp only [List.foldl_cons, List.foldl_nil] <;> omega

/-- **Breadth first, every positive fraction in lowest terms comes once.** -/
theorem existsUnique_breadthFirst (p q : ℕ) (hp : 0 < p) (hq : 0 < q) (hpq : p.Coprime q) :
    ∃! n, node (breadthFirst n) = (p, q) := by
  obtain ⟨w, hw, hunique⟩ := existsUnique_node p q hp hq hpq
  refine ⟨number w, by simpa only [breadthFirst_number] using hw, fun n hn => ?_⟩
  rw [← hunique _ hn, number_breadthFirst]

end SternBrocot
