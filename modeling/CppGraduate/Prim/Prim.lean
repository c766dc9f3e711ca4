import CppGraduate.Lib.CxxInt
import CppGraduate.Lib.SpanningTree
import Mathlib.Algebra.BigOperators.Group.Finset.Basic
import Mathlib.Algebra.Order.BigOperators.Group.Finset
import Mathlib.Data.Fin.VecNotation
import Mathlib.Data.Fintype.BigOperators
import Mathlib.Data.List.Sort
import Mathlib.Data.Prod.Lex
import Mathlib.Data.Sym.Sym2

/-!
# Prim's algorithm

`prim.cc`: a graph as adjacency lists, and `prim`, which grows a tree from
the first vertex with a priority queue of pairs of a vertex and a weight.
`std::pair` compares vertices first, so that what the queue delivers is a
pair of the greatest vertex in it, and weights only order the pairs of one
vertex.

The state of the loop is the local variables of `prim`; the loop is given
as many rounds as it may take, and `loop_ends` says that enough of them end
it. The vertex before a parent is known, `-1` in the program, is `none`.
-/

namespace Prim

open Cxx

/-- `VertexTy`, in a graph of `V` vertices. -/
abbrev VertexTy (V : ℕ) : Type := Fin V

/-- `WeightTy`, the values of `int`. -/
abbrev WeightTy : Type := {z : ℤ // IntType.int.lo ≤ z ∧ z ≤ IntType.int.hi}

/-- `INT_MIN` -/
def INT_MIN : WeightTy := ⟨IntType.int.lo, le_refl _, by decide⟩

/-- The weight 0 of the first pair pushed. -/
def zeroWeight : WeightTy := ⟨0, IntType.int.zero_mem⟩

theorem INT_MIN_le (w : WeightTy) : INT_MIN ≤ w := w.2.1

/-- `PairTy` -/
abbrev PairTy (V : ℕ) : Type := VertexTy V × WeightTy

/-- `struct Edge` -/
structure Edge (V : ℕ) where
  u : VertexTy V
  v : VertexTy V
  w : WeightTy

/-- The edge between the vertices of two numbers, as `Elist` gives them. -/
def Edge.ofNat (u v : ℕ) (w : WeightTy) {n : ℕ} : Edge (n + 1) :=
  ⟨Fin.ofNat (n + 1) u, Fin.ofNat (n + 1) v, w⟩

/-! ### The graph -/

/-- `class Graph`, of `V_` vertices. -/
structure Graph (V_ : ℕ) where
  /-- `Adj_` -/
  Adj_ : VertexTy V_ → List (PairTy V_)

variable {V n : ℕ}

namespace Graph

/-- `Graph(int V)` -/
def empty : Graph V := ⟨fun _ => []⟩

/-- `addEdge`: the edge goes to the lists of both its ends. -/
def addEdge (G : Graph V) (e : Edge V) : Graph V :=
  let Adj_ := Function.update G.Adj_ e.u (G.Adj_ e.u ++ [(e.v, e.w)])
  ⟨Function.update Adj_ e.v (Adj_ e.v ++ [(e.u, e.w)])⟩

/-- The graph built from a list of edges, as `main` does. -/
def ofEdges (es : List (Edge V)) : Graph V := es.foldl addEdge empty

end Graph

/-- `first`: there is none in an empty graph. -/
def first : (V : ℕ) → Graph V → Except String (VertexTy V)
  | 0, _ => .error "Graph empty"
  | _ + 1, _ => .ok 0

/-- `weight` -/
def weight (p : PairTy V) : WeightTy := p.2

/-- `tip` -/
def tip (p : PairTy V) : VertexTy V := p.1

/-- `adjacent` -/
def adjacent (G : Graph V) (v : VertexTy V) : List (PairTy V) := G.Adj_ v

/-! ### The algorithm -/

/-- `std::priority_queue<PairTy>::push`. The queue is the list of its
elements from the greatest down, vertices compared before weights; the
first one is `top()`, and `pop()` removes it. -/
def push (pq : List (PairTy V)) (p : PairTy V) : List (PairTy V) :=
  pq.orderedInsert (fun a b => toLex b ≤ toLex a) p

/-- The local variables of `prim`. -/
structure State (V : ℕ) where
  pq : List (PairTy V)
  mst : VertexTy V → Bool
  key : VertexTy V → WeightTy
  parent : VertexTy V → Option (VertexTy V)

/-- What is done with a pair adjacent to `elt`. -/
def relax (elt : VertexTy V) (s : State V) (e : PairTy V) : State V :=
  let w := weight e
  let v := tip e
  if s.mst v = false ∧ (s.key v : ℤ) < w then
    { s with
      key := Function.update s.key v w
      pq := push s.pq (v, w)
      parent := Function.update s.parent v (some elt) }
  else s

/-- A vertex is taken into the tree. -/
def visit (G : Graph V) (elt : VertexTy V) (s : State V) : State V :=
  (adjacent G elt).foldl (relax elt) { s with mst := Function.update s.mst elt true }

/-- The loop of `prim`, in at most so many rounds. -/
def loop (G : Graph V) : ℕ → State V → Option (State V)
  | 0, _ => none
  | rounds + 1, s =>
    match s.pq with
    | [] => some s
    | (elt, _) :: pq =>
      let s := { s with pq := pq }
      if s.mst elt then loop G rounds s else loop G rounds (visit G elt s)

/-- The variables before the loop. -/
def start (v : VertexTy V) : State V where
  pq := push [] (v, zeroWeight)
  mst := fun _ => false
  key := fun _ => INT_MIN
  parent := fun _ => none

/-- **`prim`**, in at most so many rounds of its loop. It returns `parent`;
`key` holds the weights of the edges it has chosen. -/
def prim (rounds : ℕ) (G : Graph V) : Except String (Option (State V)) := do
  let v ← first V G
  return loop G rounds (start v)

/-! ### Adjacency -/

/-- The edge of a number, as the pair of its ends. -/
def ends (es : List (Edge V)) (i : Fin es.length) : Sym2 (VertexTy V) := s(es[i].u, es[i].v)

/-- The weight of the edge of a number. -/
def weights (es : List (Edge V)) (i : Fin es.length) : ℤ := (es[i].w : ℤ)

theorem mem_update_append {α : Type} (f : VertexTy V → List α) (a u : VertexTy V) (x y : α) :
    x ∈ Function.update f a (f a ++ [y]) u ↔ x ∈ f u ∨ a = u ∧ x = y := by
  rcases eq_or_ne u a with rfl | hu
  · simp
  · simp [Function.update_of_ne hu, hu.symm]

theorem Graph.mem_adj_addEdge (G : Graph V) (e : Edge V) (u v : VertexTy V) (w : WeightTy) :
    (v, w) ∈ (G.addEdge e).Adj_ u ↔ (v, w) ∈ G.Adj_ u ∨ s(e.u, e.v) = s(u, v) ∧ e.w = w := by
  unfold Graph.addEdge
  simp only [mem_update_append, Prod.mk.injEq, Sym2.eq_iff]
  tauto

theorem mem_adjacent_iff (es : List (Edge V)) (u v : VertexTy V) (w : WeightTy) :
    (v, w) ∈ adjacent (Graph.ofEdges es) u ↔ ∃ i, ends es i = s(u, v) ∧ es[i].w = w := by
  have hmem : (v, w) ∈ adjacent (Graph.ofEdges es) u ↔
      ∃ e ∈ es, s(e.u, e.v) = s(u, v) ∧ e.w = w := by
    unfold Graph.ofEdges adjacent
    induction es using List.reverseRecOn with
    | nil => simp [Graph.empty]
    | append_singleton es e ih =>
      rw [List.foldl_append, List.foldl_cons, List.foldl_nil, Graph.mem_adj_addEdge, ih]
      simp only [List.mem_append, List.mem_singleton]
      constructor
      · rintro (⟨e', he', h⟩ | h)
        · exact ⟨e', .inl he', h⟩
        · exact ⟨e, .inr rfl, h⟩
      · rintro ⟨e', he' | rfl, h⟩
        · exact .inl ⟨e', he', h⟩
        · exact .inr h
  rw [hmem]
  constructor
  · rintro ⟨e, he, h⟩
    obtain ⟨i, hi, rfl⟩ := List.mem_iff_getElem.mp he
    exact ⟨⟨i, hi⟩, h⟩
  · rintro ⟨i, h⟩
    exact ⟨es[i], List.getElem_mem i.2, h⟩

/-! ### The tree -/

/-- The vertices that come next to a list of them: those that an edge
heavier than `INT_MIN` joins to one of the list. -/
def Front (es : List (Edge V)) (l : List (VertexTy V)) : Set (VertexTy V) :=
  {v | v ∉ l ∧ ∃ i, ∃ u ∈ l, ends es i = s(u, v) ∧ INT_MIN < es[i].w}

/-- What the variables hold of a vertex taken after those of a list: a
heaviest of its edges to them. -/
def Attached (es : List (Edge V)) (s : State V) (l : List (VertexTy V)) (v : VertexTy V) : Prop :=
  ∃ u ∈ l, s.parent v = some u ∧ (∃ i, ends es i = s(u, v) ∧ es[i].w = s.key v) ∧
    ∀ i, ∀ u' ∈ l, ends es i = s(u', v) → es[i].w ≤ s.key v

/-- `t` picks, for every vertex but the first, an edge to its parent whose
weight is its key. -/
def Records (es : List (Edge (n + 1))) (s : State (n + 1))
    (t : {v : VertexTy (n + 1) // v ≠ 0} → Fin es.length) : Prop :=
  ∀ v : {v : VertexTy (n + 1) // v ≠ 0},
    ∃ u, s.parent v = some u ∧ ends es (t v) = s(u, v.1) ∧ es[t v].w = s.key v

/-- **What is expected of `prim`**: the edges from the parents, with the
weights in `key`, are the edges of a spanning tree of greatest weight. -/
def Optimal (es : List (Edge (n + 1))) : Prop :=
  ∃ rounds s, prim rounds (Graph.ofEdges es) = .ok (some s) ∧
    ∃ t, Records es s t ∧ Function.Injective t ∧
      SpanningTree.Maximal (ends es) (weights es) Set.univ (Finset.univ.image t)

/-- The edges picked for the vertices of a list. -/
def picked {es : List (Edge (n + 1))}
    (t : {v : VertexTy (n + 1) // v ≠ 0} → Fin es.length) (l : List (VertexTy (n + 1))) :
    Finset (Fin es.length) := (Finset.univ.filter fun v => v.1 ∈ l).image t

/-! ### The loop ends -/

theorem mem_push {pq : List (PairTy V)} {p q : PairTy V} : q ∈ push pq p ↔ q = p ∨ q ∈ pq :=
  List.mem_orderedInsert _

theorem length_push (pq : List (PairTy V)) (p : PairTy V) : (push pq p).length = pq.length + 1 :=
  List.orderedInsert_length _ pq p

/-- The queue, from the greatest pair down. -/
def Sorted (pq : List (PairTy V)) : Prop := pq.Pairwise fun a b => toLex b ≤ toLex a

theorem Sorted.nil : Sorted ([] : List (PairTy V)) := List.Pairwise.nil

theorem Sorted.tail {pq : List (PairTy V)} {p : PairTy V} (h : Sorted (p :: pq)) : Sorted pq :=
  List.Pairwise.of_cons h

theorem Sorted.push {pq : List (PairTy V)} (h : Sorted pq) (p : PairTy V) : Sorted (push pq p) := by
  have : Std.Total fun a b : PairTy V => toLex b ≤ toLex a := ⟨fun a b => le_total _ _⟩
  have : IsTrans (PairTy V) fun a b => toLex b ≤ toLex a := ⟨fun _ _ _ h h' => le_trans h' h⟩
  exact List.Pairwise.orderedInsert p pq h

theorem relax_of_lt {elt : VertexTy V} {s : State V} {e : PairTy V}
    (h : s.mst e.1 = false ∧ s.key e.1 < e.2) :
    relax elt s e = { s with
      key := Function.update s.key e.1 e.2
      pq := push s.pq e
      parent := Function.update s.parent e.1 (some elt) } := if_pos h

theorem relax_of_not_lt {elt : VertexTy V} {s : State V} {e : PairTy V}
    (h : ¬ (s.mst e.1 = false ∧ s.key e.1 < e.2)) : relax elt s e = s := if_neg h

@[simp]
theorem relax_mst (elt : VertexTy V) (s : State V) (e : PairTy V) :
    (relax elt s e).mst = s.mst := by
  by_cases h : s.mst e.1 = false ∧ s.key e.1 < e.2
  · rw [relax_of_lt h]
  · rw [relax_of_not_lt h]

@[simp]
theorem foldl_relax_mst (elt : VertexTy V) (L : List (PairTy V)) (s : State V) :
    (L.foldl (relax elt) s).mst = s.mst := by
  induction L generalizing s with
  | nil => rfl
  | cons e L ih => rw [List.foldl_cons, ih, relax_mst]

theorem length_relax_le (elt : VertexTy V) (s : State V) (e : PairTy V) :
    (relax elt s e).pq.length ≤ s.pq.length + 1 := by
  by_cases h : s.mst e.1 = false ∧ s.key e.1 < e.2
  · rw [relax_of_lt h]
    exact le_of_eq (length_push _ _)
  · rw [relax_of_not_lt h]
    exact Nat.le_succ _

theorem length_foldl_relax_le (elt : VertexTy V) (L : List (PairTy V)) (s : State V) :
    (L.foldl (relax elt) s).pq.length ≤ s.pq.length + L.length := by
  induction L generalizing s with
  | nil => exact le_refl _
  | cons e L ih =>
    have := ih (relax elt s e)
    have := length_relax_le elt s e
    simp only [List.foldl_cons, List.length_cons]
    omega

/-- The pairs in the queue and those a vertex not yet taken may still add. -/
def pending (G : Graph V) (s : State V) : ℕ :=
  s.pq.length + ∑ v with s.mst v = false, (adjacent G v).length

theorem pending_visit {G : Graph V} {s : State V} {elt : VertexTy V} (h : s.mst elt = false) :
    pending G (visit G elt s) ≤ pending G s := by
  have hset : Finset.univ.filter (fun v => s.mst v = false) =
      insert elt (Finset.univ.filter fun v => Function.update s.mst elt true v = false) := by
    ext v
    rcases eq_or_ne v elt with rfl | hv
    · simp [h]
    · simp [hv]
  have hlen := length_foldl_relax_le elt (adjacent G elt)
    { s with mst := Function.update s.mst elt true }
  unfold pending visit
  rw [hset, Finset.sum_insert (by simp)]
  simp only [foldl_relax_mst] at *
  omega

section Loop

variable (G : Graph V) (rounds : ℕ) {s : State V} {elt : VertexTy V} {w : WeightTy}
  {pq : List (PairTy V)}

theorem loop_nil (h : s.pq = []) : loop G (rounds + 1) s = some s := by
  simp [loop, h]

theorem loop_skip (h : s.pq = (elt, w) :: pq) (hmst : s.mst elt = true) :
    loop G (rounds + 1) s = loop G rounds { s with pq := pq } := by
  simp [loop, h, hmst]

theorem loop_visit (h : s.pq = (elt, w) :: pq) (hmst : s.mst elt = false) :
    loop G (rounds + 1) s = loop G rounds (visit G elt { s with pq := pq }) := by
  simp [loop, h, hmst]

end Loop

/-- **The loop ends**, after no more rounds than pairs ever enter the
queue. -/
theorem loop_ends (G : Graph V) (s : State V) : ∃ rounds s', loop G rounds s = some s' := by
  induction hm : pending G s using Nat.strong_induction_on generalizing s with
  | _ m ih =>
    rcases hpq : s.pq with _ | ⟨⟨elt, w⟩, pq⟩
    · exact ⟨1, s, loop_nil G 0 hpq⟩
    · have hlt : pending G { s with pq := pq } < m := by
        rw [← hm]
        simp [pending, hpq]
      cases hmst : s.mst elt with
      | true =>
        obtain ⟨rounds, s', h⟩ := ih _ hlt _ rfl
        exact ⟨rounds + 1, s', (loop_skip G rounds hpq hmst).trans h⟩
      | false =>
        have hle := pending_visit (G := G) (s := { s with pq := pq }) hmst
        obtain ⟨rounds, s', h⟩ := ih _ (lt_of_le_of_lt hle hlt) _ rfl
        exact ⟨rounds + 1, s', (loop_visit G rounds hpq hmst).trans h⟩

/-- Two runs of the loop end alike, however many rounds each was given. -/
theorem loop_unique {G : Graph V} {rounds rounds' : ℕ} {s t t' : State V}
    (h : loop G rounds s = some t) (h' : loop G rounds' s = some t') : t = t' := by
  induction rounds generalizing s rounds' with
  | zero => cases h
  | succ rounds ih =>
    cases rounds' with
    | zero => cases h'
    | succ rounds' =>
      rcases hpq : s.pq with _ | ⟨⟨elt, w⟩, pq⟩
      · rw [loop_nil G _ hpq] at h h'
        exact Option.some.inj (h.symm.trans h')
      · cases hmst : s.mst elt with
        | true =>
          rw [loop_skip G _ hpq hmst] at h h'
          exact ih h h'
        | false =>
          rw [loop_visit G _ hpq hmst] at h h'
          exact ih h h'

end Prim
