import CppGraduate.Prim.Optimality

/-!
# The parents `prim` returns

Whatever the weights are worth to it, the parents are those of a tree. A
vertex is given a parent when it is offered to the queue and may be given
another one until it is taken, but then it keeps the one it has, and that one
was taken before it: the order of taking is what makes following parents end
at the vertex 0 (`Recorded.exists_path`). The vertices taken are those that
edges join to 0, all edges being heavier than `INT_MIN`.
-/

namespace Prim

open SpanningTree

variable {V n : ℕ}

/-! ### Following parents -/

/-- **The way to the root**: each vertex of the list has the next one for its
parent, and none comes twice. -/
structure PathToRoot (parent : VertexTy V → Option (VertexTy V)) (root v : VertexTy V)
    (path : List (VertexTy V)) : Prop where
  step : path.IsChain fun a b => parent a = some b
  head : path.head? = some v
  last : path.getLast? = some root
  nodup : path.Nodup

namespace PathToRoot

variable {parent : VertexTy V → Option (VertexTy V)} {root u v : VertexTy V}
  {path : List (VertexTy V)}

/-- The root is there already. -/
theorem start (parent : VertexTy V → Option (VertexTy V)) (v : VertexTy V) :
    PathToRoot parent v v [v] :=
  ⟨List.isChain_singleton v, rfl, rfl, List.nodup_singleton v⟩

/-- A vertex with a parent goes the way of its parent, if it is not on it. -/
theorem cons (h : PathToRoot parent root u path) (hparent : parent v = some u)
    (hv : v ∉ path) : PathToRoot parent root v (v :: path) := by
  cases path with
  | nil => cases h.head
  | cons a path =>
    obtain rfl : a = u := by simpa using h.head
    refine ⟨h.step.cons_cons hparent, rfl, ?_, List.nodup_cons.mpr ⟨hv, h.nodup⟩⟩
    rw [List.getLast?_cons_cons]
    exact h.last

end PathToRoot

/-! ### The vertices taken -/

section Recorded

variable {es : List (Edge (n + 1))} {l : List (VertexTy (n + 1))} {s : State (n + 1)}

/-- From a vertex taken the parents lead to 0, past vertices taken before. -/
theorem Recorded.exists_path (h : Recorded es s l) {v : VertexTy (n + 1)} (hv : v ∈ l) :
    ∃ path, PathToRoot s.parent 0 v path ∧ ∀ x ∈ path, x ∈ l := by
  induction h generalizing v with
  | first =>
    obtain rfl : v = 0 := List.mem_singleton.mp hv
    exact ⟨[0], .start _ 0, fun x hx => hx⟩
  | @next l v₀ _ hv₀ hatt ih =>
    rcases List.mem_cons.mp hv with rfl | hv
    · obtain ⟨u, hu, hparent, -, -⟩ := hatt
      obtain ⟨path, hpath, hin⟩ := ih hu
      refine ⟨v :: path, hpath.cons hparent fun h => hv₀ (hin v h), ?_⟩
      simpa using fun x hx => Or.inr (hin x hx)
    · obtain ⟨path, hpath, hin⟩ := ih hv
      exact ⟨path, hpath, fun x hx => List.mem_cons_of_mem v₀ (hin x hx)⟩

/-- A vertex taken, except for 0, has a parent that is adjacent to it and was
taken as well. -/
theorem Recorded.exists_parent (h : Recorded es s l) {v : VertexTy (n + 1)} (hv : v ∈ l)
    (hv0 : v ≠ 0) :
    ∃ u ∈ l, s.parent v = some u ∧ ∃ i, ends es i = s(u, v) := by
  induction h with
  | first => exact absurd (List.mem_singleton.mp hv) hv0
  | @next l v₀ _ _ hatt ih =>
    rcases List.mem_cons.mp hv with rfl | hv
    · obtain ⟨u, hu, hparent, ⟨i, hi, -⟩, -⟩ := hatt
      exact ⟨u, List.mem_cons_of_mem v hu, hparent, i, hi⟩
    · obtain ⟨u, hu, hparent⟩ := ih hv
      exact ⟨u, List.mem_cons_of_mem v₀ hu, hparent⟩

/-- A vertex taken is joined to 0. -/
theorem Recorded.joined (h : Recorded es s l) {v : VertexTy (n + 1)} (hv : v ∈ l) :
    Joined (ends es) Set.univ 0 v := by
  induction h generalizing v with
  | first =>
    rw [List.mem_singleton.mp hv]
    exact .refl 0
  | @next l v₀ _ _ hatt ih =>
    rcases List.mem_cons.mp hv with rfl | hv
    · obtain ⟨u, hu, -, ⟨i, hi, -⟩, -⟩ := hatt
      exact (ih hu).trans (.edge (Set.mem_univ i) hi)
    · exact ih hv

/-- **All that is joined to 0 is taken** before no vertex comes next. -/
theorem mem_of_joined (hzero : 0 ∈ l) (hend : Front es l = ∅) (hw : ∀ e ∈ es, INT_MIN < e.w)
    {v : VertexTy (n + 1)} (hv : Joined (ends es) Set.univ 0 v) : v ∈ l := by
  by_contra hvl
  obtain ⟨i, -, a, b, hi, ha, hb⟩ := hv.crossing (P := fun x => x ∈ l) hzero hvl
  have hfront : b ∈ Front es l := ⟨hb, i, a, ha, hi, hw _ (List.getElem_mem i.2)⟩
  rw [hend] at hfront
  exact hfront

end Recorded

/-! ### The root -/

/-- A vertex that is taken keeps its parent. -/
theorem loop_parent {G : Graph V} {rounds : ℕ} {s s' : State V} {v : VertexTy V}
    (h : loop G rounds s = some s') (hv : s.mst v = true) : s'.parent v = s.parent v := by
  induction rounds generalizing s with
  | zero => cases h
  | succ rounds ih =>
    rcases hpq : s.pq with _ | ⟨⟨elt, w⟩, pq⟩
    · rw [loop_nil _ _ hpq] at h
      rw [Option.some.inj h]
    · cases hmst : s.mst elt with
      | true =>
        rw [loop_skip _ _ hpq hmst] at h
        have hrest := ih h
        exact hrest hv
      | false =>
        rw [loop_visit _ _ hpq hmst] at h
        rw [ih h ((visit_mst _ _ _ _).mpr (.inr hv))]
        exact (visit_of_mst (s := { s with pq := pq }) (.inr hv) G).2

/-- The vertex 0, taken first, keeps having no parent. -/
theorem prim_parent_zero {G : Graph (n + 1)} {rounds : ℕ} {s : State (n + 1)}
    (h : prim rounds G = .ok (some s)) : s.parent 0 = none := by
  have hloop : loop G rounds (start 0) = some s := Except.ok.inj h
  cases rounds with
  | zero => cases hloop
  | succ rounds =>
    have hloop' : loop G rounds (visit G 0 { start (0 : VertexTy (n + 1)) with pq := [] })
        = some s := hloop
    rw [loop_parent hloop' ((visit_mst _ _ _ _).mpr (.inl rfl))]
    exact (visit_of_mst (s := { start (0 : VertexTy (n + 1)) with pq := [] }) (.inl rfl) G).2

/-- **Main result: `prim` returns a rooted spanning tree** of what edges join
to the vertex 0. It ends; 0 has no parent; every other vertex joined to it has
an adjacent one, and the way up from there leads to 0 and repeats no vertex;
and every vertex not joined to it has none. -/
theorem prim_rooted (es : List (Edge (n + 1))) (hw : ∀ e ∈ es, INT_MIN < e.w) :
    ∃ rounds s, prim rounds (Graph.ofEdges es) = .ok (some s) ∧ s.parent 0 = none ∧
      (∀ v ≠ 0, Joined (ends es) Set.univ 0 v →
        (∃ u w, s.parent v = some u ∧ (v, w) ∈ adjacent (Graph.ofEdges es) u) ∧
          ∃ path, PathToRoot s.parent 0 v path) ∧
      ∀ v, ¬ Joined (ends es) Set.univ 0 v → s.parent v = none := by
  obtain ⟨rounds, s, hrun⟩ := prim_ends es
  obtain ⟨l, hl, hend⟩ := prim_inv hrun
  refine ⟨rounds, s, hrun, prim_parent_zero hrun, fun v hv0 hv => ?_, fun v hv => ?_⟩
  · have hvl := mem_of_joined (zero_mem_of_recorded hl.recorded) hend hw hv
    obtain ⟨u, -, hparent, i, hi⟩ := hl.recorded.exists_parent hvl hv0
    obtain ⟨path, hpath, -⟩ := hl.recorded.exists_path hvl
    exact ⟨⟨u, es[i].w, hparent, (mem_adjacent_iff es u v _).mpr ⟨i, hi, rfl⟩⟩, path, hpath⟩
  · exact hl.parent_of_notMem hend fun hvl => hv (hl.recorded.joined hvl)

/-- The graph of three vertices, each joined to each. -/
theorem prim_rooted_triangle :
    ∃ rounds s, prim rounds (Graph.ofEdges triangle) = .ok (some s) ∧ s.parent 0 = none ∧
      (∀ v ≠ 0, Joined (ends triangle) Set.univ 0 v →
        (∃ u w, s.parent v = some u ∧ (v, w) ∈ adjacent (Graph.ofEdges triangle) u) ∧
          ∃ path, PathToRoot s.parent 0 v path) ∧
      ∀ v, ¬ Joined (ends triangle) Set.univ 0 v → s.parent v = none :=
  prim_rooted triangle (by decide)

end Prim
