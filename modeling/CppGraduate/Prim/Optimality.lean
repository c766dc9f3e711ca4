import CppGraduate.Lib.SpanningTree
import CppGraduate.Prim.Prim
import Mathlib.Algebra.Order.Group.Int
import Mathlib.Order.Bounds.Basic

/-!
# When the tree of `prim` is one of greatest weight

The queue delivers the greatest vertex it holds, so the vertices are taken
in an order that has to do with their numbers and not with the weights of
the edges: next comes the greatest vertex that an edge heavier than
`INT_MIN` joins to those taken (`Visits`). What the keys are good for is
that each vertex is attached by a heaviest edge to those taken before it
(`Recorded`), and so the tree is grown as `SpanningTree.Grown` says.

The invariant of the loop is proved along its rounds. While the pairs
adjacent to a vertex are gone through, the keys account for the edges of
the vertices taken before and for those already gone through (`Offers`).
-/

namespace Prim

open SpanningTree

variable {V n : ℕ}

/-! ### One vertex's pairs -/

/-- What a pair changes at other vertices than its tip is nothing. -/
theorem relax_of_ne {v : VertexTy V} {e : PairTy V} (hv : v ≠ e.1) (elt : VertexTy V)
    (s : State V) :
    (relax elt s e).key v = s.key v ∧ (relax elt s e).parent v = s.parent v ∧
      ∀ w, (v, w) ∈ (relax elt s e).pq ↔ (v, w) ∈ s.pq := by
  by_cases hlt : s.mst e.1 = false ∧ s.key e.1 < e.2
  · rw [relax_of_lt hlt]
    refine ⟨Function.update_of_ne hv _ _, Function.update_of_ne hv _ _, fun w => ?_⟩
    exact mem_push.trans (or_iff_right fun hw => hv (congrArg Prod.fst hw))
  · rw [relax_of_not_lt hlt]
    exact ⟨rfl, rfl, fun _ => Iff.rfl⟩

/-- A heavier pair is what its tip has from then on. -/
theorem relax_tip {s : State V} {e : PairTy V} (hlt : s.mst e.1 = false ∧ s.key e.1 < e.2)
    (elt : VertexTy V) :
    (relax elt s e).key e.1 = e.2 ∧ (relax elt s e).parent e.1 = some elt ∧
      e ∈ (relax elt s e).pq := by
  rw [relax_of_lt hlt]
  exact ⟨Function.update_self _ _ _, Function.update_self _ _ _, mem_push.mpr (.inl rfl)⟩

/-- The key of a vertex not yet taken is the heaviest of the weights
offered to it, its parent is where that came from, and it is in the queue
when there is such an offer. -/
structure Offers (P : VertexTy V → WeightTy → Prop) (s : State V) (v : VertexTy V) : Prop where
  le : ∀ u w, P u w → w ≤ s.key v
  parent : INT_MIN < s.key v → ∃ u, s.parent v = some u ∧ P u (s.key v)
  none : s.key v = INT_MIN → s.parent v = none
  queue : (∃ w, (v, w) ∈ s.pq) ↔ INT_MIN < s.key v

namespace Offers

variable {P Q : VertexTy V → WeightTy → Prop} {s t : State V} {v : VertexTy V}

/-- It only matters what the state holds of the vertex. -/
theorem congr (h : Offers P s v) (hPQ : ∀ u w, P u w ↔ Q u w) (hkey : t.key v = s.key v)
    (hparent : t.parent v = s.parent v) (hpq : ∀ w, (v, w) ∈ t.pq ↔ (v, w) ∈ s.pq) :
    Offers Q t v := by
  refine ⟨fun u w huw => hkey ▸ h.le u w ((hPQ u w).mpr huw), fun hlt => ?_, fun hmin => ?_, ?_⟩
  · obtain ⟨u, hu, huP⟩ := h.parent (hkey ▸ hlt)
    exact ⟨u, hparent.trans hu, (hPQ _ _).mp (hkey ▸ huP)⟩
  · exact hparent.trans (h.none (hkey ▸ hmin))
  · rw [hkey, ← h.queue]
    exact exists_congr hpq

/-- An adjacent pair is one more offer to its tip. -/
theorem relax (h : Offers P s v) (hv : s.mst v = false) (elt : VertexTy V) (e : PairTy V) :
    Offers (fun u w => P u w ∨ u = elt ∧ (v, w) = e) (relax elt s e) v := by
  rcases eq_or_ne v e.1 with rfl | hne
  · by_cases hlt : s.mst e.1 = false ∧ s.key e.1 < e.2
    · obtain ⟨hkey, hparent, hmem⟩ := relax_tip hlt elt
      have hmin : INT_MIN < (Prim.relax elt s e).key e.1 := hkey ▸ (INT_MIN_le _).trans_lt hlt.2
      refine ⟨fun u w huw => ?_, fun _ => ⟨elt, hparent, .inr ⟨rfl, ?_⟩⟩,
        fun hkey' => absurd hkey' hmin.ne', fun _ => hmin, fun _ => ⟨e.2, hmem⟩⟩
      · rw [hkey]
        rcases huw with huw | ⟨-, hw⟩
        · exact (h.le u w huw).trans hlt.2.le
        · exact le_of_eq (congrArg Prod.snd hw)
      · rw [hkey]
    · rw [relax_of_not_lt hlt]
      refine ⟨fun u w huw => ?_, fun hkey => ?_, h.none, h.queue⟩
      · rcases huw with huw | ⟨-, hw⟩
        · exact h.le u w huw
        · exact (congrArg Prod.snd hw).trans_le (not_lt.mp fun hlt' => hlt ⟨hv, hlt'⟩)
      · obtain ⟨u, hu, huP⟩ := h.parent hkey
        exact ⟨u, hu, .inl huP⟩
  · obtain ⟨hkey, hparent, hpq⟩ := relax_of_ne hne elt s
    refine h.congr (fun u w => ?_) hkey hparent hpq
    exact (or_iff_left fun huw => hne (congrArg Prod.fst huw.2)).symm

/-- The pairs adjacent to a vertex are offers to their tips. -/
theorem foldl_relax (h : Offers P s v) (hv : s.mst v = false) (elt : VertexTy V)
    (L : List (PairTy V)) :
    Offers (fun u w => P u w ∨ u = elt ∧ (v, w) ∈ L) (L.foldl (Prim.relax elt) s) v := by
  induction L generalizing P s with
  | nil => exact h.congr (fun u w => by simp) rfl rfl fun _ => Iff.rfl
  | cons e L ih =>
    rw [List.foldl_cons]
    refine (ih (h.relax hv elt e) ((relax_mst elt s e).symm ▸ hv)).congr (fun u w => ?_) rfl rfl
      fun _ => Iff.rfl
    rw [List.mem_cons, or_assoc, and_or_left]

end Offers

/-- What is recorded of a vertex already taken does not change. -/
theorem foldl_relax_of_mst {s : State V} {v : VertexTy V} (hv : s.mst v = true)
    (elt : VertexTy V) (L : List (PairTy V)) :
    (L.foldl (relax elt) s).key v = s.key v ∧ (L.foldl (relax elt) s).parent v = s.parent v := by
  induction L generalizing s with
  | nil => exact ⟨rfl, rfl⟩
  | cons e L ih =>
    rw [List.foldl_cons]
    obtain ⟨hkey, hparent⟩ := ih ((relax_mst elt s e).symm ▸ hv)
    rw [hkey, hparent]
    rcases eq_or_ne v e.1 with rfl | hne
    · rw [relax_of_not_lt fun hlt => Bool.false_ne_true (hlt.1.symm.trans hv)]
      exact ⟨rfl, rfl⟩
    · exact ⟨(relax_of_ne hne elt s).1, (relax_of_ne hne elt s).2.1⟩

theorem Sorted.foldl_relax {s : State V} (h : Sorted s.pq) (elt : VertexTy V)
    (L : List (PairTy V)) : Sorted (L.foldl (relax elt) s).pq := by
  induction L generalizing s with
  | nil => exact h
  | cons e L ih =>
    rw [List.foldl_cons]
    apply ih
    by_cases hlt : s.mst e.1 = false ∧ s.key e.1 < e.2
    · rw [relax_of_lt hlt]
      exact h.push e
    · rw [relax_of_not_lt hlt]
      exact h

/-! ### Taking a vertex -/

section Visit

variable {P : VertexTy V → WeightTy → Prop} {s : State V} {v elt : VertexTy V}

theorem visit_mst (G : Graph V) (elt : VertexTy V) (s : State V) (v : VertexTy V) :
    (visit G elt s).mst v = true ↔ v = elt ∨ s.mst v = true := by
  rw [visit, foldl_relax_mst]
  rcases eq_or_ne v elt with rfl | hne
  · simp
  · simp [hne]

theorem Sorted.visit (h : Sorted s.pq) (G : Graph V) (elt : VertexTy V) :
    Sorted (visit G elt s).pq :=
  Sorted.foldl_relax (s := { s with mst := Function.update s.mst elt true }) h elt _

theorem visit_of_mst (hv : v = elt ∨ s.mst v = true) (G : Graph V) :
    (visit G elt s).key v = s.key v ∧ (visit G elt s).parent v = s.parent v := by
  refine foldl_relax_of_mst (s := { s with mst := Function.update s.mst elt true }) ?_ elt _
  show Function.update s.mst elt true v = true
  rcases hv with rfl | hv
  · exact Function.update_self _ _ _
  · rcases eq_or_ne v elt with rfl | hne
    · exact Function.update_self _ _ _
    · rw [Function.update_of_ne hne, hv]

theorem Offers.visit (h : Offers P s v) (hne : v ≠ elt) (hv : s.mst v = false) (G : Graph V) :
    Offers (fun u w => P u w ∨ u = elt ∧ (v, w) ∈ adjacent G elt) (visit G elt s) v := by
  have h' : Offers P { s with mst := Function.update s.mst elt true } v :=
    h.congr (fun _ _ => Iff.rfl) rfl rfl fun _ => Iff.rfl
  exact h'.foldl_relax ((Function.update_of_ne hne _ _).trans hv) elt _

end Visit

/-! ### The order of the vertices -/

/-- **The order the vertices are taken in**, the last one first: after the
vertex 0 always the greatest of those that come next. -/
inductive Visits (es : List (Edge (n + 1))) : List (VertexTy (n + 1)) → Prop where
  | first : Visits es [0]
  | next {l : List (VertexTy (n + 1))} {v : VertexTy (n + 1)} :
      Visits es l → IsGreatest (Front es l) v → Visits es (v :: l)

theorem Visits.nodup {es : List (Edge (n + 1))} {l : List (VertexTy (n + 1))}
    (h : Visits es l) : l.Nodup := by
  induction h with
  | first => exact List.nodup_singleton 0
  | next _ hv ih => exact List.nodup_cons.mpr ⟨hv.1.1, ih⟩

/-- The order is determined: what has been taken is a beginning of what
will have been taken when none comes next. -/
theorem Visits.isSuffix {es : List (Edge (n + 1))} {l l' : List (VertexTy (n + 1))}
    (h : Visits es l) (h' : Visits es l') (hend : Front es l = ∅) : l' <:+ l := by
  have hsplit : ∀ l₁ v l₂, l = l₁ ++ v :: l₂ → l₂ ≠ [] → IsGreatest (Front es l₂) v := by
    clear hend h'
    induction h with
    | first =>
      intro l₁ v l₂ hl hne
      cases l₁ with
      | nil => exact absurd (List.cons.inj hl).2.symm hne
      | cons a l₁ => simp at hl
    | next _ hv ih =>
      intro l₁ v' l₂ hl hne
      cases l₁ with
      | nil =>
        obtain ⟨rfl, rfl⟩ := List.cons.inj hl
        exact hv
      | cons a l₁ => exact ih l₁ v' l₂ (List.cons.inj hl).2 hne
  induction h' with
  | first =>
    clear hend hsplit
    induction h with
    | first => exact List.suffix_refl _
    | next _ _ ih => exact ih.trans (List.suffix_cons _ _)
  | @next l' v hl' hv ih =>
    obtain ⟨l₁, hl₁⟩ := ih
    have hne : l' ≠ [] := by
      cases hl' <;> simp
    rcases List.eq_nil_or_concat l₁ with rfl | ⟨l₀, v', rfl⟩
    · exact absurd hv.1 (by rw [show l' = l from hl₁, hend]; exact Set.notMem_empty v)
    · have hv' := hsplit l₀ v' l' (by simpa using hl₁.symm) hne
      exact ⟨l₀, by rw [hv.unique hv']; simpa using hl₁⟩

/-! ### The invariant of the loop -/

/-- What the variables hold of the vertices taken, the last one first. -/
inductive Recorded (es : List (Edge (n + 1))) (s : State (n + 1)) :
    List (VertexTy (n + 1)) → Prop where
  | first : Recorded es s [0]
  | next {l : List (VertexTy (n + 1))} {v : VertexTy (n + 1)} :
      Recorded es s l → v ∉ l → Attached es s l v → Recorded es s (v :: l)

/-- It stays, as long as the keys and the parents of these vertices do. -/
theorem Recorded.congr {es : List (Edge (n + 1))} {s t : State (n + 1)}
    {l : List (VertexTy (n + 1))} (h : Recorded es s l)
    (ht : ∀ v ∈ l, t.key v = s.key v ∧ t.parent v = s.parent v) : Recorded es t l := by
  induction h with
  | first => exact .first
  | @next l v _ hv hatt ih =>
    refine .next (ih fun u hu => ht u (List.mem_cons_of_mem v hu)) hv ?_
    obtain ⟨hkey, hparent⟩ := ht v List.mem_cons_self
    unfold Attached
    rw [hkey, hparent]
    exact hatt

/-- The offers there are when the vertices of a list have been taken. -/
abbrev OffersOf (es : List (Edge V)) (l : List (VertexTy V)) (v : VertexTy V) :
    State V → Prop :=
  fun s => Offers (fun u w => u ∈ l ∧ (v, w) ∈ adjacent (Graph.ofEdges es) u) s v

/-- **The invariant of the loop**, `l` being the vertices taken. -/
structure Inv (es : List (Edge (n + 1))) (l : List (VertexTy (n + 1))) (s : State (n + 1)) :
    Prop where
  visits : Visits es l
  mst : ∀ v, s.mst v = true ↔ v ∈ l
  sorted : Sorted s.pq
  offers : ∀ v ∉ l, OffersOf es l v s
  recorded : Recorded es s l

/-- The first round takes the vertex 0. -/
theorem Inv.first (es : List (Edge (n + 1))) :
    Inv es [0] (visit (Graph.ofEdges es) 0 { start (0 : VertexTy (n + 1)) with pq := [] }) := by
  refine ⟨.first, fun v => ?_, Sorted.visit
    (s := { start (0 : VertexTy (n + 1)) with pq := [] }) Sorted.nil _ _, fun v hv => ?_, .first⟩
  · rw [visit_mst, List.mem_singleton]
    exact or_iff_left Bool.false_ne_true
  · have h₀ : Offers (fun _ _ => False) { start (0 : VertexTy (n + 1)) with pq := [] } v :=
      ⟨fun _ _ h => h.elim, fun h => absurd h (lt_irrefl _), fun _ => rfl,
        fun ⟨w, hw⟩ => absurd hw List.not_mem_nil, fun h => absurd h (lt_irrefl _)⟩
    refine (h₀.visit (List.mem_singleton.not.mp hv) rfl _).congr (fun u w => ?_) rfl rfl
      fun _ => Iff.rfl
    rw [false_or, List.mem_singleton]
    constructor
    · rintro ⟨rfl, hw⟩
      exact ⟨rfl, hw⟩
    · rintro ⟨rfl, hw⟩
      exact ⟨rfl, hw⟩

namespace Inv

variable {es : List (Edge (n + 1))} {l : List (VertexTy (n + 1))} {s : State (n + 1)}

/-- The vertices in the queue that are not yet taken are those that come
next. -/
theorem mem_front_iff (h : Inv es l s) {v : VertexTy (n + 1)} :
    v ∈ Front es l ↔ v ∉ l ∧ ∃ w, (v, w) ∈ s.pq := by
  refine and_congr_right fun hv => ?_
  rw [(h.offers v hv).queue]
  constructor
  · rintro ⟨i, u, hu, hi, hlt⟩
    exact hlt.trans_le ((h.offers v hv).le u _ ⟨hu, (mem_adjacent_iff es u v _).mpr ⟨i, hi, rfl⟩⟩)
  · intro hlt
    obtain ⟨u, -, hu, huv⟩ := (h.offers v hv).parent hlt
    obtain ⟨i, hi, hw⟩ := (mem_adjacent_iff es u v _).mp huv
    exact ⟨i, u, hu, hi, hw ▸ hlt⟩

/-- A pair of a vertex already taken is dropped. -/
theorem skip (h : Inv es l s) {v : VertexTy (n + 1)} {w : WeightTy} {pq : List (PairTy (n + 1))}
    (hpq : s.pq = (v, w) :: pq) (hv : s.mst v = true) : Inv es l { s with pq := pq } := by
  have hsorted : Sorted ((v, w) :: pq) := hpq ▸ h.sorted
  refine ⟨h.visits, h.mst, hsorted.tail, fun v' hv' => ?_, h.recorded.congr fun _ _ => ⟨rfl, rfl⟩⟩
  refine (h.offers v' hv').congr (fun _ _ => Iff.rfl) rfl rfl fun w' => ?_
  have hne : v' ≠ v := fun hvv => hv' (hvv ▸ (h.mst v).mp hv)
  rw [hpq, List.mem_cons]
  exact (or_iff_right fun hw => hne (congrArg Prod.fst hw)).symm

/-- The vertex the queue delivers is the greatest of those that come
next. -/
theorem isGreatest (h : Inv es l s) {v : VertexTy (n + 1)} {w : WeightTy}
    {pq : List (PairTy (n + 1))} (hpq : s.pq = (v, w) :: pq) (hv : v ∉ l) :
    IsGreatest (Front es l) v := by
  refine ⟨h.mem_front_iff.mpr ⟨hv, w, by simp [hpq]⟩, fun v' hv' => ?_⟩
  obtain ⟨-, w', hw'⟩ := h.mem_front_iff.mp hv'
  rw [hpq, List.mem_cons] at hw'
  rcases hw' with hw' | hw'
  · exact le_of_eq (congrArg Prod.fst hw')
  · have hsorted : Sorted ((v, w) :: pq) := hpq ▸ h.sorted
    rcases (Prod.Lex.toLex_le_toLex).mp (List.rel_of_pairwise_cons hsorted hw') with hlt | ⟨heq, -⟩
    · exact le_of_lt hlt
    · exact le_of_eq heq

/-- A vertex in the queue has a parent, and a heaviest edge to it. -/
theorem attached (h : Inv es l s) {v : VertexTy (n + 1)} (hv : v ∈ Front es l) :
    Attached es s l v := by
  obtain ⟨hvl, hqueue⟩ := h.mem_front_iff.mp hv
  have hoff := h.offers v hvl
  obtain ⟨u, hparent, hu, huv⟩ := hoff.parent (hoff.queue.mp hqueue)
  refine ⟨u, hu, hparent, (mem_adjacent_iff es u v _).mp huv, fun i u' hu' hi => ?_⟩
  exact hoff.le u' _ ⟨hu', (mem_adjacent_iff es u' v _).mpr ⟨i, hi, rfl⟩⟩

/-- **A vertex is taken**: the greatest of those that come next. -/
theorem visit (h : Inv es l s) {v : VertexTy (n + 1)} {w : WeightTy}
    {pq : List (PairTy (n + 1))} (hpq : s.pq = (v, w) :: pq) (hv : s.mst v = false) :
    Inv es (v :: l) (visit (Graph.ofEdges es) v { s with pq := pq }) := by
  have hvl : v ∉ l := fun hvl => Bool.false_ne_true (hv.symm.trans ((h.mst v).mpr hvl))
  have hsorted : Sorted ((v, w) :: pq) := hpq ▸ h.sorted
  have hgreatest := h.isGreatest hpq hvl
  refine ⟨.next h.visits hgreatest, fun v' => ?_,
    Sorted.visit (s := { s with pq := pq }) hsorted.tail _ _,
    fun v' hv' => ?_, (Recorded.next h.recorded hvl (h.attached hgreatest.1)).congr fun v' hv' => ?_⟩
  · rw [visit_mst, List.mem_cons, h.mst]
  · obtain ⟨hne, hvl'⟩ := not_or.mp (List.mem_cons.not.mp hv')
    have hmst : s.mst v' = false := Bool.eq_false_iff.mpr ((h.mst v').not.mpr hvl')
    have hoff : OffersOf es l v' { s with pq := pq } := by
      refine (h.offers v' hvl').congr (fun _ _ => Iff.rfl) rfl rfl fun w' => ?_
      rw [hpq, List.mem_cons]
      exact (or_iff_right fun hw => hne (congrArg Prod.fst hw)).symm
    refine (hoff.visit hne hmst _).congr (fun u w' => ?_) rfl rfl fun _ => Iff.rfl
    rw [List.mem_cons]
    constructor
    · rintro (⟨hu, hw'⟩ | ⟨rfl, hw'⟩)
      · exact ⟨.inr hu, hw'⟩
      · exact ⟨.inl rfl, hw'⟩
    · rintro ⟨rfl | hu, hw'⟩
      · exact .inr ⟨rfl, hw'⟩
      · exact .inl ⟨hu, hw'⟩
  · exact visit_of_mst (s := { s with pq := pq }) ((List.mem_cons.mp hv').imp_right (h.mst v').mpr) _

/-- **The invariant holds to the end**, where the queue is empty. -/
theorem loop {rounds : ℕ} {s' : State (n + 1)} (h : Inv es l s)
    (hloop : loop (Graph.ofEdges es) rounds s = some s') : ∃ l', Inv es l' s' ∧ s'.pq = [] := by
  induction rounds generalizing l s with
  | zero => cases hloop
  | succ rounds ih =>
    rcases hpq : s.pq with _ | ⟨⟨v, w⟩, pq⟩
    · rw [loop_nil _ _ hpq] at hloop
      obtain rfl := Option.some.inj hloop
      exact ⟨l, h, hpq⟩
    · cases hv : s.mst v with
      | true => exact ih (h.skip hpq hv) (loop_skip _ _ hpq hv ▸ hloop)
      | false => exact ih (h.visit hpq hv) (loop_visit _ _ hpq hv ▸ hloop)

end Inv

/-! ### What `prim` returns -/

/-- Any two vertices are joined by edges. -/
def Connected (es : List (Edge V)) : Prop := ∀ x y, Joined (ends es) Set.univ x y

section Run

variable {es : List (Edge (n + 1))} {l : List (VertexTy (n + 1))} {s : State (n + 1)}
  {t : {v : VertexTy (n + 1) // v ≠ 0} → Fin es.length}

/-- A finished run has kept the invariant, and no vertex comes next. -/
theorem prim_inv {rounds : ℕ} (h : prim rounds (Graph.ofEdges es) = .ok (some s)) :
    ∃ l, Inv es l s ∧ Front es l = ∅ := by
  have hloop : loop (Graph.ofEdges es) rounds (start 0) = some s := Except.ok.inj h
  obtain ⟨l, hl, hpq⟩ : ∃ l, Inv es l s ∧ s.pq = [] := by
    cases rounds with
    | zero => cases hloop
    | succ rounds => exact (Inv.first es).loop hloop
  refine ⟨l, hl, Set.eq_empty_iff_forall_notMem.mpr fun v hv => ?_⟩
  obtain ⟨-, w, hw⟩ := hl.mem_front_iff.mp hv
  exact absurd (hpq ▸ hw) List.not_mem_nil

theorem prim_ends (es : List (Edge (n + 1))) :
    ∃ rounds s, prim rounds (Graph.ofEdges es) = .ok (some s) := by
  obtain ⟨rounds, s, h⟩ := loop_ends (Graph.ofEdges es) (start 0)
  exact ⟨rounds, s, congrArg Except.ok h⟩

theorem zero_mem_of_recorded (h : Recorded es s l) : 0 ∈ l := by
  induction h with
  | first => exact List.mem_singleton_self 0
  | next _ _ _ ih => exact List.mem_cons_of_mem _ ih

/-- **The tree is grown** along the order the vertices are taken in. -/
theorem Recorded.grown (h : Recorded es s l) (ht : Records es s t) :
    Grown (ends es) (weights es) l (picked t l) := by
  induction h with
  | first =>
    have hpicked : picked t [0] = ∅ := by
      rw [picked, Finset.filter_false_of_mem, Finset.image_empty]
      exact fun v _ hv => v.2 (List.mem_singleton.mp hv)
    exact hpicked ▸ Grown.root 0
  | @next l v hl hv hatt ih =>
    have hv0 : v ≠ 0 := fun h0 => hv (h0 ▸ zero_mem_of_recorded hl)
    have hpicked : picked t (v :: l) = insert (t ⟨v, hv0⟩) (picked t l) := by
      rw [picked, picked, ← Finset.image_insert]
      congr 1
      ext v'
      simp [Subtype.ext_iff]
    obtain ⟨u, hu, hparent, -, hmax⟩ := hatt
    obtain ⟨u', hparent', hends, hkey⟩ := ht ⟨v, hv0⟩
    obtain rfl : u = u' := Option.some.inj (hparent.symm.trans hparent')
    rw [hpicked]
    refine ih.grow hv (hends.trans Sym2.eq_swap) hu fun f u' hf hu' => ?_
    have hle : es[f].w ≤ es[t ⟨v, hv0⟩].w := hkey ▸ hmax f u' hu' (hf.trans Sym2.eq_swap)
    exact hle

/-- Different vertices have different edges. -/
theorem Recorded.injOn (h : Recorded es s l) (ht : Records es s t) :
    Set.InjOn t {v | v.1 ∈ l} := by
  induction h with
  | first => exact fun v hv => absurd (List.mem_singleton.mp hv) v.2
  | @next l v hl hv hatt ih =>
    -- the edge of the vertex taken last has an end there, and no other has
    have hlast : ∀ v₁ v₂ : {v : VertexTy (n + 1) // v ≠ 0}, v₁.1 = v → v₂.1 ∈ l →
        t v₁ ≠ t v₂ := by
      intro v₁ v₂ h₁ h₂ heq
      have hmem : t v₂ ∈ picked t l :=
        Finset.mem_image_of_mem t (Finset.mem_filter.mpr ⟨Finset.mem_univ _, h₂⟩)
      obtain ⟨u, -, hends, -⟩ := ht v₁
      have hend : v ∈ ends es (t v₂) := by
        rw [← heq, hends, h₁]
        exact Sym2.mem_mk_right u v
      exact hv ((hl.grown ht).isTree.within _ hmem v hend)
    intro v₁ h₁ v₂ h₂ heq
    rcases List.mem_cons.mp h₁ with h₁ | h₁
    · rcases List.mem_cons.mp h₂ with h₂ | h₂
      · exact Subtype.ext (h₁.trans h₂.symm)
      · exact absurd heq (hlast v₁ v₂ h₁ h₂)
    · rcases List.mem_cons.mp h₂ with h₂ | h₂
      · exact absurd heq.symm (hlast v₂ v₁ h₂ h₁)
      · exact ih h₁ h₂ heq

/-- Where all vertices are taken there is an edge to pick for each. -/
theorem Recorded.exists_records (h : Recorded es s l) (hall : ∀ v, v ∈ l) :
    ∃ t, Records es s t := by
  have hone : ∀ v ∈ l, v ≠ 0 → ∃ i u, s.parent v = some u ∧ ends es i = s(u, v) ∧
      es[i].w = s.key v := by
    clear hall
    induction h with
    | first => exact fun v hv hv0 => absurd (List.mem_singleton.mp hv) hv0
    | next _ _ hatt ih =>
      intro v hv hv0
      rcases List.mem_cons.mp hv with rfl | hv
      · obtain ⟨u, -, hparent, ⟨i, hi, hw⟩, -⟩ := hatt
        exact ⟨i, u, hparent, hi, hw⟩
      · exact ih v hv hv0
  choose t ht using fun v : {v : VertexTy (n + 1) // v ≠ 0} => hone v.1 (hall v.1) v.2
  exact ⟨t, ht⟩

/-- In the end a vertex that is not taken has no parent. -/
theorem Inv.parent_of_notMem (h : Inv es l s) (hend : Front es l = ∅) {v : VertexTy (n + 1)}
    (hv : v ∉ l) : s.parent v = none := by
  have hoff := h.offers v hv
  refine hoff.none (le_antisymm (not_lt.mp fun hlt => ?_) (INT_MIN_le _))
  exact Set.eq_empty_iff_forall_notMem.mp hend v (h.mem_front_iff.mpr ⟨hv, hoff.queue.mpr hlt⟩)

/-- Where every vertex has an edge picked, all have been taken. -/
theorem Inv.mem_of_records (h : Inv es l s) (hend : Front es l = ∅) (ht : Records es s t)
    (v : VertexTy (n + 1)) : v ∈ l := by
  by_contra hv
  have hv0 : v ≠ 0 := fun h0 => hv (h0 ▸ zero_mem_of_recorded h.recorded)
  obtain ⟨u, hparent, -, -⟩ := ht ⟨v, hv0⟩
  exact Option.some_ne_none u (hparent.symm.trans (h.parent_of_notMem hend hv))

/-- **The tree of a finished run** is one of greatest weight exactly when
it was joinable along the order of the vertices. -/
theorem Inv.maximal_iff (h : Inv es l s) (hall : ∀ v, v ∈ l) (ht : Records es s t) :
    Maximal (ends es) (weights es) Set.univ (Finset.univ.image t) ↔
      Joinable (ends es) (weights es) l := by
  have huniv : (Set.univ : Set (VertexTy (n + 1))) = {v | v ∈ l} :=
    (Set.eq_univ_of_forall hall).symm
  have hpicked : picked t l = Finset.univ.image t := by
    rw [picked, Finset.filter_true_of_mem fun v _ => hall v.1]
  rw [huniv, ← hpicked]
  exact (h.recorded.grown ht).maximal_iff

end Run

/-- **`prim` returns a spanning tree of greatest weight** exactly when the
order it takes the vertices in reaches all of them and, at each of them,
any two edges to vertices taken before lead to vertices that edges no
lighter already join. -/
theorem optimal_iff (es : List (Edge (n + 1))) :
    Optimal es ↔
      ∃ l, Visits es l ∧ (∀ v, v ∈ l) ∧ Joinable (ends es) (weights es) l := by
  constructor
  · rintro ⟨rounds, s, hrun, t, ht, -, hmax⟩
    obtain ⟨l, hl, hend⟩ := prim_inv hrun
    have hall := hl.mem_of_records hend ht
    exact ⟨l, hl.visits, hall, (hl.maximal_iff hall ht).mp hmax⟩
  · rintro ⟨l, hvisits, hall, hjoin⟩
    obtain ⟨rounds, s, hrun⟩ := prim_ends es
    obtain ⟨l', hl', hend⟩ := prim_inv hrun
    -- the run has taken the same vertices in the same order
    obtain rfl : l = l' := by
      have hsuffix := hl'.visits.isSuffix hvisits hend
      exact hsuffix.eq_of_length_le
        (hl'.visits.nodup.subperm fun v _ => hall v).length_le
    obtain ⟨t, ht⟩ := hl'.recorded.exists_records hall
    refine ⟨rounds, s, hrun, t, ht, fun v v' heq => ?_, (hl'.maximal_iff hall ht).mpr hjoin⟩
    exact hl'.recorded.injOn ht (hall v.1) (hall v'.1) heq

/-- Three vertices, each joined to each. -/
def triangle : List (Edge (2 + 1)) :=
  [.ofNat 0 2 ⟨1, by decide, by decide⟩, .ofNat 0 1 ⟨5, by decide, by decide⟩,
    .ofNat 1 2 ⟨5, by decide, by decide⟩]

/-- The two heavier edges of the triangle, grown into a tree. -/
theorem grown_triangle :
    Grown (ends triangle) (weights triangle) [2, 1, 0] {(2 : Fin 3), (1 : Fin 3)} := by
  have h₁ : Grown (ends triangle) (weights triangle) [1, 0] {(1 : Fin 3)} := by
    refine Grown.grow (u := 0) (Grown.root 0) (by decide) (by decide) (by decide) ?_
    decide
  refine Grown.grow (u := 1) h₁ (by decide) (by decide) (by decide) ?_
  decide

/-- In the triangle the queue delivers the vertex 2 before the vertex 1
comes with the edge of weight 5 that leads there: the tree weighs 6, and
the two heavier edges weigh 10. -/
theorem not_optimal_triangle : Connected triangle ∧ ¬ Optimal triangle := by
  have htree := grown_triangle.isTree
  have huniv : {v : VertexTy (2 + 1) | v ∈ [2, 1, 0]} = Set.univ :=
    Set.eq_univ_of_forall (by decide)
  rw [huniv] at htree
  refine ⟨fun x y => (htree.joins x trivial y trivial).mono (Set.subset_univ _), ?_⟩
  rintro ⟨rounds, s, hrun, t, ht, hinj, hmax⟩
  have hkeys : (loop (Graph.ofEdges triangle) 4 (start 0)).map
      (fun s => ((s.key 1 : ℤ), (s.key 2 : ℤ))) = some (5, 1) := by decide
  obtain ⟨s', hs', hkey⟩ := Option.map_eq_some_iff.mp hkeys
  obtain rfl : s = s' := loop_unique (Except.ok.inj hrun) hs'
  have hweight : ∑ e ∈ Finset.univ.image t, weights triangle e = 6 := by
    rw [Finset.sum_image fun v _ v' _ h => hinj h]
    calc ∑ v, weights triangle (t v)
        = ∑ v : {v : VertexTy (2 + 1) // v ≠ 0}, (s.key v : ℤ) := by
          refine Finset.sum_congr rfl fun v _ => ?_
          obtain ⟨u, -, -, hw⟩ := ht v
          exact congrArg Subtype.val hw
      _ = (s.key 1 : ℤ) + s.key 2 := by
          have htwo : (Finset.univ : Finset {v : VertexTy (2 + 1) // v ≠ 0}) =
              {⟨1, by decide⟩, ⟨2, by decide⟩} := by decide
          rw [htwo, Finset.sum_pair (by decide)]
      _ = 6 := by rw [(Prod.mk.inj hkey).1, (Prod.mk.inj hkey).2]; rfl
  have hle := hmax.greatest _ htree
  rw [hweight] at hle
  exact absurd hle (by decide)

end Prim
