import Mathlib.Algebra.BigOperators.Group.Finset.Basic
import Mathlib.Algebra.Order.Group.Defs
import Mathlib.Data.Finset.Card
import Mathlib.Data.Sym.Sym2
import Mathlib.Logic.Relation
import Mathlib.Tactic.Common

/-!
# Spanning trees of greatest weight

Graphs here have an arbitrary type `E` of edges, each with two ends, so
that parallel edges are told apart and a loop is an edge like any other.
A tree over a set of vertices is a finite set of edges that joins them and
has no edge to spare.

**The exchange** (`IsTree.exchange`) is what everything rests on: an edge
of a tree may be replaced by any other that crosses the cut it leaves.
From it follows the criterion for a tree to be one of greatest weight
(`maximal_iff_supported`): each edge of the graph has its ends joined by
tree edges that weigh at least as much.

A tree may be grown vertex by vertex, each new vertex attached by a
heaviest edge to those already there. That alone does not make it one of
greatest weight; what does, vertex by vertex, is `Joinable`, and
`Grown.maximal_iff` says that it is exactly what does.
-/

namespace SpanningTree

variable {V E : Type} (ends : E → Sym2 V)

theorem exists_ends (e : E) : ∃ x y, ends e = s(x, y) := by
  induction ends e with
  | h x y => exact ⟨x, y, rfl⟩

/-! ### Being joined -/

/-- Two vertices are joined by a set of edges when a path of them leads
from one to the other. -/
def Joined (F : Set E) : V → V → Prop :=
  Relation.ReflTransGen fun x y => ∃ f ∈ F, ends f = s(x, y)

variable {ends}

namespace Joined

variable {F H : Set E} {x y z : V}

theorem edge {f : E} (hf : f ∈ F) (h : ends f = s(x, y)) : Joined ends F x y :=
  Relation.ReflTransGen.single ⟨f, hf, h⟩

theorem refl (x : V) : Joined ends F x x := Relation.ReflTransGen.refl

theorem trans (h : Joined ends F x y) (h' : Joined ends F y z) : Joined ends F x z :=
  Relation.ReflTransGen.trans h h'

theorem symm (h : Joined ends F x y) : Joined ends F y x := by
  induction h with
  | refl => exact refl _
  | tail _ hstep ih =>
    obtain ⟨f, hf, he⟩ := hstep
    exact (edge hf (he.trans Sym2.eq_swap)).trans ih

/-- Where the ends of each edge are joined by others, the others join
whatever the edges do. -/
theorem of_edges (h : Joined ends F x y)
    (hF : ∀ f ∈ F, ∀ a b, ends f = s(a, b) → Joined ends H a b) :
    Joined ends H x y := by
  induction h with
  | refl => exact refl _
  | tail _ hstep ih =>
    obtain ⟨f, hf, he⟩ := hstep
    exact ih.trans (hF f hf _ _ he)

theorem mono (h : Joined ends F x y) (hF : F ⊆ H) : Joined ends H x y :=
  h.of_edges fun _ hf _ _ he => edge (hF hf) he

/-- **A path that leaves a set of vertices** does so along an edge. -/
theorem crossing {P : V → Prop} (h : Joined ends F x y) (hx : P x) (hy : ¬ P y) :
    ∃ f ∈ F, ∃ a b, ends f = s(a, b) ∧ P a ∧ ¬ P b := by
  induction h with
  | refl => exact absurd hx hy
  | @tail b c _ hstep ih =>
    by_cases hb : P b
    · obtain ⟨f, hf, he⟩ := hstep
      exact ⟨f, hf, b, c, he, hb, hy⟩
    · exact ih hb

/-- A path that may use one more edge either does not, or has it between a
part before and a part after. -/
theorem insert_cases {f : E} {a b : V} (hf : ends f = s(a, b))
    (h : Joined ends (insert f F) x y) :
    Joined ends F x y ∨ (Joined ends F x a ∧ Joined ends F b y) ∨
      (Joined ends F x b ∧ Joined ends F a y) := by
  induction h with
  | refl => exact .inl (refl _)
  | @tail c d _ hstep ih =>
    obtain ⟨g, hg, he⟩ := hstep
    rcases hg with rfl | hg
    · -- the edge itself is the last one, in either direction
      rcases Sym2.eq_iff.mp (hf.symm.trans he) with ⟨rfl, rfl⟩ | ⟨rfl, rfl⟩
      · rcases ih with ih | ⟨ih, -⟩ | ⟨ih, -⟩
        · exact .inr (.inl ⟨ih, refl _⟩)
        · exact .inr (.inl ⟨ih, refl _⟩)
        · exact .inl ih
      · rcases ih with ih | ⟨ih, -⟩ | ⟨ih, -⟩
        · exact .inr (.inr ⟨ih, refl _⟩)
        · exact .inl ih
        · exact .inr (.inr ⟨ih, refl _⟩)
    · have hcd : Joined ends F c d := edge hg he
      rcases ih with ih | ⟨ih, ih'⟩ | ⟨ih, ih'⟩
      · exact .inl (ih.trans hcd)
      · exact .inr (.inl ⟨ih, ih'.trans hcd⟩)
      · exact .inr (.inr ⟨ih, ih'.trans hcd⟩)

/-- Edges inside a set of vertices do not lead out of it. -/
theorem not_leave {M : Set V} (h : Joined ends F x y)
    (hF : ∀ f ∈ F, ∀ v ∈ ends f, v ∈ M) (hx : x ∈ M) : y ∈ M := by
  by_contra hy
  obtain ⟨f, hf, a, b, he, -, hb⟩ := h.crossing (P := (· ∈ M)) hx hy
  exact hb (hF f hf b (he ▸ Sym2.mem_mk_right a b))

end Joined

/-! ### Trees -/

variable [DecidableEq E]

/-- **A tree over the vertices of `M`**: its edges stay inside, they join
any two of the vertices, and none can be left out. -/
structure IsTree (ends : E → Sym2 V) (M : Set V) (F : Finset E) : Prop where
  within : ∀ f ∈ F, ∀ v ∈ ends f, v ∈ M
  joins : ∀ x ∈ M, ∀ y ∈ M, Joined ends F x y
  bridge : ∀ f ∈ F, ∀ x y, ends f = s(x, y) → ¬ Joined ends (F.erase f) x y

namespace IsTree

variable {M : Set V} {F : Finset E}

theorem mem_left {f : E} {x y : V} (h : IsTree ends M F) (hf : f ∈ F) (he : ends f = s(x, y)) :
    x ∈ M := h.within f hf x (he ▸ Sym2.mem_mk_left x y)

theorem mem_right {f : E} {x y : V} (h : IsTree ends M F) (hf : f ∈ F) (he : ends f = s(x, y)) :
    y ∈ M := h.within f hf y (he ▸ Sym2.mem_mk_right x y)

/-- **The exchange.** An edge of a tree may be replaced by one whose ends
the rest of the tree does not join. -/
theorem exchange (h : IsTree ends M F) {f g : E} {c d : V} (hf : f ∈ F)
    (hg : ends g = s(c, d)) (hc : c ∈ M) (hd : d ∈ M)
    (hcd : ¬ Joined ends (F.erase f) c d) : IsTree ends M (insert g (F.erase f)) where
  within e he v hv := by
    rcases Finset.mem_insert.mp he with rfl | he
    · rw [hg] at hv
      rcases Sym2.mem_iff.mp hv with rfl | rfl
      · exact hc
      · exact hd
    · exact h.within e (Finset.mem_of_mem_erase he) v hv
  joins x hx y hy := by
    -- the two ends of `f` are still joined, by way of `g`
    have hsub : (F.erase f : Set E) ⊆ (insert g (F.erase f) : Finset E) := by
      simp
    have hg' : Joined ends (insert g (F.erase f) : Finset E) c d :=
      Joined.edge (by simp) hg
    refine (h.joins x hx y hy).of_edges fun e he a b hab => ?_
    rcases eq_or_ne e f with rfl | hne
    · have hins : insert e (F.erase e : Set E) = F := by
        rw [← Finset.coe_insert, Finset.insert_erase he]
      rcases Joined.insert_cases hab (hins ▸ h.joins c hc d hd) with hj | ⟨hca, hbd⟩ | ⟨hcb, had⟩
      · exact absurd hj hcd
      · exact ((hca.mono hsub).symm.trans hg').trans (hbd.mono hsub).symm
      · exact ((had.mono hsub).trans hg'.symm).trans (hcb.mono hsub)
    · exact Joined.edge (hsub (Finset.mem_coe.mpr (Finset.mem_erase.mpr ⟨hne, he⟩))) hab
  bridge e he x y hxy := by
    rcases eq_or_ne e g with rfl | hne
    · -- without `g` there is only what was left of the tree
      intro hj
      have hsub : ((insert e (F.erase f)).erase e : Set E) ⊆ F.erase f := by
        intro e'
        simp +contextual
      have hj := hj.mono hsub
      rcases Sym2.eq_iff.mp (hg.symm.trans hxy) with ⟨rfl, rfl⟩ | ⟨rfl, rfl⟩
      · exact hcd hj
      · exact hcd hj.symm
    · have heF : e ∈ F.erase f := Finset.mem_of_mem_insert_of_ne he hne
      intro hj
      have hsub : ((insert g (F.erase f)).erase e : Set E) ⊆ insert g ((F.erase f).erase e : Set E) := by
        intro e'
        simp
        tauto
      have hxy' : Joined ends (F.erase f) x y := Joined.edge heF hxy
      have hsub' : ((F.erase f).erase e : Set E) ⊆ F.erase f := by simp
      rcases Joined.insert_cases hg (hj.mono hsub) with hj | ⟨hxc, hdy⟩ | ⟨hxd, hcy⟩
      · exact h.bridge e (Finset.mem_of_mem_erase heF) x y hxy
          (hj.mono fun e' => by simp +contextual)
      · exact hcd (((hxc.mono hsub').symm.trans hxy').trans (hdy.mono hsub').symm)
      · exact hcd (((hcy.mono hsub').trans hxy'.symm).trans (hxd.mono hsub'))

/-- Where a tree with some edges taken away no longer joins two vertices,
one of those edges alone separates them. -/
theorem exists_separating (h : IsTree ends M F) {x y : V} (hxy : Joined ends F x y)
    (R : Finset E) (hR : R ⊆ F) (hn : ¬ Joined ends (F \ R : Finset E) x y) :
    ∃ g ∈ R, ¬ Joined ends (F.erase g) x y := by
  induction R using Finset.induction_on with
  | empty => exact absurd hxy (by simpa using hn)
  | @insert g R hg ih =>
    have hgF : g ∈ F := hR (Finset.mem_insert_self g R)
    by_cases hj : Joined ends (F \ R : Finset E) x y
    · refine ⟨g, Finset.mem_insert_self g R, fun hxy' => ?_⟩
      obtain ⟨a, b, hab⟩ := exists_ends ends g
      have hsub : ((F \ R : Finset E) : Set E) ⊆
          insert g ((F \ insert g R : Finset E) : Set E) := by
        intro e
        simp only [Finset.mem_coe, Set.mem_insert_iff, Finset.mem_sdiff, Finset.mem_insert]
        tauto
      have hsub' : ((F \ insert g R : Finset E) : Set E) ⊆ F.erase g := by
        intro e
        simp +contextual
      -- else the ends of `g` were joined by what lies on either side of it
      refine h.bridge g hgF a b hab ?_
      rcases Joined.insert_cases hab (hj.mono hsub) with hj | ⟨hxa, hby⟩ | ⟨hxb, hay⟩
      · exact absurd hj hn
      · exact ((hxa.mono hsub').symm.trans hxy').trans (hby.mono hsub').symm
      · exact ((hay.mono hsub').trans hxy'.symm).trans (hxb.mono hsub')
    · obtain ⟨g', hg', hn'⟩ := ih ((Finset.subset_insert g R).trans hR) hj
      exact ⟨g', Finset.mem_insert_of_mem hg', hn'⟩

/-- A tree has no other tree inside it. -/
theorem eq_of_subset {F' : Finset E} (h : IsTree ends M F) (h' : IsTree ends M F')
    (hsub : F' ⊆ F) : F' = F := by
  refine Finset.Subset.antisymm hsub fun e he => ?_
  by_contra hne
  obtain ⟨a, b, hab⟩ := exists_ends ends e
  refine h.bridge e he a b hab ((h'.joins a (h.mem_left he hab) b (h.mem_right he hab)).mono ?_)
  intro g hg
  exact Finset.mem_coe.mpr (Finset.mem_erase.mpr ⟨fun hge => hne (hge ▸ hg), hsub hg⟩)

end IsTree

/-! ### Edges supported by a tree -/

variable {R : Type} [LinearOrder R] {w : E → R}

/-- The ends of every edge between the vertices of `M` are joined by edges
of `F` that weigh at least as much. -/
def Supported (ends : E → Sym2 V) (w : E → R) (M : Set V) (F : Finset E) : Prop :=
  ∀ f x y, ends f = s(x, y) → x ∈ M → y ∈ M → Joined ends {e | e ∈ F ∧ w f ≤ w e} x y

/-- A path between vertices of a tree does not go through a vertex that
only one further edge leads to. -/
theorem IsTree.joined_of_insert {M : Set V} {F : Finset E} (hF : IsTree ends M F) {e : E}
    {v u x y : V} (he : ends e = s(v, u)) (hv : v ∉ M) (hx : x ∈ M) (hy : y ∈ M) {c : R}
    (h : Joined ends {g | g ∈ insert e F ∧ c ≤ w g} x y) :
    Joined ends {g | g ∈ F ∧ c ≤ w g} x y := by
  have hin : ∀ g ∈ {g | g ∈ F ∧ c ≤ w g}, ∀ z ∈ ends g, z ∈ M := fun g hg => hF.within g hg.1
  have hsub : {g | g ∈ insert e F ∧ c ≤ w g} ⊆ insert e {g | g ∈ F ∧ c ≤ w g} := by
    rintro g ⟨hg, hcg⟩
    rcases Finset.mem_insert.mp hg with rfl | hg
    · exact Set.mem_insert g _
    · exact Set.mem_insert_of_mem e ⟨hg, hcg⟩
  rcases Joined.insert_cases he (h.mono hsub) with hj | ⟨hxv, -⟩ | ⟨-, hvy⟩
  · exact hj
  · exact absurd (hxv.not_leave hin hx) hv
  · exact absurd (hvy.symm.not_leave hin hy) hv

omit [DecidableEq E] in
/-- What a tree supports, its heavy edges join: a path of edges of at least
some weight may be taken inside the tree. -/
theorem Supported.joined {l : List V} {F : Finset E} (hs : Supported ends w {x | x ∈ l} F)
    {c : R} {x y : V} (h : Joined ends {g | (∀ x ∈ ends g, x ∈ l) ∧ c ≤ w g} x y) :
    Joined ends {e | e ∈ F ∧ c ≤ w e} x y := by
  refine h.of_edges fun g ⟨hin, hcg⟩ a b hab => ?_
  refine (hs g a b hab (hin a (hab ▸ Sym2.mem_mk_left a b))
    (hin b (hab ▸ Sym2.mem_mk_right a b))).mono fun e ⟨he, hge⟩ => ⟨he, hcg.trans hge⟩

/-! ### Trees grown vertex by vertex -/

/-- A tree grown from a root, the vertex added last first: each new vertex
comes with an edge to a vertex already there, and none of its other edges
to such vertices is heavier. -/
inductive Grown (ends : E → Sym2 V) (w : E → R) : List V → Finset E → Prop where
  | root (r : V) : Grown ends w [r] ∅
  | grow {l : List V} {F : Finset E} {v u : V} {e : E} :
      Grown ends w l F → v ∉ l → ends e = s(v, u) → u ∈ l →
      (∀ f u', ends f = s(v, u') → u' ∈ l → w f ≤ w e) → Grown ends w (v :: l) (insert e F)

/-- At each vertex, any two edges to vertices added before it have their
far ends joined among those by edges no lighter than both. -/
def Joinable (ends : E → Sym2 V) (w : E → R) : List V → Prop
  | [] => True
  | v :: l => Joinable ends w l ∧ ∀ f f' u u', ends f = s(v, u) → ends f' = s(v, u') →
      u ∈ l → u' ∈ l →
      Joined ends {g | (∀ x ∈ ends g, x ∈ l) ∧ min (w f) (w f') ≤ w g} u u'

namespace Grown

variable {l : List V} {F : Finset E}

theorem isTree (h : Grown ends w l F) : IsTree ends {x | x ∈ l} F := by
  induction h with
  | root r =>
    refine ⟨fun f hf => absurd hf (Finset.notMem_empty f), fun x hx y hy => ?_,
      fun f hf => absurd hf (Finset.notMem_empty f)⟩
    rw [List.mem_singleton.mp hx, List.mem_singleton.mp hy]
    exact Joined.refl r
  | @grow l F v u e _ hv he hu _ ih =>
    have heF : e ∉ F := fun heF => hv (ih.mem_left heF he)
    have hsub : (F : Set E) ⊆ (insert e F : Finset E) := by simp
    have hvu : Joined ends (insert e F : Finset E) v u := Joined.edge (by simp) he
    have htou : ∀ x ∈ v :: l, Joined ends (insert e F : Finset E) x u := by
      intro x hx
      rcases List.mem_cons.mp hx with rfl | hx
      · exact hvu
      · exact (ih.joins x hx u hu).mono hsub
    refine ⟨fun f hf x hx => ?_, fun x hx y hy => (htou x hx).trans (htou y hy).symm,
      fun f hf x y hxy hj => ?_⟩
    · rcases Finset.mem_insert.mp hf with rfl | hf
      · rw [he] at hx
        rcases Sym2.mem_iff.mp hx with rfl | rfl
        · exact List.mem_cons_self
        · exact List.mem_cons_of_mem v hu
      · exact List.mem_cons_of_mem v (ih.within f hf x hx)
    · rcases Finset.mem_insert.mp hf with rfl | hf
      · -- without its edge the new vertex is joined to none of the others
        rw [Finset.erase_insert heF] at hj
        rcases Sym2.eq_iff.mp (he.symm.trans hxy) with ⟨rfl, rfl⟩ | ⟨rfl, rfl⟩
        · exact hv (hj.symm.not_leave ih.within hu)
        · exact hv (hj.not_leave ih.within hu)
      · have hx := ih.mem_left hf hxy
        have hy := ih.mem_right hf hxy
        have hsub' : ((F.erase f : Finset E) : Set E) ⊆ F := by simp
        have hins : ((insert e F).erase f : Set E) = insert e (F.erase f : Set E) := by
          rw [Finset.erase_insert_of_ne (fun hef : e = f => heF (hef ▸ hf)), Finset.coe_insert]
        rcases Joined.insert_cases he (hins ▸ hj) with hj | ⟨hxv, -⟩ | ⟨-, hvy⟩
        · exact ih.bridge f hf x y hxy hj
        · exact hv ((hxv.mono hsub').not_leave ih.within hx)
        · exact hv ((hvy.mono hsub').symm.not_leave ih.within hy)

/-- **One vertex more.** The grown tree supports the edges of the new
vertex just when the old vertices they lead to are joined by edges no
lighter. -/
theorem supported_iff (h : Grown ends w l F) :
    Supported ends w {x | x ∈ l} F ↔ Joinable ends w l := by
  induction h with
  | root r =>
    refine ⟨fun _ => ⟨trivial, fun _ _ u _ _ _ hu => absurd hu List.not_mem_nil⟩,
      fun _ f x y _ hx hy => ?_⟩
    rw [List.mem_singleton.mp hx, List.mem_singleton.mp hy]
    exact Joined.refl r
  | @grow l F v u e hgrown hv he hu hmax ih =>
    have htree := hgrown.isTree
    have hup : ∀ c : R, {g | g ∈ F ∧ c ≤ w g} ⊆ {g | g ∈ insert e F ∧ c ≤ w g} :=
      fun c g ⟨hg, hc⟩ => ⟨Finset.mem_insert_of_mem hg, hc⟩
    constructor
    · intro hs
      refine ⟨ih.mp fun f x y hxy hx hy => ?_, fun f f' u₁ u₂ hf hf' hu₁ hu₂ => ?_⟩
      · exact htree.joined_of_insert he hv hx hy
          (hs f x y hxy (List.mem_cons_of_mem v hx) (List.mem_cons_of_mem v hy))
      · -- both far ends are joined to the new vertex, hence to each other
        have h₁ := (hs f v u₁ hf List.mem_cons_self (List.mem_cons_of_mem v hu₁)).mono
          fun g (hg : g ∈ insert e F ∧ w f ≤ w g) =>
            (⟨hg.1, (min_le_left _ _).trans hg.2⟩ : g ∈ insert e F ∧ min (w f) (w f') ≤ w g)
        have h₂ := (hs f' v u₂ hf' List.mem_cons_self (List.mem_cons_of_mem v hu₂)).mono
          fun g (hg : g ∈ insert e F ∧ w f' ≤ w g) =>
            (⟨hg.1, (min_le_right _ _).trans hg.2⟩ : g ∈ insert e F ∧ min (w f) (w f') ≤ w g)
        exact (htree.joined_of_insert he hv hu₁ hu₂ (h₁.symm.trans h₂)).mono
          fun g (hg : g ∈ F ∧ min (w f) (w f') ≤ w g) => ⟨htree.within g hg.1, hg.2⟩
    · rintro ⟨hj, hcond⟩
      have hs := ih.mpr hj
      -- an edge of the new vertex, by way of the edge it was attached by
      have hnew : ∀ f u', ends f = s(v, u') → u' ∈ l →
          Joined ends {g | g ∈ insert e F ∧ w f ≤ w g} v u' := by
        intro f u' hf hu'
        have hfe := hmax f u' hf hu'
        have hpath := hcond f e u' u hf he hu' hu
        rw [min_eq_left hfe] at hpath
        have hvu : Joined ends {g | g ∈ insert e F ∧ w f ≤ w g} v u :=
          Joined.edge ⟨Finset.mem_insert_self e F, hfe⟩ he
        exact hvu.trans
          ((hs.joined hpath).mono (hup _)).symm
      intro f x y hxy hx hy
      rcases List.mem_cons.mp hx with hxv | hx'
      · subst hxv
        rcases List.mem_cons.mp hy with hyv | hy'
        · exact hyv ▸ Joined.refl _
        · exact hnew f y hxy hy'
      · rcases List.mem_cons.mp hy with hyv | hy'
        · subst hyv
          exact (hnew f x (hxy.trans Sym2.eq_swap) hx').symm
        · exact (hs f x y hxy hx' hy').mono (hup _)

end Grown

/-! ### Greatest weight -/

variable [AddCommGroup R] [IsOrderedAddMonoid R]

/-- A tree that no tree over the same vertices outweighs. -/
structure Maximal (ends : E → Sym2 V) (w : E → R) (M : Set V) (F : Finset E) : Prop where
  isTree : IsTree ends M F
  greatest : ∀ F', IsTree ends M F' → ∑ e ∈ F', w e ≤ ∑ e ∈ F, w e

/-- A supported tree is not outweighed: a competitor can be led back to it,
one exchange at a time and never losing weight. -/
theorem Supported.greatest {M : Set V} {F : Finset E} (hF : IsTree ends M F)
    (hs : Supported ends w M F) (C : Finset E) (hC : IsTree ends M C) :
    ∑ e ∈ C, w e ≤ ∑ e ∈ F, w e := by
  induction hn : (C \ F).card generalizing C with
  | zero =>
    rw [Finset.card_eq_zero, Finset.sdiff_eq_empty_iff_subset] at hn
    rw [hF.eq_of_subset hC hn]
  | succ n ih =>
    obtain ⟨f, hf⟩ := Finset.card_pos.mp (by omega : 0 < (C \ F).card)
    obtain ⟨hf', hfF⟩ := Finset.mem_sdiff.mp hf
    obtain ⟨x, y, hxy⟩ := exists_ends ends f
    -- the path in `F` between the ends of `f` crosses the cut `f` leaves
    obtain ⟨g, ⟨hg, hfg⟩, c, d, hcd, hxc, hxd⟩ :=
      (hs f x y hxy (hC.mem_left hf' hxy) (hC.mem_right hf' hxy)).crossing
        (P := Joined ends (C.erase f) x) (Joined.refl x) (hC.bridge f hf' x y hxy)
    have hgC : g ∉ C.erase f := fun hg' => hxd (hxc.trans (Joined.edge hg' hcd))
    have htree := hC.exchange hf' hcd (hF.mem_left hg hcd) (hF.mem_right hg hcd)
      fun hj => hxd (hxc.trans hj)
    have hcard : (insert g (C.erase f) \ F).card = n := by
      rw [Finset.insert_sdiff_of_mem _ hg, Finset.erase_sdiff_comm, Finset.card_erase_of_mem hf, hn]
      rfl
    calc ∑ e ∈ C, w e = w f + ∑ e ∈ C.erase f, w e := (Finset.add_sum_erase _ _ hf').symm
      _ ≤ w g + ∑ e ∈ C.erase f, w e := by gcongr
      _ = ∑ e ∈ insert g (C.erase f), w e := (Finset.sum_insert hgC).symm
      _ ≤ ∑ e ∈ F, w e := ih _ htree hcard

/-- **The criterion for a tree of greatest weight.** -/
theorem maximal_iff_supported {M : Set V} {F : Finset E} (hF : IsTree ends M F) :
    Maximal ends w M F ↔ Supported ends w M F := by
  refine ⟨fun h f x y hxy hx hy => ?_, fun hs => ⟨hF, hs.greatest hF⟩⟩
  by_contra hn
  have hn' : ¬ Joined ends (F \ F.filter (w · < w f) : Finset E) x y := by
    refine fun hj => hn (hj.mono fun e he => ?_)
    obtain ⟨he, he'⟩ := Finset.mem_sdiff.mp he
    refine ⟨he, ?_⟩
    by_contra hlt
    exact he' (Finset.mem_filter.mpr ⟨he, not_le.mp hlt⟩)
  -- some lighter edge separates the ends of `f`, and `f` may take its place
  obtain ⟨g, hg, hsep⟩ := hF.exists_separating (hF.joins x hx y hy) _ (Finset.filter_subset _ _) hn'
  obtain ⟨hgF, hlt⟩ := Finset.mem_filter.mp hg
  have hfF : f ∉ F.erase g := fun hf =>
    hn (Joined.edge ⟨Finset.mem_of_mem_erase hf, le_refl _⟩ hxy)
  refine absurd (h.greatest _ (hF.exchange hgF hxy hx hy hsep)) (not_le.mpr ?_)
  calc ∑ e ∈ F, w e = w g + ∑ e ∈ F.erase g, w e := (Finset.add_sum_erase _ _ hgF).symm
    _ < w f + ∑ e ∈ F.erase g, w e := by gcongr
    _ = ∑ e ∈ insert f (F.erase g), w e := (Finset.sum_insert hfF).symm

/-- **A grown tree is one of greatest weight** exactly when it was joinable
vertex by vertex. -/
theorem Grown.maximal_iff {l : List V} {F : Finset E}
    (h : Grown ends w l F) :
    Maximal ends w {x | x ∈ l} F ↔ Joinable ends w l :=
  (maximal_iff_supported h.isTree).trans h.supported_iff

end SpanningTree
