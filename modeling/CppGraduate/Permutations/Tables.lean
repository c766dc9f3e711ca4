import CppGraduate.Permutations.NormalForm

/-!
# Loops and tables

`create_loops` reads the loops off a table; applying them to the table of
the identity, one after another, writes the table again. On an element the
loops of a permutation act first to last, on a table they compose the other
way round. Loops that share no element commute, so neither order matters.

A size check stands before every application to a table. It compares the
size with a number of elements that it computes, so it may be undefined, or
fail for a table of the right size.

**Main results**: `roundTrips_iff`, reading and writing are inverse to each
other where that check passes; `rearranges_iff`, there applying loops to a
table is applying them to its indices.
-/

namespace Permutations

open Cxx Dom Cycles Equiv Equiv.Perm

variable {D : Dom} {σ : Perm (Idom D)} {loops : List (PermLoop D)} {l : PermLoop D}
  {tbl : List (Idom D)}

/-- `apply(tbeg, tend)` of a permutation: all loops in direct order -/
def Permutation.applyTable (p : Permutation D) (tbl : List (Idom D)) :
    Except Fault (List (Idom D)) :=
  applyAll p.loops tbl

/-! ## Loops that share no element -/

/-- No element is in two of the loops. -/
def DisjointLoops (loops : List (PermLoop D)) : Prop :=
  loops.Pairwise fun l m => l.loop.Disjoint m.loop

/-- An element of no loop stays where it is. -/
theorem composed_of_not_mem {x : Idom D} (h : ∀ l ∈ loops, x ∉ l.loop) : composed loops x = x := by
  induction loops with
  | nil => rfl
  | cons l ls ih =>
    show composed ls (l.perm x) = x
    have hfix : l.perm x = x := List.formPerm_apply_of_notMem (h l List.mem_cons_self)
    rw [hfix, ih fun m hm => h m (List.mem_cons_of_mem l hm)]

/-- **An element of a loop goes where its loop sends it.** -/
theorem composed_of_mem (h : DisjointLoops loops) (hl : l ∈ loops) {x : Idom D} (hx : x ∈ l.loop) :
    composed loops x = l.perm x := by
  induction loops with
  | nil => cases hl
  | cons m ls ih =>
    obtain ⟨hm, hls⟩ := List.pairwise_cons.mp h
    show composed ls (m.perm x) = l.perm x
    rcases List.mem_cons.mp hl with rfl | hl
    · have hmem : l.perm x ∈ l.loop := List.formPerm_apply_mem_of_mem hx
      exact composed_of_not_mem fun k hk hxk => hm k hk hmem hxk
    · have hfix : m.perm x = x := List.formPerm_apply_of_notMem fun hxm => hm l hl hxm hx
      rw [hfix, ih hls hl]

/-- **The order of disjoint loops does not matter.** -/
theorem composed_reverse (h : DisjointLoops loops) : composed loops.reverse = composed loops := by
  have hrev : DisjointLoops loops.reverse :=
    List.pairwise_reverse.mpr (h.imp fun hlm => hlm.symm)
  ext1 x
  by_cases hx : ∃ l ∈ loops, x ∈ l.loop
  · obtain ⟨l, hl, hx⟩ := hx
    rw [composed_of_mem hrev (List.mem_reverse.mpr hl) hx, composed_of_mem h hl hx]
  · have hnot : ∀ l ∈ loops, x ∉ l.loop := fun l hl hxl => hx ⟨l, hl, hxl⟩
    rw [composed_of_not_mem hnot, composed_of_not_mem fun l hl => hnot l (List.mem_reverse.mp hl)]

/-! ## The loops of a permutation in order -/

/-- **Canonical, disjoint loops that cover the domain**, in increasing order
of their smallest elements. -/
structure IsLoopForm (loops : List (PermLoop D)) : Prop where
  /-- Every loop is in normal form. -/
  normal : ∀ l ∈ loops, l.IsNormal
  /-- No element is in two loops. -/
  disjoint : DisjointLoops loops
  /-- Every element is in a loop. -/
  cover : ∀ x, ∃ l ∈ loops, x ∈ l.loop
  /-- The smallest elements increase strictly. -/
  increasing : loops.Pairwise fun l m => l.smallest < m.smallest

/-- **The loops of the leaders of a permutation** are such loops. -/
theorem isLoopForm_leaders (σ : Perm (Idom D)) :
    IsLoopForm ((leaders σ D.elems).map (loopAt σ)) where
  normal l hl := by
    obtain ⟨t, ht, rfl⟩ := List.mem_map.mp hl
    refine ⟨nodup_loopAt σ t, fun x hx => ?_⟩
    rw [smallest_loopAt]
    exact (mem_leaders.mp ht).2 x (mem_cycle.mp hx)
  disjoint := by
    refine List.pairwise_map.mpr ((pairwise_leaders D.nodup_elems).imp fun hst x hs ht => hst ?_)
    exact (mem_cycle.mp hs).trans (mem_cycle.mp ht).symm
  cover x := by
    obtain ⟨t, ht, htx⟩ := exists_leader σ x
    exact ⟨loopAt σ t, List.mem_map_of_mem (List.mem_reverse.mp ht), mem_cycle.mpr htx⟩
  increasing := by
    refine List.pairwise_map.mpr ((D.pairwise_elems.filter _).imp fun hst => ?_)
    rwa [smallest_loopAt, smallest_loopAt]

/-- A loop of the leaders sends its elements where the permutation does. -/
theorem apply_of_mem_leaders (hl : l ∈ (leaders σ D.elems).map (loopAt σ)) {x : Idom D}
    (hx : x ∈ l.loop) : l.apply x = σ x := by
  obtain ⟨t, -, rfl⟩ := List.mem_map.mp hl
  rw [PermLoop.apply_eq_perm (nodup_loopAt σ t)]
  exact (formPerm_cycle σ t x).trans (if_pos (mem_cycle.mp hx))

/-- What the loops of the leaders compose to. -/
theorem composed_leaders (σ : Perm (Idom D)) :
    composed ((leaders σ D.elems).map (loopAt σ)) = σ := by
  have hform := isLoopForm_leaders σ
  ext1 x
  obtain ⟨l, hl, hx⟩ := hform.cover x
  rw [composed_of_mem hform.disjoint hl hx, ← apply_of_mem_leaders hl hx,
    PermLoop.apply_eq_perm (hform.normal l hl).nodup]

/-- A loop is the cycle of its smallest element in what the loops compose
to. -/
theorem IsLoopForm.eq_loopAt (h : IsLoopForm loops) (hl : l ∈ loops) :
    l = loopAt (composed loops) l.smallest := by
  refine PermLoop.ext (cycle_head (h.normal l hl).nodup l.ne fun x hx => ?_).symm
  exact composed_of_mem h.disjoint hl hx

/-- **There is one such list for a permutation**: the loops of its
leaders. -/
theorem IsLoopForm.eq_leaders (h : IsLoopForm loops) :
    loops = (leaders (composed loops) D.elems).map (loopAt (composed loops)) := by
  have hleaders := isLoopForm_leaders (composed loops)
  have hlead : ∀ l ∈ loops, IsLeader (composed loops) l.smallest := by
    intro l hl x hx
    have hmem : x ∈ (loopAt (composed loops) l.smallest).loop := mem_cycle.mpr hx
    rw [← h.eq_loopAt hl] at hmem
    exact (h.normal l hl).smallest_le x hmem
  have hmem : ∀ l, l ∈ loops
      ↔ l ∈ (leaders (composed loops) D.elems).map (loopAt (composed loops)) := by
    intro l
    constructor
    · intro hl
      rw [h.eq_loopAt hl]
      exact List.mem_map_of_mem (mem_leaders.mpr ⟨mem_elems _, hlead l hl⟩)
    · intro hl
      obtain ⟨t, ht, rfl⟩ := List.mem_map.mp hl
      obtain ⟨m, hm, htm⟩ := h.cover t
      rw [h.eq_loopAt hm] at htm
      rw [← (hlead m hm).eq (mem_leaders.mp ht).2 (mem_cycle.mp htm), ← h.eq_loopAt hm]
      exact hm
  have hnodup : ∀ {ms : List (PermLoop D)}, ms.Pairwise (fun l m => l.smallest < m.smallest) →
      ms.Nodup := fun hms => hms.imp fun hlt he => absurd (congrArg PermLoop.smallest he) hlt.ne
  refine ((List.perm_ext_iff_of_nodup (hnodup h.increasing) (hnodup hleaders.increasing)).mpr
    hmem).eq_of_pairwise (fun l m _ _ hlm hml => ?_) h.increasing hleaders.increasing
  exact absurd hlm hml.not_gt

/-! ## Reading and writing tables -/

/-- **The size check** stands before every application to a table. -/
theorem tableFits_of_applyTable (hlt : D.start < D.fin) (htbl : tbl.length = D.card)
    {out : List (Idom D)} (h : l.applyTable tbl = .ok out) : D.TableFits := by
  obtain ⟨-, ⟨n, hn, hsize⟩, -⟩ := PermLoop.of_applyTable h
  refine (Idom.tableFits_iff hlt.le).mpr ⟨n, hn, ?_⟩
  rw [← htbl, hsize]

/-- There are loops where there are elements to cover. -/
theorem tableFits_of_applyAll (hlt : D.start < D.fin) (htbl : tbl.length = D.card)
    (hcover : ∀ x, ∃ l ∈ loops, x ∈ l.loop) {out : List (Idom D)}
    (h : applyAll loops tbl = .ok out) : D.TableFits := by
  obtain ⟨l, hl, -⟩ := hcover ⟨D.start, le_rfl, hlt.le⟩
  cases loops with
  | nil => cases hl
  | cons m ls =>
    unfold applyAll at h
    rw [List.foldlM_cons] at h
    obtain ⟨_, hm, -⟩ := bind_eq_ok.mp h
    exact tableFits_of_applyTable hlt htbl hm

/-- **Disjoint loops applied to the table of the identity** write the table
of what they compose to. -/
theorem applyAll_elems (hfits : D.TableFits) (hlt : D.start < D.fin) (h : IsLoopForm loops) :
    applyAll loops D.elems = .ok (tableOf (composed loops)) := by
  rw [← tableOf_id, applyAll_tableOf hfits hlt fun l hl => (h.normal l hl).nodup,
    composed_reverse h.disjoint]
  rfl

/-- **A rearrangement of the elements is the table of a permutation.** -/
theorem exists_perm_of_perm (h : tbl.Perm D.elems) : ∃ σ : Perm (Idom D), tbl = tableOf σ := by
  obtain ⟨f, rfl⟩ := exists_tableOf (h.length_eq.trans (length_elems D))
  have hinj : Function.Injective f := fun x y hxy =>
    List.inj_on_of_nodup_map (h.nodup_iff.mpr D.nodup_elems) (mem_elems x) (mem_elems y) hxy
  exact ⟨Equiv.ofBijective f (Finite.injective_iff_bijective.mp hinj), rfl⟩

/-- The loops read off the table are canonical, disjoint, in order and cover
the domain; they send every element to its entry, and applied to the table of
the identity they give the table again. -/
def ReadsLoops (tbl : List (Idom D)) : Prop :=
  ∃ loops, createLoops tbl = .ok loops ∧ IsLoopForm loops
    ∧ (∀ l ∈ loops, ∀ x ∈ l.loop, tbl[pos x]? = some (l.apply x))
    ∧ applyAll loops D.elems = .ok tbl

/-- The loops read off the table that the loops make of the identity are the
loops. -/
def ReadsBack (loops : List (PermLoop D)) : Prop :=
  (applyAll loops D.elems >>= createLoops) = .ok loops

/-- **Reading and writing are inverse to each other**, exactly where the size
of the table passes the check. -/
theorem roundTrips_iff (hlt : D.start < D.fin) (htbl : tbl.Perm D.elems)
    (hloops : IsLoopForm loops) :
    (ReadsLoops tbl ↔ D.TableFits) ∧ (ReadsBack loops ↔ D.TableFits) := by
  constructor
  · constructor
    · rintro ⟨out, -, hform, -, happly⟩
      exact tableFits_of_applyAll hlt (length_elems D) hform.cover happly
    · intro hfits
      obtain ⟨σ, rfl⟩ := exists_perm_of_perm htbl
      have hform := isLoopForm_leaders σ
      refine ⟨_, createLoops_tableOf hfits.offsetsFit σ, hform, fun l hl x hx => ?_, ?_⟩
      · rw [getElem?_tableOf, apply_of_mem_leaders hl hx]
      · rw [applyAll_elems hfits hlt hform, composed_leaders]
  · constructor
    · intro h
      obtain ⟨_, happly, -⟩ := bind_eq_ok.mp h
      exact tableFits_of_applyAll hlt (length_elems D) hloops.cover happly
    · intro hfits
      unfold ReadsBack
      rw [applyAll_elems hfits hlt hloops, ok_bind]
      exact (createLoops_tableOf hfits.offsetsFit (composed loops)).trans
        (congrArg Except.ok hloops.eq_leaders.symm)

/-- The table `[3, 1, 4, 2]`. -/
theorem roundTrips_iff_oneToFour : ReadsLoops [(⟨3, by decide⟩ : Idom oneToFour), ⟨1, by decide⟩,
    ⟨4, by decide⟩, ⟨2, by decide⟩] :=
  (roundTrips_iff (by decide) (by decide) (isLoopForm_leaders 1)).1.mpr (by decide)

/-- Over all values of `unsigned` the loops cannot be applied: their number
wraps around to zero, and the table of the identity fails the check. -/
theorem not_readsLoops_allUnsigned :
    allUnsigned.start < allUnsigned.fin ∧ allUnsigned.elems.Perm allUnsigned.elems
      ∧ ¬ ReadsLoops allUnsigned.elems := by
  refine ⟨by decide, .refl _, ?_⟩
  rintro ⟨out, -, hform, -, happly⟩
  exact absurd (tableFits_of_applyAll (by decide) (length_elems _) hform.cover happly) (by decide)

/-! ## Applying to a table and to its indices -/

/-- The entries are the old ones, the one at `x` that at `g x`. -/
def Rearranged (tbl out : List (Idom D)) (g : Idom D → Idom D) : Prop :=
  out.length = tbl.length ∧ ∀ x, out[pos x]? = tbl[pos (g x)]?

/-- The table of a function, rearranged. -/
theorem rearranged_tableOf (f g : Idom D → Idom D) :
    Rearranged (tableOf f) (tableOf (f ∘ g)) g := by
  refine ⟨by rw [length_tableOf, length_tableOf], fun x => ?_⟩
  rw [getElem?_tableOf, getElem?_tableOf]
  rfl

/-- A loop applied to a table rearranges it as it sends the elements, and
leaves the entries of other elements alone. -/
def PermLoop.Rearranges (l : PermLoop D) (tbl : List (Idom D)) : Prop :=
  ∃ out, l.applyTable tbl = .ok out ∧ Rearranged tbl out l.apply
    ∧ ∀ x ∉ l.loop, out[pos x]? = tbl[pos x]?

/-- A permutation applied to a table rearranges it as it sends the
elements. -/
def Permutation.Rearranges (p : Permutation D) (tbl : List (Idom D)) : Prop :=
  ∃ out, p.applyTable tbl = .ok out ∧ Rearranged tbl out p.apply

/-- The loops of a canonical permutation have distinct elements. -/
theorem IsCanonical.nodup {p : Permutation D} (h : IsCanonical p) :
    (p.loops.flatMap PermLoop.loop).Nodup :=
  List.nodup_iff_count_le_one.mpr fun x => (h.once x).le

/-- Every element is in a loop of a canonical permutation. -/
theorem IsCanonical.cover {p : Permutation D} (h : IsCanonical p) (x : Idom D) :
    ∃ l ∈ p.loops, x ∈ l.loop :=
  List.mem_flatMap.mp (List.count_pos_iff.mp (by rw [h.once x]; exact Nat.one_pos))

/-- **Applying to a table is applying to its indices**, exactly where the size
of the table passes the check: for a loop, and for the loops of a permutation
in their order. -/
theorem rearranges_iff (hlt : D.start < D.fin) (hl : l.loop.Nodup) {p : Permutation D}
    (hp : IsCanonical p) (htbl : tbl.length = D.card) :
    (l.Rearranges tbl ↔ D.TableFits) ∧ (p.Rearranges tbl ↔ D.TableFits) := by
  obtain ⟨f, rfl⟩ := exists_tableOf htbl
  constructor
  · constructor
    · rintro ⟨out, hout, -⟩
      exact tableFits_of_applyTable hlt htbl hout
    · intro hfits
      have happly : l.apply = l.perm := funext (PermLoop.apply_eq_perm hl)
      refine ⟨_, PermLoop.applyTable_tableOf hfits hlt hl f, ?_, fun x hx => ?_⟩
      · rw [happly]
        exact rearranged_tableOf f l.perm
      · have hfix : l.perm x = x := List.formPerm_apply_of_notMem hx
        rw [getElem?_tableOf, getElem?_tableOf, Function.comp_apply, hfix]
  · constructor
    · rintro ⟨out, hout, -⟩
      exact tableFits_of_applyAll hlt htbl hp.cover hout
    · intro hfits
      obtain ⟨hnodup, hdisjoint⟩ := List.nodup_flatMap.mp hp.nodup
      have happly : p.apply = composed p.loops := funext (foldl_apply_eq hnodup)
      refine ⟨_, applyAll_tableOf hfits hlt hnodup f, ?_⟩
      rw [happly, composed_reverse hdisjoint]
      exact rearranged_tableOf f _

/-- The loop `(1 3 4 2)` applied to the table of the identity. -/
theorem rearranges_iff_oneToFour :
    (PermLoop.ofList [(⟨4, by decide⟩ : Idom oneToFour), ⟨2, by decide⟩, ⟨1, by decide⟩,
      ⟨3, by decide⟩] (List.cons_ne_nil _ _)).Rearranges oneToFour.elems :=
  (rearranges_iff (by decide) (by decide) (isCanonical_canon 1) (length_elems _)).1.mpr
    (by decide)

/-- Over all values of `unsigned` the number of elements wraps around to zero,
and a table of the right size fails the check. -/
theorem not_rearranges_swapZeroOne :
    allUnsigned.start < allUnsigned.fin ∧ swapZeroOne.loop.Nodup
      ∧ ¬ swapZeroOne.Rearranges allUnsigned.elems := by
  refine ⟨by decide, by decide, ?_⟩
  rintro ⟨out, hout, -⟩
  exact absurd (tableFits_of_applyTable (by decide) (length_elems _) hout) (by decide)

end Permutations
