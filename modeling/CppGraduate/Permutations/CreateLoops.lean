import CppGraduate.Permutations.PermLoops

/-!
# Reading the loops off a table

`create_loops` scans the marks of a table for an element not yet in a loop,
follows the table from there until it is back, and goes on with the next
unmarked element. On the table of a permutation it yields the cycles of the
permutation, each from its smallest element on, the smallest elements in
increasing order.

The scan is followed by one invariant: before position `i`, the marked
elements are those that share a cycle with an element before `i`. So an
unmarked element is the first of its cycle, and everything the search for
the next unmarked one skips is not.
-/

namespace Permutations

open Cxx Dom Cycles Equiv Equiv.Perm Function

variable {D : Dom} {σ : Perm (Idom D)} {t : Idom D}

/-- The loop of `t` in a permutation. -/
noncomputable def loopAt (σ : Perm (Idom D)) (t : Idom D) : PermLoop D :=
  ⟨cycle σ t, cycle_ne_nil σ t⟩

/-- The loop of `t` begins with `t`. -/
@[simp]
theorem smallest_loopAt (σ : Perm (Idom D)) (t : Idom D) : (loopAt σ t).smallest = t :=
  head_cycle σ t (cycle_ne_nil σ t)

/-- The elements of the loop of `t` are different. -/
theorem nodup_loopAt (σ : Perm (Idom D)) (t : Idom D) : (loopAt σ t).loop.Nodup :=
  nodup_cycle σ t

/-- The identity's loops are single elements. -/
theorem ofList_singleton (x : Idom D) :
    PermLoop.ofList [x] (List.cons_ne_nil x []) = loopAt 1 x := by
  have hcycle : cycle 1 x = [x] := cycle_one x
  refine PermLoop.ext ?_
  show PermLoop.reroll [x] _ = cycle 1 x
  rw [hcycle]
  exact PermLoop.reroll_of_head_le (by simp)

/-- Turning the loop of an element around yields its loop in the inverse. -/
theorem inverse_loopAt (σ : Perm (Idom D)) (t : Idom D) :
    (loopAt σ t).inverse = loopAt σ⁻¹ t := by
  refine PermLoop.ext ?_
  have hhead : (loopAt σ t).loop.head (loopAt σ t).ne = t := smallest_loopAt σ t
  rw [PermLoop.loop_inverse, hhead]
  exact (cycle_inv σ t).symm

/-- A cycle is no longer than the domain. -/
theorem minimalPeriod_le_card (σ : Perm (Idom D)) (t : Idom D) : minimalPeriod σ t ≤ D.card := by
  have h := (nodup_cycle σ t).subperm (fun x _ => mem_elems x)
  simpa [cycle] using h.length_le

/-! ## Following the table around one cycle -/

/-- Adding the next element of a cycle to the loop begun with its leader
puts it last: the leader stays first. -/
theorem add_iterate (hlead : IsLeader σ t) (k : ℕ) (ne : List.iterate σ t (k + 1) ≠ [])
    (ne' : List.iterate σ t (k + 2) ≠ []) :
    (⟨List.iterate σ t (k + 1), ne⟩ : PermLoop D).add ((⇑σ)^[k + 1] t)
      = ⟨List.iterate σ t (k + 2), ne'⟩ := by
  have hsplit : List.iterate σ t (k + 1) ++ [(⇑σ)^[k + 1] t] = List.iterate σ t (k + 2) :=
    (List.iterate_add σ t (k + 1) 1).symm
  have hle : ∀ y ∈ List.iterate σ (σ t) (k + 1), t ≤ y := by
    intro y hy
    obtain ⟨n, -, rfl⟩ := List.mem_iterate.mp hy
    refine hlead _ ⟨n + 1, ?_⟩
    rw [← iterate_succ_apply, ← coe_pow]
    rfl
  unfold PermLoop.add PermLoop.ofList
  simp only [hsplit]
  congr 1
  exact PermLoop.reroll_of_head_le hle

/-- **The inner loop goes once around the cycle.** From the `k`-th element
on it adds the remaining elements to the loop and marks them. -/
theorem follow_tableOf (hfits : D.OffsetsFit) (hlead : IsLeader σ t) (r k fuel : ℕ)
    (m : Idom D → Bool) (ne : List.iterate σ t (k + 1) ≠ [])
    (hk : k + 1 + r = minimalPeriod σ t) (hfuel : r < fuel) :
    ∃ m', follow (tableOf σ) t fuel ((⇑σ)^[k + 1] t) ⟨List.iterate σ t (k + 1), ne⟩ (tableOf m)
        = .ok (loopAt σ t, tableOf m')
      ∧ ∀ x, m' x = true ↔ m x = true
          ∨ ∃ i, k + 1 ≤ i ∧ i < minimalPeriod σ t ∧ (⇑σ)^[i] t = x := by
  induction r generalizing k fuel m with
  | zero =>
    obtain ⟨fuel, rfl⟩ := Nat.exists_eq_succ_of_ne_zero hfuel.ne'
    rw [Nat.add_zero] at hk
    refine ⟨m, ?_, fun x => ⟨Or.inl, ?_⟩⟩
    · simp only [follow, hk, iterate_minimalPeriod, if_true]
      rfl
    · rintro (hm | ⟨i, hi, hi', -⟩)
      · exact hm
      · exact absurd hi' (by omega)
  | succ r ih =>
    obtain ⟨fuel, rfl⟩ := Nat.exists_eq_succ_of_ne_zero (Nat.ne_zero_of_lt hfuel)
    -- the element is not the leader again before the period is over
    have hback : (⇑σ)^[k + 1] t ≠ t :=
      not_isPeriodicPt_of_pos_of_lt_minimalPeriod (Nat.succ_ne_zero k) (by omega)
    have ne' : List.iterate σ t (k + 2) ≠ [] := List.cons_ne_nil _ _
    obtain ⟨m', hfollow, hm'⟩ := ih (k + 1) fuel (update m ((⇑σ)^[k + 1] t) true) ne'
      (by omega) (by omega)
    refine ⟨m', ?_, fun x => ?_⟩
    · rw [follow, if_neg hback, Idom.offset_of_fits hfits, ok_bind, writeAt_tableOf, ok_bind,
        readAt_tableOf, ok_bind, add_iterate hlead k ne ne',
        ← iterate_succ_apply' σ]
      exact hfollow
    · rw [hm']
      by_cases hx : x = (⇑σ)^[k + 1] t
      · subst hx
        rw [update_self]
        exact ⟨fun _ => Or.inr ⟨k + 1, le_rfl, by omega, rfl⟩, fun _ => Or.inl rfl⟩
      · rw [update_of_ne hx]
        refine or_congr_right ⟨?_, ?_⟩
        · rintro ⟨i, hi, hi', he⟩
          exact ⟨i, by omega, hi', he⟩
        · rintro ⟨i, hi, hi', he⟩
          refine ⟨i, Nat.lt_of_le_of_ne hi ?_, hi', he⟩
          rintro rfl
          exact hx he.symm

/-- **One pass of the outer loop**: from a leader on it yields the leader's
loop and marks the leader's cycle. -/
theorem follow_leader (hfits : D.OffsetsFit) (hlead : IsLeader σ t) {m : Idom D → Bool} :
    ∃ m', follow (tableOf σ) t ((tableOf σ).length + 1) (σ t)
        (PermLoop.ofList [t] (List.cons_ne_nil t [])) (tableOf (update m t true))
        = .ok (loopAt σ t, tableOf m')
      ∧ ∀ x, m' x = true ↔ m x = true ∨ SameCycle σ t x := by
  have hpos := minimalPeriod_pos σ t
  have hcard := minimalPeriod_le_card σ t
  have hone : PermLoop.ofList [t] (List.cons_ne_nil t [])
      = ⟨List.iterate σ t 1, List.cons_ne_nil _ _⟩ :=
    PermLoop.ext (PermLoop.reroll_of_head_le (by simp))
  rw [hone, length_tableOf]
  obtain ⟨m', hfollow, hm'⟩ := follow_tableOf hfits hlead (minimalPeriod σ t - 1) 0 (D.card + 1)
    (update m t true) (List.cons_ne_nil _ _) (by omega) (by omega)
  refine ⟨m', hfollow, fun x => ?_⟩
  rw [hm', ← mem_cycle, cycle, List.mem_iterate]
  by_cases hx : x = t
  · subst hx
    rw [update_self]
    exact ⟨fun _ => Or.inr ⟨0, hpos, rfl⟩, fun _ => Or.inl rfl⟩
  · rw [update_of_ne hx]
    refine or_congr_right ⟨?_, ?_⟩
    · rintro ⟨i, -, hi, rfl⟩
      exact ⟨i, hi, rfl⟩
    · rintro ⟨i, hi, rfl⟩
      refine ⟨i, Nat.one_le_iff_ne_zero.mpr ?_, hi, rfl⟩
      rintro rfl
      exact hx rfl

/-! ## The scan for unmarked elements -/

/-- **The invariant of the scan.** The marked elements are those whose cycle
has an element before position `i`. -/
def MarkedBefore (σ : Perm (Idom D)) (i : ℕ) (m : Idom D → Bool) : Prop :=
  ∀ x, m x = true ↔ ∃ y ∈ D.elems.take i, SameCycle σ y x

/-- Before the first position nothing is marked. -/
theorem markedBefore_zero (σ : Perm (Idom D)) : MarkedBefore σ 0 (fun _ => false) := by
  intro x
  simp

/-- The elements before, at and after a position. -/
theorem elems_split {i : ℕ} (hi : i < D.elems.length) :
    D.elems = D.elems.take i ++ D.elems[i] :: D.elems.drop (i + 1) := by
  rw [← List.drop_eq_getElem_cons hi, List.take_append_drop]

/-- Marking the cycle of the element at a position brings the scan past
it. -/
theorem MarkedBefore.succ {i : ℕ} {m m' : Idom D → Bool} (h : MarkedBefore σ i m)
    (hi : i < D.elems.length) (hm' : ∀ x, m' x = true ↔ m x = true ∨ SameCycle σ D.elems[i] x) :
    MarkedBefore σ (i + 1) m' := by
  intro x
  rw [hm', h x, List.take_succ_eq_append_getElem hi]
  simp only [List.mem_append, List.mem_singleton]
  constructor
  · rintro (⟨y, hy, hyx⟩ | hx)
    · exact ⟨y, Or.inl hy, hyx⟩
    · exact ⟨_, Or.inr rfl, hx⟩
  · rintro ⟨y, hy | rfl, hyx⟩
    · exact Or.inl ⟨y, hy, hyx⟩
    · exact Or.inr hyx

/-- A marked element leads no cycle, and the scan passes it. -/
theorem MarkedBefore.skip {i : ℕ} {m : Idom D → Bool} (h : MarkedBefore σ i m)
    (hi : i < D.elems.length) (hm : m D.elems[i] = true) :
    ¬ IsLeader σ D.elems[i] ∧ MarkedBefore σ (i + 1) m := by
  obtain ⟨y, hy, hyx⟩ := (h _).mp hm
  have hsorted := D.pairwise_elems
  rw [elems_split hi] at hsorted
  refine ⟨not_isLeader_of_sameCycle hsorted hy hyx, h.succ hi (fun x => ⟨Or.inl, ?_⟩)⟩
  rintro (hx | hx)
  · exact hx
  · exact (h x).mpr ⟨y, hy, hyx.trans hx⟩

/-- An unmarked element leads its cycle. -/
theorem MarkedBefore.isLeader {i : ℕ} {m : Idom D → Bool} (h : MarkedBefore σ i m)
    (hi : i < D.elems.length) (hm : m D.elems[i] = false) : IsLeader σ D.elems[i] := by
  have hsorted := D.pairwise_elems
  have hall : ∀ x : Idom D, x ∈ D.elems := mem_elems
  rw [elems_split hi] at hsorted
  refine isLeader_of_forall_not hsorted (by rwa [← elems_split hi]) (fun y hy hyx => ?_)
  rw [(h _).mpr ⟨y, hy, hyx⟩] at hm
  cases hm

/-- The leaders from a position on. -/
theorem leaders_drop {i : ℕ} (hi : i < D.elems.length) :
    leaders σ (D.elems.drop i)
      = leaders σ [D.elems[i]] ++ leaders σ (D.elems.drop (i + 1)) := by
  unfold leaders
  rw [← List.filter_append, List.singleton_append, ← List.drop_eq_getElem_cons hi]

/-- **`std::find` for the next mark** ends at an unmarked element or at the
end, and skips no leader. -/
theorem findFalse_tableOf {m : Idom D → Bool} (n i : ℕ) (hn : i + n = D.elems.length)
    (h : MarkedBefore σ i m) :
    ∃ j, findFalse (tableOf m) i = j ∧ i ≤ j ∧ j ≤ D.elems.length ∧ MarkedBefore σ j m
      ∧ (∀ hj : j < D.elems.length, m D.elems[j] = false)
      ∧ leaders σ (D.elems.drop j) = leaders σ (D.elems.drop i) := by
  induction n generalizing i with
  | zero =>
    refine ⟨i, ?_, le_rfl, hn.le, h, fun hj => absurd hj (by omega), rfl⟩
    unfold findFalse tableOf
    rw [List.drop_of_length_le (by simpa using hn.ge), List.findIdx_nil, Nat.add_zero]
  | succ n ih =>
    have hi : i < D.elems.length := by omega
    have hdrop : (tableOf m).drop i = m D.elems[i] :: (tableOf m).drop (i + 1) := by
      unfold tableOf
      rw [List.drop_eq_getElem_cons (by simpa using hi), List.getElem_map]
    cases hm : m D.elems[i] with
    | false =>
      refine ⟨i, ?_, le_rfl, hi.le, h, fun _ => hm, rfl⟩
      unfold findFalse
      rw [hdrop, hm, List.findIdx_cons]
      rfl
    | true =>
      obtain ⟨hnot, hsucc⟩ := h.skip hi hm
      obtain ⟨j, hj, hij, hjn, hmark, hfalse, hlead⟩ := ih (i + 1) (by omega) hsucc
      refine ⟨j, ?_, by omega, hjn, hmark, hfalse, ?_⟩
      · rw [← hj]
        unfold findFalse
        rw [hdrop, hm, List.findIdx_cons]
        simp only [Bool.not_true, cond_false]
        omega
      · rw [hlead, leaders_drop hi]
        simp [leaders, hnot]

/-- **The outer loop from an unmarked element on** yields the loops of the
leaders from there on. -/
theorem createLoopsFrom_tableOf (hfits : D.OffsetsFit) (fuel i : ℕ) {m : Idom D → Bool}
    (hi : i ≤ D.elems.length) (hfuel : D.elems.length < fuel + i) (h : MarkedBefore σ i m)
    (hm : ∀ hj : i < D.elems.length, m D.elems[i] = false) :
    createLoopsFrom (tableOf σ) fuel i (tableOf m)
      = .ok ((leaders σ (D.elems.drop i)).map (loopAt σ)) := by
  induction fuel generalizing i m with
  | zero => exact absurd hi (by omega)
  | succ fuel ih =>
    rcases Nat.lt_or_eq_of_le hi with hlt | rfl
    · have hlead := h.isLeader hlt (hm hlt)
      have hne : i ≠ (tableOf m).length := by
        rw [length_tableOf, ← length_elems]
        exact hlt.ne
      obtain ⟨m', hfollow, hm'⟩ := follow_leader hfits hlead (m := m)
      obtain ⟨j, hj, hij, hjn, hmark, hfalse, hleaders⟩ :=
        findFalse_tableOf (D.elems.length - (i + 1)) (i + 1) (by omega) (h.succ hlt hm')
      have hread := readAt_tableOf σ D.elems[i]
      have hwrite := writeAt_tableOf m D.elems[i] true
      rw [pos_getElem] at hread hwrite
      rw [createLoopsFrom, if_neg hne, Idom.ofOffset_of_fits hfits hlt, ok_bind, hwrite, ok_bind,
        hread, ok_bind]
      dsimp only
      rw [hfollow, ok_bind]
      simp only [hj]
      rw [ih j hjn (by omega) hmark hfalse, hleaders, leaders_drop hlt]
      simp [leaders, hlead]
    · rw [createLoopsFrom, if_pos (by simp), List.drop_length]
      rfl

/-- **Reading off the loops of a permutation** yields the loops of its
leaders, in increasing order. -/
theorem createLoops_tableOf (hfits : D.OffsetsFit) (σ : Perm (Idom D)) :
    createLoops (tableOf σ) = .ok ((leaders σ D.elems).map (loopAt σ)) := by
  have hmarks : List.replicate (tableOf σ).length false = tableOf (fun _ : Idom D => false) := by
    unfold tableOf
    rw [List.map_const', List.length_map]
  unfold createLoops
  rw [hmarks, createLoopsFrom_tableOf hfits _ 0 (Nat.zero_le _) (by simp)
    (markedBefore_zero σ) (fun _ => rfl), List.drop_zero]

/-- The size of the table, where it fits: the rest of the simplification
fills in as many elements as the domain has. -/
theorem simplifyLoops_of_fits (hfits : D.CountFits) (hle : D.start ≤ D.fin)
    (loops : List (PermLoop D)) :
    simplifyLoops loops = (do
      let table ← Idom.iotaFrom D (List.replicate D.card ⟨D.start, le_rfl, hle⟩) D.start
      let table ← applyAll loops.reverse table
      createLoops table) := by
  have hcard : (D.fin - D.start + 1).toNat = D.card := rfl
  have hconv : IntType.sizeT.convert (D.fin - D.start + 1) = D.fin - D.start + 1 := by
    refine IntType.convert_of_inRange ?_ (le_trans hfits D.base.promote.hi_le_sizeT)
    simp only [IntType.lo, IntType.sizeT, Bool.false_eq_true, if_false]
    omega
  unfold simplifyLoops
  rw [Idom.extent_of_fits hfits hle, ok_bind,
    Idom.ofBase_val (⟨D.start, le_rfl, hle⟩ : Idom D), ok_bind]
  simp only [hconv, hcard]

/-- **Simplifying a sequence of loops** yields the cycles of the
permutation the sequence stands for. -/
theorem simplifyLoops_eq (hfits : D.CountFits) (hincr : D.IncrFits) (hlt : D.start < D.fin)
    {loops : List (PermLoop D)} (h : ∀ l ∈ loops, l.loop.Nodup) :
    simplifyLoops loops
      = .ok ((leaders (composed loops) D.elems).map (loopAt (composed loops))) := by
  have hiota := iotaFrom_of_fits hincr
    (List.replicate D.card (⟨D.start, le_rfl, hlt.le⟩ : Idom D)) (i := 0) (by simp)
  rw [Nat.cast_zero, add_zero, List.drop_zero] at hiota
  rw [simplifyLoops_of_fits hfits hlt.le, hiota, ok_bind,
    applyAll_reverse hfits.tableFits hlt h, ok_bind,
    createLoops_tableOf hfits.offsetsFit]

end Permutations
