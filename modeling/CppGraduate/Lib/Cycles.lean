import Mathlib.Data.List.Iterate
import Mathlib.Data.Set.Finite.Lemmas
import Mathlib.Dynamics.PeriodicPts.Lemmas
import Mathlib.GroupTheory.Perm.Cycle.Basic
import Mathlib.GroupTheory.Perm.Finite
import Mathlib.GroupTheory.Perm.List

/-!
# The cycles of a permutation, smallest elements first

A permutation `σ` of a finite linear order falls into cycles. Each cycle has
one smallest element – its leader – and writing every cycle from its leader
on, the leaders in a fixed order, gives one list of lists for each
permutation: its canonical cycle notation, fixed points included.

The module says what that notation is and what can be read off it: which
element a cycle holds, that cycles of different leaders are disjoint, that
applying all of them applies `σ`, that the notation of `σ⁻¹` has the same
leaders with the rest of every cycle reversed, and how a scan through the
elements in increasing order meets the leaders: they are the elements no
earlier element shares a cycle with.
-/

namespace Cycles

open Equiv Equiv.Perm Function

variable {α : Type} {σ : Perm α} {s t x y : α}

/-! ## One cycle, written from a given element on -/

/-- The cycle of `t`, written from `t` on: `t, σ t, σ (σ t), …` until the
next would be `t` again. -/
noncomputable def cycle (σ : Perm α) (t : α) : List α :=
  List.iterate σ t (minimalPeriod σ t)

/-- The identity's cycles are single elements. -/
theorem cycle_one (t : α) : cycle 1 t = [t] := by
  have h : minimalPeriod (⇑(1 : Perm α)) t = 1 :=
    minimalPeriod_eq_one_iff_isFixedPt.mpr rfl
  rw [cycle, h]
  rfl

/-- A permutation and its inverse come back to `t` after the same number
of steps. -/
theorem minimalPeriod_inv (σ : Perm α) (t : α) :
    minimalPeriod ⇑σ⁻¹ t = minimalPeriod σ t := by
  refine minimalPeriod_eq_minimalPeriod_iff.mpr (fun n => ?_)
  have h : (⇑σ⁻¹)^[n] = ⇑(σ ^ n)⁻¹ := by rw [← inv_pow, coe_pow]
  rw [IsPeriodicPt, IsPeriodicPt, IsFixedPt, IsFixedPt, h, ← coe_pow, inv_eq_iff_eq, eq_comm]

/-- No element occurs twice in a cycle. -/
theorem nodup_cycle (σ : Perm α) (t : α) : (cycle σ t).Nodup := by
  refine List.nodup_iff_injective_getElem.mpr (fun i j hij => Fin.ext ?_)
  have hi : (i : ℕ) < minimalPeriod σ t := by simpa [cycle] using i.isLt
  have hj : (j : ℕ) < minimalPeriod σ t := by simpa [cycle] using j.isLt
  simp only [cycle, List.getElem_iterate] at hij
  exact iterate_injOn_Iio_minimalPeriod hi hj hij

/-- **A list that a permutation walks around is a cycle of it.** -/
theorem cycle_head [DecidableEq α] {l : List α} (hl : l.Nodup) (ne : l ≠ [])
    (h : ∀ x ∈ l, σ x = l.formPerm x) : cycle σ (l.head ne) = l := by
  have hpos : 0 < l.length := List.length_pos_iff.mpr ne
  have hiter : ∀ i, (⇑σ)^[i] (l.head ne) = l.get ⟨i % l.length, Nat.mod_lt _ hpos⟩ := by
    intro i
    rw [List.get_eq_getElem]
    induction i with
    | zero =>
      simp only [iterate_zero, id_eq, Nat.zero_mod]
      exact List.head_eq_getElem ne
    | succ i ih =>
      rw [iterate_succ_apply', ih, h _ (List.getElem_mem _), List.formPerm_apply_getElem l hl]
      simp only [Nat.mod_add_mod]
  have hback : IsPeriodicPt σ l.length (l.head ne) := by
    have := hiter l.length
    simp only [List.get_eq_getElem, Nat.mod_self] at this
    exact this.trans (List.head_eq_getElem ne).symm
  have hperiod : minimalPeriod σ (l.head ne) = l.length := by
    refine (hback.minimalPeriod_le hpos).antisymm (not_lt.mp fun hlt => ?_)
    have := hiter (minimalPeriod σ (l.head ne))
    simp only [iterate_minimalPeriod, List.get_eq_getElem, Nat.mod_eq_of_lt hlt] at this
    have hzero := hl.getElem_inj_iff.mp ((List.head_eq_getElem ne).symm.trans this)
    exact absurd hzero (hback.minimalPeriod_pos hpos).ne
  refine List.ext_getElem (by rw [cycle, List.length_iterate, hperiod]) (fun i hi hi' => ?_)
  simp only [cycle, List.getElem_iterate, hiter, List.get_eq_getElem, Nat.mod_eq_of_lt hi']

section Finite

variable [Finite α]

/-- Every element of a finite type comes back to itself. -/
theorem minimalPeriod_pos (σ : Perm α) (t : α) : 0 < minimalPeriod σ t :=
  minimalPeriod_pos_of_mem_periodicPts (σ.injective.mem_periodicPts t)

/-- A cycle begins with the element it is written from. -/
theorem cycle_eq_cons (σ : Perm α) (t : α) :
    cycle σ t = t :: List.iterate σ (σ t) (minimalPeriod σ t - 1) := by
  obtain ⟨k, hk⟩ := Nat.exists_eq_succ_of_ne_zero (minimalPeriod_pos σ t).ne'
  rw [cycle, hk]
  rfl

/-- A cycle is not empty. -/
theorem cycle_ne_nil (σ : Perm α) (t : α) : cycle σ t ≠ [] := by
  rw [cycle_eq_cons]
  exact List.cons_ne_nil _ _

/-- The first element of a cycle is the one it is written from. -/
@[simp]
theorem head_cycle (σ : Perm α) (t : α) (h : cycle σ t ≠ []) : (cycle σ t).head h = t := by
  simp only [cycle_eq_cons, List.head_cons]

/-- **What a cycle holds**: the elements that share it with `t`. -/
theorem mem_cycle : x ∈ cycle σ t ↔ SameCycle σ t x := by
  rw [cycle, List.mem_iterate]
  constructor
  · rintro ⟨n, -, rfl⟩
    exact ⟨n, by rw [zpow_natCast, coe_pow]⟩
  · intro h
    obtain ⟨n, hn⟩ := h.exists_nat_pow_eq
    refine ⟨n % minimalPeriod σ t, Nat.mod_lt _ (minimalPeriod_pos σ t), ?_⟩
    rw [iterate_mod_minimalPeriod_eq, ← coe_pow, hn]

/-- **The cycle of the inverse** begins with the same element and has the
others in reverse. -/
theorem cycle_inv (σ : Perm α) (t : α) :
    cycle σ⁻¹ t = t :: (cycle σ t).tail.reverse := by
  rw [cycle_eq_cons σ⁻¹, cycle_eq_cons σ, minimalPeriod_inv, List.tail_cons]
  congr 1
  refine List.ext_getElem (by simp) (fun i hi hi' => ?_)
  rw [List.length_iterate] at hi
  rw [List.getElem_iterate, List.getElem_reverse, List.getElem_iterate, List.length_iterate]
  -- both sides are reached from `t`: the left going back, the right going on
  have hpow : (σ ^ (i + 1)) ((σ ^ (minimalPeriod σ t - (i + 1))) t) = t := by
    rw [← Perm.mul_apply, ← pow_add, Nat.add_sub_cancel' (by omega), coe_pow,
      iterate_minimalPeriod]
  have hleft : (⇑σ⁻¹)^[i] (σ⁻¹ t) = (σ ^ (i + 1))⁻¹ t := by
    rw [← iterate_succ_apply, ← coe_pow, inv_pow]
  have hright : (⇑σ)^[minimalPeriod σ t - 1 - 1 - i] (σ t)
      = (σ ^ (minimalPeriod σ t - (i + 1))) t := by
    rw [← iterate_succ_apply, ← coe_pow]
    congr 2
    omega
  rw [hleft, hright, Perm.inv_eq_iff_eq]
  exact hpow.symm

end Finite

/-! ## The smallest element of a cycle -/

section Leaders

variable [LinearOrder α]

/-- `t` leads its cycle: nothing in it is smaller. -/
def IsLeader (σ : Perm α) (t : α) : Prop :=
  ∀ x, SameCycle σ t x → t ≤ x

/-- Two leaders of one cycle are equal. -/
theorem IsLeader.eq (hs : IsLeader σ s) (ht : IsLeader σ t) (h : SameCycle σ s t) : s = t :=
  le_antisymm (hs t h) (ht s h.symm)

/-- Every element's cycle has a leader. -/
theorem exists_isLeader [Finite α] (σ : Perm α) (x : α) : ∃ t, IsLeader σ t ∧ SameCycle σ t x := by
  obtain ⟨t, ht, hmin⟩ := Set.exists_min_image {y | SameCycle σ x y} id
    (Set.toFinite _) ⟨x, SameCycle.refl σ x⟩
  exact ⟨t, fun y hy => hmin y (ht.trans hy), ht.symm⟩

/-- The leaders of the inverse are the leaders. -/
theorem isLeader_inv : IsLeader σ⁻¹ t ↔ IsLeader σ t := by
  simp only [IsLeader, sameCycle_inv]

open Classical in
/-- The leaders among the elements of a list, in its order. -/
noncomputable def leaders (σ : Perm α) (xs : List α) : List α :=
  xs.filter (fun t => IsLeader σ t)

/-- A leader of the list is an element of it that leads its cycle. -/
theorem mem_leaders {xs : List α} : t ∈ leaders σ xs ↔ t ∈ xs ∧ IsLeader σ t := by
  simp [leaders]

/-- A permutation and its inverse have the same leaders. -/
theorem leaders_inv (σ : Perm α) (xs : List α) : leaders σ⁻¹ xs = leaders σ xs := by
  unfold leaders
  congr 1
  ext t
  rw [isLeader_inv]

/-- Every element leads its cycle of the identity. -/
theorem isLeader_one (t : α) : IsLeader 1 t := by
  rintro x ⟨n, hn⟩
  rw [one_zpow, Perm.one_apply] at hn
  exact hn.le

/-- All elements are leaders of the identity. -/
theorem leaders_one (xs : List α) : leaders 1 xs = xs := by
  unfold leaders
  refine List.filter_eq_self.mpr (fun t _ => ?_)
  simp only [isLeader_one, decide_true]

/-- Leaders of a list without repetitions lead different cycles. -/
theorem pairwise_leaders {xs : List α} (h : xs.Nodup) :
    (leaders σ xs).Pairwise (fun s t => ¬ SameCycle σ s t) := by
  refine (List.Pairwise.filter _ h).imp_of_mem (fun {s t} hs ht hne hst => hne ?_)
  exact (mem_leaders.mp hs).2.eq (mem_leaders.mp ht).2 hst

/-! ## A scan through the elements in increasing order -/

section Scan

variable {pre post : List α}

/-- **What the scan meets.** In an increasing enumeration of all elements,
one that shares its cycle with no earlier one leads its cycle. -/
theorem isLeader_of_forall_not (hsorted : (pre ++ t :: post).Pairwise (· < ·))
    (hall : ∀ x, x ∈ pre ++ t :: post) (h : ∀ y ∈ pre, ¬ SameCycle σ y t) :
    IsLeader σ t := by
  intro x hx
  rcases List.mem_append.mp (hall x) with hmem | hmem
  · exact absurd hx.symm (h x hmem)
  · rcases List.mem_cons.mp hmem with rfl | hmem
    · exact le_rfl
    · exact (List.rel_of_pairwise_cons (List.pairwise_append.mp hsorted).2.1 hmem).le

/-- What the scan skips: an element an earlier one shares the cycle of
leads no cycle. -/
theorem not_isLeader_of_sameCycle (hsorted : (pre ++ t :: post).Pairwise (· < ·))
    (hy : y ∈ pre) (h : SameCycle σ y t) : ¬ IsLeader σ t := fun hlead =>
  absurd (hlead y h.symm)
    (not_le.mpr ((List.pairwise_append.mp hsorted).2.2 y hy t List.mem_cons_self))

end Scan

end Leaders

/-! ## Applying all cycles, one after another -/

open Classical in
/-- Stepping along the cycle of `t`: what it does to its own elements. -/
noncomputable def along (σ : Perm α) (t y : α) : α :=
  if SameCycle σ t y then σ y else y

/-- **One cycle acts.** Going through different cycles in any order, an
element is moved once, by its own. -/
theorem foldl_along {ts : List α} (h : ts.Pairwise (fun s t => ¬ SameCycle σ s t))
    (hx : ∃ t ∈ ts, SameCycle σ t x) : ts.foldl (fun y t => along σ t y) x = σ x := by
  have hskip : ∀ (us : List α) (y : α), (∀ u ∈ us, ¬ SameCycle σ u y) →
      us.foldl (fun y t => along σ t y) y = y := by
    intro us y hus
    induction us with
    | nil => rfl
    | cons u us ih =>
      rw [List.foldl_cons, along, if_neg (hus u List.mem_cons_self)]
      exact ih (fun v hv => hus v (List.mem_cons_of_mem u hv))
  induction ts with
  | nil => simp at hx
  | cons t ts ih =>
    obtain ⟨htts, hts⟩ := List.pairwise_cons.mp h
    rw [List.foldl_cons, along]
    by_cases htx : SameCycle σ t x
    · rw [if_pos htx]
      refine hskip ts (σ x) (fun u hu hux => htts u hu ?_)
      exact htx.trans (sameCycle_apply_right.mp hux).symm
    · rw [if_neg htx]
      obtain ⟨u, hu, hux⟩ := hx
      rcases List.mem_cons.mp hu with rfl | hu
      · exact absurd hux htx
      · exact ih hts ⟨u, hu, hux⟩

/-- Walking once around a cycle list is stepping along the cycle. -/
theorem formPerm_cycle [Finite α] [DecidableEq α] (σ : Perm α) (t y : α) :
    (cycle σ t).formPerm y = along σ t y := by
  unfold along
  by_cases h : SameCycle σ t y
  · rw [if_pos h]
    obtain ⟨i, hi, rfl⟩ := List.getElem_of_mem (mem_cycle.mpr h)
    rw [List.formPerm_apply_getElem _ (nodup_cycle σ t)]
    simp only [cycle, List.getElem_iterate, List.length_iterate]
    rw [iterate_mod_minimalPeriod_eq, iterate_succ_apply']
  · rw [if_neg h]
    exact List.formPerm_apply_of_notMem (fun hmem => h (mem_cycle.mp hmem))

end Cycles
