import CppGraduate.Permutations.CreateLoops
import Mathlib.Data.List.Sort

/-!
# Permutations

A `Permutation` is a vector of loops. Its constructors, `lmul` and `rmul`
simplify a sequence of loops and sort the result by decreasing smallest
element; `inverse` turns every loop around where it stands.

The meaning of all of them is one function, `canon`: the loops of a
permutation `σ` of the domain, each from its smallest element on, the
smallest elements decreasing. The default constructor builds `canon 1`, the
others `canon` of what their loops compose to, products and inverses are
those of the group, and applying `canon σ` is applying `σ`.
-/

namespace Permutations

open Cxx Dom Cycles Equiv Equiv.Perm

variable {D : Dom} {σ τ : Perm (Idom D)}

/-- `Permutation<Idom<..>>` -/
structure Permutation (D : Dom) where
  /-- `loops_` -/
  loops : List (PermLoop D)
deriving DecidableEq

/-- The loop `for (auto x = T::start; x <= T::fin; ++x)`, with a bound on
the number of passes. -/
def forDomain {β : Type} (D : Dom) (body : β → ℤ → Except Fault β) :
    ℕ → ℤ → β → Except Fault β
  | 0, _, _ => .error .outOfFuel
  | fuel + 1, x, b =>
    if x ≤ D.fin then do
      let b ← body b x
      let x ← defined (D.base.incr x)
      forDomain D body fuel x b
    else .ok b

namespace Permutation

/-- `sortloops()`: by decreasing smallest element -/
def sortloops (loops : List (PermLoop D)) : List (PermLoop D) :=
  loops.mergeSort (fun lhs rhs => rhs.smallest ≤ lhs.smallest)

theorem singleton_ne_nil (x : Idom D) : [x] ≠ [] := List.cons_ne_nil x []

/-- `Permutation()` -/
def default (D : Dom) : Except Fault (Permutation D) := do
  let loops ← forDomain D (fun loops x => do
    let x ← Idom.ofBase D x
    return loops ++ [PermLoop.ofList [x] (singleton_ne_nil x)]) (D.card + 1) D.start []
  return ⟨sortloops loops⟩

/-- `Permutation(ibeg, ifin)` -/
def ofLoops (loops : List (PermLoop D)) : Except Fault (Permutation D) := do
  let loops ← simplifyLoops loops
  return ⟨sortloops loops⟩

/-- `lmul(input)`, for another object `input` -/
def lmul (p input : Permutation D) : Except Fault (Permutation D) := do
  let outloops ← simplifyLoops (input.loops ++ p.loops)
  return ⟨sortloops outloops⟩

/-- `rmul(input)`, for another object `input` -/
def rmul (p input : Permutation D) : Except Fault (Permutation D) := do
  let outloops ← simplifyLoops (p.loops ++ input.loops)
  return ⟨sortloops outloops⟩

/-- `inverse()` -/
def inverse (p : Permutation D) : Permutation D := ⟨p.loops.map PermLoop.inverse⟩

/-- `product(lhs, rhs)` -/
def product (lhs rhs : Permutation D) : Except Fault (Permutation D) := lhs.rmul rhs

/-- `invert(lhs)` -/
def invert (lhs : Permutation D) : Permutation D := lhs.inverse

/-- `apply(elem)` -/
def apply (p : Permutation D) (elem : Idom D) : Idom D :=
  p.loops.foldl (fun res ploop => ploop.apply res) elem

/-- `contains(elem)` -/
def contains (p : Permutation D) (elem : Idom D) : Bool :=
  p.loops.any (fun pl => pl.contains elem)

/-- `equals(rhs)` -/
def equals (p rhs : Permutation D) : Bool := rhs.loops == p.loops

/-- The comparison of neighbours in `check()` -/
def checkOrder : List (PermLoop D) → Except Fault Unit
  | l :: m :: rest =>
    if l.smallest = m.smallest then
      .error (.runtimeError "Loops with equal elements are here")
    else if l.smallest < m.smallest then .error (.runtimeError "Canonical form broken")
    else checkOrder (m :: rest)
  | _ => .ok ()

/-- `check()` -/
def check (p : Permutation D) : Except Fault Unit :=
  if D.fin ≤ D.start then .error (.runtimeError "Domain error")
  else if p.loops.isEmpty then .error (.runtimeError "Empty permutation")
  else do
    forDomain D (fun _ x => do
      let x ← Idom.ofBase D x
      if p.contains x then return ()
      else .error (.runtimeError "Every domain element shall be covered")) (D.card + 1) D.start ()
    checkOrder p.loops

end Permutation

/-! ## The loop over the domain -/

/-- **The loop over the domain** passes through the elements in order, when
the largest value of the base type lies beyond them. -/
theorem forDomain_eq {β : Type} (hhi : D.fin < D.base.hi) (body : β → ℤ → Except Fault β)
    (step : β → Idom D → β) (hbody : ∀ b (x : Idom D), body b x.val = .ok (step b x))
    (fuel i : ℕ) (b : β) (hi : i ≤ D.elems.length) (hfuel : D.elems.length < fuel + i) :
    forDomain D body fuel (D.start + i) b = .ok ((D.elems.drop i).foldl step b) := by
  induction fuel generalizing i b with
  | zero => exact absurd hi (by omega)
  | succ fuel ih =>
    rcases Nat.lt_or_eq_of_le hi with hlt | rfl
    · have hval := val_getElem_elems D i hlt
      have hx := (D.elems[i]).property
      rw [hval] at hx
      have hlo := D.start_mem.1.trans hx.1
      rw [forDomain, if_pos hx.2, ← hval, hbody, ok_bind, hval,
        IntType.incr_of_lt hlo (hx.2.trans_lt hhi)]
      show forDomain D body fuel (D.start + i + 1) _ = _
      rw [add_assoc, ← Nat.cast_succ, ih (i + 1) _ hlt (by omega), List.drop_eq_getElem_cons hlt,
        List.foldl_cons]
    · rw [forDomain, if_neg, List.drop_length]
      · rfl
      · rw [length_elems, card]
        omega

/-! ## The canonical permutation -/

/-- **The canonical form** of a permutation of the domain. -/
noncomputable def canon (σ : Perm (Idom D)) : Permutation D :=
  ⟨(leaders σ D.elems).reverse.map (loopAt σ)⟩

/-- Two leaders of a permutation lead different cycles, in canonical order,
too. -/
theorem pairwise_leaders_reverse (σ : Perm (Idom D)) :
    (leaders σ D.elems).reverse.Pairwise (fun s t => ¬ SameCycle σ s t) :=
  List.pairwise_reverse.mpr
    ((pairwise_leaders D.nodup_elems).imp (fun hst hts => hst hts.symm))

/-- The leaders decrease in canonical order. -/
theorem sorted_leaders_reverse (σ : Perm (Idom D)) :
    (leaders σ D.elems).reverse.Pairwise (fun s t => t < s) :=
  List.pairwise_reverse.mpr (D.pairwise_elems.filter _)

/-- Every element is in the cycle of a leader. -/
theorem exists_leader (σ : Perm (Idom D)) (x : Idom D) :
    ∃ t ∈ (leaders σ D.elems).reverse, SameCycle σ t x := by
  obtain ⟨t, hlead, htx⟩ := exists_isLeader σ x
  exact ⟨t, List.mem_reverse.mpr (mem_leaders.mpr ⟨mem_elems t, hlead⟩), htx⟩

/-- The loops of a canonical permutation have distinct elements. -/
theorem nodup_of_mem_canon (σ : Perm (Idom D)) : ∀ l ∈ (canon σ).loops, l.loop.Nodup := by
  intro l hl
  obtain ⟨t, -, rfl⟩ := List.mem_map.mp hl
  exact nodup_loopAt σ t

namespace Permutation

/-- **Sorting puts the loops of a permutation into canonical order.** -/
theorem sortloops_loops (σ : Perm (Idom D)) :
    sortloops ((leaders σ D.elems).map (loopAt σ)) = (canon σ).loops := by
  have hperm : (sortloops ((leaders σ D.elems).map (loopAt σ))).Perm (canon σ).loops :=
    (List.mergeSort_perm _ _).trans ((List.reverse_perm _).symm.map _)
  have hanti : ∀ l m : PermLoop D, l ∈ sortloops ((leaders σ D.elems).map (loopAt σ)) →
      m ∈ (canon σ).loops → m.smallest ≤ l.smallest → l.smallest ≤ m.smallest → l = m := by
    intro l m hl hm hml hlm
    obtain ⟨s, -, rfl⟩ := List.mem_map.mp (hperm.mem_iff.mp hl)
    obtain ⟨t, -, rfl⟩ := List.mem_map.mp hm
    rw [smallest_loopAt, smallest_loopAt] at hlm hml
    rw [le_antisymm hlm hml]
  have hsorted : (sortloops ((leaders σ D.elems).map (loopAt σ))).Pairwise
      (fun l m => m.smallest ≤ l.smallest) := by
    refine (@List.pairwise_mergeSort _ (fun l m : PermLoop D => m.smallest ≤ l.smallest)
      ?_ ?_ _).imp (fun h => by simpa using h)
    · intro l m n hlm hmn
      exact decide_eq_true (le_trans (of_decide_eq_true hmn) (of_decide_eq_true hlm))
    · intro l m
      simpa using le_total m.smallest l.smallest
  have hcanon : (canon σ).loops.Pairwise (fun l m => m.smallest ≤ l.smallest) := by
    refine List.pairwise_map.mpr ((sorted_leaders_reverse σ).imp (fun h => ?_))
    rw [smallest_loopAt, smallest_loopAt]
    exact h.le
  exact hperm.eq_of_pairwise hanti hsorted hcanon

/-! ## What the operations do to canonical permutations -/

/-- **Applying the canonical form of `σ` is applying `σ`.** -/
theorem canon_apply (σ : Perm (Idom D)) (x : Idom D) : (canon σ).apply x = σ x := by
  have hstep : ∀ y t, (loopAt σ t).apply y = along σ t y := by
    intro y t
    rw [PermLoop.apply_eq_perm (nodup_loopAt σ t)]
    exact formPerm_cycle σ t y
  unfold apply canon
  simp only [List.foldl_map, hstep]
  exact foldl_along (pairwise_leaders_reverse σ) (exists_leader σ x)

/-- Different permutations have different canonical forms. -/
theorem canon_inj (h : canon σ = canon τ) : σ = τ := by
  ext1 x
  rw [← canon_apply σ, ← canon_apply τ, h]

/-- The loops of a canonical form compose to its permutation. -/
theorem composed_canon (σ : Perm (Idom D)) : composed (canon σ).loops = σ := by
  ext1 x
  rw [← foldl_apply_eq (nodup_of_mem_canon σ)]
  exact canon_apply σ x

/-- **Constructing from loops** yields the canonical form of what the loops
compose to. -/
theorem ofLoops_eq (hfits : D.CountFits) (hincr : D.IncrFits) (hlt : D.start < D.fin)
    {loops : List (PermLoop D)} (h : ∀ l ∈ loops, l.loop.Nodup) :
    ofLoops loops = .ok (canon (composed loops)) := by
  unfold ofLoops
  rw [simplifyLoops_eq hfits hincr hlt h, ok_bind, sortloops_loops]
  rfl

/-- **Right multiplication**: `canon σ`, then `canon τ`. -/
theorem rmul_canon (hfits : D.CountFits) (hincr : D.IncrFits) (hlt : D.start < D.fin)
    (σ τ : Perm (Idom D)) : (canon σ).rmul (canon τ) = .ok (canon (τ * σ)) := by
  have h : ∀ l ∈ (canon σ).loops ++ (canon τ).loops, l.loop.Nodup := fun l hl =>
    (List.mem_append.mp hl).elim (nodup_of_mem_canon σ l) (nodup_of_mem_canon τ l)
  have := ofLoops_eq hfits hincr hlt h
  rwa [composed_append, composed_canon, composed_canon] at this

/-- **The inverse** of a canonical form is the canonical form of the
inverse: every loop is turned around where it stands. -/
theorem inverse_canon (σ : Perm (Idom D)) : (canon σ).inverse = canon σ⁻¹ := by
  unfold inverse canon
  rw [leaders_inv, List.map_map]
  congr 1
  exact List.map_congr_left (fun t _ => inverse_loopAt σ t)

/-- **The default permutation** is the canonical form of the identity. -/
theorem default_eq (hhi : D.fin < D.base.hi) : default D = .ok (canon 1) := by
  have hloop := forDomain_eq hhi (fun (loops : List (PermLoop D)) x => do
      let x ← Idom.ofBase D x
      return loops ++ [PermLoop.ofList [x] (List.cons_ne_nil x [])])
    (fun loops x => loops ++ [loopAt 1 x])
    (fun loops x => by rw [Idom.ofBase_val, ok_bind, ofList_singleton]; rfl)
    (D.card + 1) 0 [] (Nat.zero_le _) (by simp)
  rw [Nat.cast_zero, add_zero, List.drop_zero] at hloop
  have hsingle : ∀ (xs : List (Idom D)) (ls : List (PermLoop D)),
      xs.foldl (fun loops x => loops ++ [loopAt 1 x]) ls = ls ++ xs.map (loopAt 1) := by
    intro xs
    induction xs with
    | nil => simp
    | cons x xs ih =>
      intro ls
      rw [List.foldl_cons, ih, List.map_cons, List.append_assoc, List.singleton_append]
  unfold default
  rw [hloop, ok_bind, hsingle, List.nil_append, ← leaders_one D.elems, sortloops_loops]
  rfl

/-- The comparison is equality of the loops. -/
theorem equals_iff {p q : Permutation D} : p.equals q = true ↔ p = q := by
  obtain ⟨ls⟩ := p
  obtain ⟨ms⟩ := q
  unfold equals
  rw [beq_iff_eq, Permutation.mk.injEq, eq_comm]

end Permutation

end Permutations
