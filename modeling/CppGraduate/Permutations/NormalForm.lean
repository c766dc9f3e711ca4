import CppGraduate.Permutations.Contract

/-!
# The normal form of a loop

Loops that differ only in where they begin are equivalent; the one with its
smallest element first represents them. A loop in that form is the cycle of
its smallest element, so that it is determined by what it does and by any of
its elements.

With the checks switched on, every modification is followed by a look at the
whole loop. `add` looks at a loop that it has extended already.

**Main results**: `made_normalForm`, what constructor, `add` and `inverse`
keep and do; `allOrNothing_iff`, which calls of a checked `add` leave the
loop as it was when they throw.
-/

namespace Permutations

open Cxx Dom Cycles Equiv Equiv.Perm

variable {D : Dom}

namespace PermLoop

/-- `equals(rhs)` -/
def equals (l rhs : PermLoop D) : Bool := l.loop == rhs.loop

/-- `check()` -/
def check (l : PermLoop D) : Except Fault Unit :=
  if l.loop.isEmpty then .error (.runtimeError "PermLoop shall be non-empty")
  else if l.loop.dedup.length ≠ l.loop.length then
    .error (.runtimeError "PermLoop elements shall be unique")
  else if l.loop.min l.ne ≠ l.loop.head l.ne then
    .error (.runtimeError "Unnormalized state detected")
  else .ok ()

/-- `add(x)` with the checks: how it ends, and the loop after it -/
def addChecked (l : PermLoop D) (x : Idom D) : Except Fault Unit × PermLoop D :=
  ((l.add x).check, l.add x)

/-! ## Loops in normal form -/

/-- **The assumptions about loops**: unique elements, the smallest first. No
loop is empty. -/
structure IsNormal (l : PermLoop D) : Prop where
  /-- All elements are unique. -/
  nodup : l.loop.Nodup
  /-- The first element is the smallest one. -/
  smallest_le : ∀ x ∈ l.loop, l.smallest ≤ x

variable {l : PermLoop D} {x y : Idom D} {xs ys : List (Idom D)}

/-- The first element is one of the elements. -/
theorem smallest_mem (l : PermLoop D) : l.smallest ∈ l.loop := List.head_mem l.ne

/-- The comparison is equality of the elements. -/
theorem equals_iff {m : PermLoop D} : l.equals m = true ↔ l = m := by
  unfold equals
  rw [beq_iff_eq, PermLoop.ext_iff]

/-- Rerolling rotates. -/
theorem isRotated_ofList (ne : xs ≠ []) : (ofList xs ne).loop.IsRotated xs :=
  List.IsRotated.forall xs _

/-- **The loop of a list of distinct elements is in normal form.** -/
theorem isNormal_ofList (ne : xs ≠ []) (h : xs.Nodup) : (ofList xs ne).IsNormal where
  nodup := (isRotated_ofList ne).nodup_iff.mpr h
  smallest_le _ hx := smallest_ofList_le ne ((isRotated_ofList ne).mem_iff.mp hx)

/-- The smallest element of a loop is that of the list it was made from. -/
theorem smallest_ofList (ne : xs ≠ []) : (ofList xs ne).smallest = xs.min ne :=
  le_antisymm (smallest_ofList_le ne (List.min_mem ne))
    (List.min_le_of_mem ((isRotated_ofList ne).mem_iff.mp (smallest_mem _)))

/-- **A loop of distinct elements is the cycle of its first one.** -/
theorem eq_loopAt (h : l.loop.Nodup) : l = loopAt l.perm l.smallest :=
  PermLoop.ext (cycle_head h l.ne fun _ _ => rfl).symm

/-- **Two lists make the same loop exactly if one is the other rotated.** -/
theorem ofList_eq_iff (hx : xs ≠ []) (hy : ys ≠ []) (hxs : xs.Nodup) (hys : ys.Nodup) :
    ofList xs hx = ofList ys hy ↔ xs.IsRotated ys := by
  constructor
  · intro h
    have hrot := isRotated_ofList hx
    rw [h] at hrot
    exact hrot.symm.trans (isRotated_ofList hy)
  · intro h
    have hperm : (ofList xs hx).perm = (ofList ys hy).perm := by
      rw [perm_ofList hx hxs, perm_ofList hy hys]
      exact List.formPerm_eq_of_isRotated hxs h
    have hsmallest : (ofList xs hx).smallest = (ofList ys hy).smallest := by
      rw [smallest_ofList, smallest_ofList]
      refine le_antisymm ?_ ?_
      · exact List.min_le_of_mem (h.mem_iff.mpr (List.min_mem hy))
      · exact List.min_le_of_mem (h.mem_iff.mp (List.min_mem hx))
    rw [eq_loopAt (isNormal_ofList hx hxs).nodup, eq_loopAt (isNormal_ofList hy hys).nodup,
      hperm, hsmallest]

/-- **Lists of two elements or more that are no rotations of each other make
loops that act differently.** -/
theorem isRotated_iff_apply (hx : xs ≠ []) (hy : ys ≠ []) (hxs : xs.Nodup) (hys : ys.Nodup)
    (hlen : 2 ≤ xs.length) :
    xs.IsRotated ys ↔ ∀ x, (ofList xs hx).apply x = (ofList ys hy).apply x := by
  have happly : (∀ x, (ofList xs hx).apply x = (ofList ys hy).apply x)
      ↔ xs.formPerm = ys.formPerm := by
    rw [Equiv.ext_iff]
    refine forall_congr' fun x => ?_
    rw [apply_eq_perm (isNormal_ofList hx hxs).nodup, apply_eq_perm (isNormal_ofList hy hys).nodup,
      perm_ofList hx hxs, perm_ofList hy hys]
  rw [happly, List.formPerm_eq_formPerm_iff hxs hys]
  exact (or_iff_left fun h => absurd hlen (by omega)).symm

/-! ## add and inverse -/

/-- A list with an element put last. -/
theorem nodup_snoc : (xs ++ [x]).Nodup ↔ x ∉ xs ∧ xs.Nodup := by
  rw [← List.concat_eq_append, List.nodup_concat]

/-- Adding an element that is not in the loop keeps the normal form. -/
theorem IsNormal.add (h : l.IsNormal) (hx : x ∉ l.loop) : (l.add x).IsNormal :=
  isNormal_ofList _ (nodup_snoc.mpr ⟨hx, h.nodup⟩)

/-- **What `add` does**: the new element comes between the last one and the
first one. -/
theorem perm_add (h : l.loop.Nodup) (hx : x ∉ l.loop) :
    (l.add x).perm = l.perm * swap (l.loop.getLast l.ne) x := by
  have hsplit : l.loop ++ [x] = l.loop.dropLast ++ [l.loop.getLast l.ne, x] := by
    conv_lhs => rw [← List.dropLast_append_getLast l.ne]
    rw [List.append_assoc]
    rfl
  unfold add
  rw [perm_ofList _ (nodup_snoc.mpr ⟨hx, h⟩), hsplit,
    List.formPerm_append_pair, List.dropLast_append_getLast]
  rfl

/-- **`add` changes what the loop does at the new element and at the last
one only.** -/
theorem apply_add (h : l.loop.Nodup) (hx : x ∉ l.loop) (hyx : y ≠ x)
    (hy : y ≠ l.loop.getLast l.ne) : (l.add x).apply y = l.apply y := by
  have hadd : (l.add x).loop.Nodup :=
    (isNormal_ofList _ (nodup_snoc.mpr ⟨hx, h⟩)).nodup
  rw [apply_eq_perm hadd, apply_eq_perm h, perm_add h hx, Perm.mul_apply,
    swap_apply_of_ne_of_ne hy hyx]

/-- The elements of the inverse are the elements, the first one first. -/
theorem perm_loop_inverse (l : PermLoop D) : l.inverse.loop.Perm l.loop := by
  rw [loop_inverse]
  conv_rhs => rw [← List.cons_head_tail l.ne]
  exact (List.reverse_perm _).cons _

/-- The inverse begins with the same element. -/
theorem smallest_inverse (l : PermLoop D) : l.inverse.smallest = l.smallest := by
  unfold smallest
  simp only [loop_inverse, List.head_cons]

/-- Turning a loop around keeps the normal form. -/
theorem IsNormal.inverse (h : l.IsNormal) : l.inverse.IsNormal where
  nodup := l.perm_loop_inverse.nodup_iff.mpr h.nodup
  smallest_le x hx := by
    rw [smallest_inverse]
    exact h.smallest_le x (l.perm_loop_inverse.mem_iff.mp hx)

/-- **Turning a loop around twice** changes nothing. -/
theorem inverse_inverse (l : PermLoop D) : l.inverse.inverse = l := by
  refine PermLoop.ext ?_
  rw [loop_inverse]
  simp only [loop_inverse, List.head_cons, List.tail_cons, List.reverse_reverse]
  exact List.cons_head_tail l.ne

/-- **The inverse undoes the loop.** -/
theorem perm_inverse (h : l.loop.Nodup) : l.inverse.perm = l.perm⁻¹ := by
  have hrot : l.inverse.loop.IsRotated l.loop.reverse := by
    rw [loop_inverse]
    conv_rhs => rw [← List.cons_head_tail l.ne, List.reverse_cons]
    exact (List.isRotated_concat _ _).symm
  unfold perm
  rw [List.formPerm_eq_of_isRotated (l.perm_loop_inverse.nodup_iff.mpr h) hrot,
    List.formPerm_reverse]

/-- An element that is sent on is sent back. -/
theorem apply_inverse (h : l.loop.Nodup) (x : Idom D) : l.inverse.apply (l.apply x) = x := by
  rw [apply_eq_perm h, apply_eq_perm (l.perm_loop_inverse.nodup_iff.mpr h), perm_inverse h]
  exact Perm.inv_eq_iff_eq.mpr rfl

/-- **The loops a program can come to have**: those made from distinct
elements, and what `add` of other elements and `inverse` make of them. -/
inductive Made : PermLoop D → Prop
  /-- `PermLoop(ls)` -/
  | ofList {ls : List (Idom D)} (ne : ls ≠ []) (h : ls.Nodup) : Made (ofList ls ne)
  /-- `l.add(x)` -/
  | add {l : PermLoop D} {x : Idom D} (h : Made l) (hx : x ∉ l.loop) : Made (l.add x)
  /-- `l.inverse()` -/
  | inverse {l : PermLoop D} (h : Made l) : Made l.inverse

/-- Each of them is in normal form. -/
theorem Made.isNormal (h : l.Made) : l.IsNormal := by
  induction h with
  | ofList ne h => exact isNormal_ofList ne h
  | add _ hx ih => exact ih.add hx
  | inverse _ ih => exact ih.inverse

/-- **The normal form.** Two lists of distinct elements make equal loops
exactly if one is the other rotated, and, if they have two elements or more,
exactly if their loops do the same to every element. Constructor, `add` and
`inverse` keep the elements unique and the smallest one first; `add` changes
what the loop does at two elements only; `inverse` is an involution and
undoes the loop. -/
theorem made_normalForm (hx : xs ≠ []) (hy : ys ≠ []) (hxs : xs.Nodup) (hys : ys.Nodup)
    (hl : l.Made) :
    ((ofList xs hx).equals (ofList ys hy) = true ↔ xs.IsRotated ys)
    ∧ (2 ≤ xs.length → 2 ≤ ys.length →
      (xs.IsRotated ys ↔ ∀ x, (ofList xs hx).apply x = (ofList ys hy).apply x))
    ∧ l.IsNormal
    ∧ (∀ x ∉ l.loop, ∀ y, y ≠ x → y ≠ l.loop.getLast l.ne → (l.add x).apply y = l.apply y)
    ∧ l.inverse.inverse = l
    ∧ ∀ x, l.inverse.apply (l.apply x) = x :=
  have hnodup := hl.isNormal.nodup
  ⟨equals_iff.trans (ofList_eq_iff hx hy hxs hys),
    fun hlen _ => isRotated_iff_apply hx hy hxs hys hlen,
    hl.isNormal, fun _ hx _ hyx hy => apply_add hnodup hx hyx hy, l.inverse_inverse,
    apply_inverse hnodup⟩

/-- The loops `(1 3)` and `(3 1)` are one loop. -/
theorem made_normalForm_oneThree :
    (ofList [(⟨1, by decide⟩ : Idom oneToFour), ⟨3, by decide⟩] (List.cons_ne_nil _ _)).equals
      (ofList [⟨3, by decide⟩, ⟨1, by decide⟩] (List.cons_ne_nil _ _)) = true :=
  (made_normalForm (List.cons_ne_nil _ _) (List.cons_ne_nil _ _) (by decide) (by decide)
    (.ofList (List.cons_ne_nil ⟨1, by decide⟩ []) (List.nodup_singleton _))).1.mpr ⟨1, rfl⟩

/-! ## The checked add -/

/-- **`check` accepts the loops in normal form.** -/
theorem check_eq_ok_iff : l.check = .ok () ↔ l.IsNormal := by
  have hne : l.loop.isEmpty = false := by
    rw [← Bool.not_eq_true, List.isEmpty_iff]
    exact l.ne
  unfold check
  rw [hne, if_neg Bool.false_ne_true]
  by_cases hnodup : l.loop.Nodup
  · rw [if_neg (not_not.mpr (by rw [hnodup.dedup]))]
    by_cases hmin : l.loop.min l.ne = l.loop.head l.ne
    · rw [if_neg (not_not.mpr hmin)]
      refine iff_of_true rfl ⟨hnodup, fun x hx => ?_⟩
      unfold smallest
      rw [← hmin]
      exact List.min_le_of_mem hx
    · rw [if_pos hmin]
      refine iff_of_false nofun fun h => hmin ?_
      exact le_antisymm (List.min_le_of_mem l.smallest_mem) (h.smallest_le _ (List.min_mem l.ne))
  · rw [if_pos fun he => hnodup (List.dedup_eq_self.mp
      ((List.dedup_sublist l.loop).eq_of_length he))]
    exact iff_of_false nofun fun h => hnodup h.nodup

/-- A checked `add` succeeds and leaves a loop in normal form, or throws and
leaves the loop as it was. -/
def AllOrNothing (l : PermLoop D) (x : Idom D) : Prop :=
  match l.addChecked x with
  | (.ok (), l') => l'.IsNormal
  | (.error _, l') => l' = l

/-- No `add` leaves a loop as it was. -/
theorem add_ne (l : PermLoop D) (x : Idom D) : l.add x ≠ l := by
  intro h
  have hlen := congrArg (fun l => l.loop.length) h
  have hrot := (isRotated_ofList (List.append_ne_nil_of_left_ne_nil l.ne [x])).perm.length_eq
  rw [List.length_append, List.length_singleton] at hrot
  exact absurd (hlen.symm.trans hrot) (by omega)

/-- **A checked `add` is all or nothing exactly if the element is not yet in
the loop**: the check comes after the element has been added. -/
theorem allOrNothing_iff (hl : l.IsNormal) (x : Idom D) : l.AllOrNothing x ↔ x ∉ l.loop := by
  unfold AllOrNothing addChecked
  constructor
  · intro h hx
    have hnot : ¬ (l.add x).IsNormal := fun hnormal =>
      (nodup_snoc.mp ((isRotated_ofList _).nodup_iff.mp hnormal.nodup)).1 hx
    cases hcheck : (l.add x).check with
    | ok _ => exact hnot (check_eq_ok_iff.mp hcheck)
    | error e =>
      rw [hcheck] at h
      exact l.add_ne x h
  · intro hx
    have hnormal := hl.add hx
    rw [check_eq_ok_iff.mpr hnormal]
    exact hnormal

/-- Adding two to the loop `(1)` is. -/
theorem allOrNothing_two :
    (ofList [(⟨1, by decide⟩ : Idom oneToFour)] (List.cons_ne_nil _ _)).AllOrNothing
      ⟨2, by decide⟩ :=
  (allOrNothing_iff (isNormal_ofList _ (List.nodup_singleton _)) _).mpr (by decide)

/-- Adding one to the loop `(1)` throws and leaves the loop `(1 1)`. -/
theorem not_allOrNothing_one : ¬ ∀ l : PermLoop oneToFour, l.IsNormal → ∀ x, l.AllOrNothing x :=
  fun h => add_ne _ _ (h (ofList [⟨1, by decide⟩] (List.cons_ne_nil _ _))
    (isNormal_ofList _ (List.nodup_singleton _)) ⟨1, by decide⟩)

end PermLoop

end Permutations
