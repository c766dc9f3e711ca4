import CppGraduate.Lib.Cycles
import CppGraduate.Permutations.Idom
import Mathlib.Data.List.Rotate
import Mathlib.Data.List.TakeWhile

/-!
# Permutation loops

A loop `(a c d)` sends `a` to `c`, `c` to `d`, `d` to `a` and fixes what it
does not mention. A loop is applied to one element, or to a whole table by
shifting the entries of its elements; `simplify_loops` applies a sequence of
loops to the table of the identity, the last loop first, and `create_loops`
reads the loops of the result off again.

The definitions follow the source statement by statement, its two scans with
a bound on the number of steps. Below them stand their meanings in terms of
permutations of the domain: a loop with distinct elements is a cyclic
permutation, applied to a table it composes with it from the inside, and
reading off the loops of the table of a permutation yields one loop for each
of its cycles, from the smallest element on.
-/

namespace Permutations

open Cxx Dom

variable {D : Dom}

/-- `PermLoop<Idom<..>>`: its elements; a loop is never empty. -/
@[ext]
structure PermLoop (D : Dom) where
  /-- `loop_` -/
  loop : List (Idom D)
  /-- There is a first element. -/
  ne : loop ≠ []
deriving DecidableEq

namespace PermLoop

/-- `reroll()`: the elements rotated until a smallest one is first -/
def reroll (loop : List (Idom D)) (ne : loop ≠ []) : List (Idom D) :=
  loop.rotate (loop.idxOf (loop.min ne))

/-- Rotating leaves the loop non-empty. -/
theorem reroll_ne_nil (loop : List (Idom D)) (ne : loop ≠ []) : reroll loop ne ≠ [] :=
  fun h => ne (List.rotate_eq_nil_iff.mp h)

/-- `PermLoop(ls)`, for a non-empty list -/
def ofList (ls : List (Idom D)) (ne : ls ≠ []) : PermLoop D :=
  ⟨reroll ls ne, reroll_ne_nil ls ne⟩

/-- `add(x)` -/
def add (l : PermLoop D) (x : Idom D) : PermLoop D :=
  ofList (l.loop ++ [x]) (List.append_ne_nil_of_left_ne_nil l.ne [x])

/-- `inverse()` -/
def inverse (l : PermLoop D) : PermLoop D :=
  if l.loop.length < 3 then l
  else ⟨l.loop.head l.ne :: l.loop.tail.reverse, List.cons_ne_nil _ _⟩

/-- `smallest()`: the first element, whatever the loop holds -/
def smallest (l : PermLoop D) : Idom D := l.loop.head l.ne

/-- `contains(x)` -/
def contains (l : PermLoop D) (x : Idom D) : Bool := l.loop.contains x

/-- `apply(x)` -/
def apply (l : PermLoop D) (x : Idom D) : Idom D :=
  match l.loop.dropWhile (fun y => y ≠ x) with
  | [] => x
  | [_] => l.loop.head l.ne
  | _ :: nxt :: _ => nxt

/-- The loop over the elements in `apply(tbeg, tend)`, with the index `nxt`
of the entry that is overwritten next. -/
def shift (front : Idom D) :
    List (Idom D) → List (Idom D) → ℕ → Except Fault (List (Idom D) × ℕ)
  | [], tbl, nxt => .ok (tbl, nxt)
  | x :: xs, tbl, prev => do
    let nxt ← x.offset
    if x = front then shift front xs tbl nxt
    else
      let v ← readAt tbl nxt
      let tbl ← writeAt tbl prev v
      shift front xs tbl nxt

/-- `apply(tbeg, tend)` -/
def applyTable (l : PermLoop D) (tbl : List (Idom D)) : Except Fault (List (Idom D)) := do
  assert (D.start < D.fin) "T::start < T::fin"
  assert (D.start ≤ (l.loop.head l.ne).val) "loop_.front() >= T::start"
  assert ((l.loop.getLast l.ne).val ≤ D.fin) "loop_.back() <= T::fin"
  let τ := D.base.common .ptrdiffT
  let extent ← Idom.extent D
  assert (τ.convert tbl.length = τ.convert extent) "tend - tbeg == T::fin - T::start + 1"
  let nxt ← (l.loop.head l.ne).offset
  let tmp ← readAt tbl nxt
  let (tbl, nxt) ← shift (l.loop.head l.ne) l.loop tbl nxt
  writeAt tbl nxt tmp

end PermLoop

/-- The inner loop of `create_loops`: it follows the table from `nxt` until
it is back at `t`. -/
def follow (tbl : List (Idom D)) (t : Idom D) :
    ℕ → Idom D → PermLoop D → List Bool → Except Fault (PermLoop D × List Bool)
  | 0, _, _, _ => .error .outOfFuel
  | fuel + 1, nxt, perm, marked =>
    if nxt = t then .ok (perm, marked)
    else do
      let perm := perm.add nxt
      let i ← nxt.offset
      let marked ← writeAt marked i true
      let nxt ← readAt tbl i
      follow tbl t fuel nxt perm marked

/-- `std::find(marked.begin() + i, marked.end(), false)` -/
def findFalse (marked : List Bool) (i : ℕ) : ℕ :=
  i + (marked.drop i).findIdx (fun b => !b)

/-- The outer loop of `create_loops` from the mark at `mit` on. -/
def createLoopsFrom (tbl : List (Idom D)) : ℕ → ℕ → List Bool → Except Fault (List (PermLoop D))
  | 0, _, _ => .error .outOfFuel
  | fuel + 1, mit, marked =>
    if mit = marked.length then .ok []
    else do
      let t ← Idom.ofOffset D mit
      let marked ← writeAt marked mit true
      let nxt ← readAt tbl mit
      let perm := PermLoop.ofList [t] (List.cons_ne_nil t [])
      let (perm, marked) ← follow tbl t (tbl.length + 1) nxt perm marked
      let rest ← createLoopsFrom tbl fuel (findFalse marked (mit + 1)) marked
      return perm :: rest

/-- `create_loops(tbeg, tend, lbeg)` -/
def createLoops (tbl : List (Idom D)) : Except Fault (List (PermLoop D)) :=
  createLoopsFrom tbl (tbl.length + 1) 0 (List.replicate tbl.length false)

/-- The loops of a range applied to a table, one after another. -/
def applyAll (loops : List (PermLoop D)) (tbl : List (Idom D)) : Except Fault (List (Idom D)) :=
  loops.foldlM (fun tbl l => l.applyTable tbl) tbl

/-- `simplify_loops(tbeg, tend, lbeg)`: from the last loop to the first -/
def simplifyLoops (loops : List (PermLoop D)) : Except Fault (List (PermLoop D)) := do
  let extent ← Idom.extent D
  let fill ← Idom.ofBase D D.start
  let table := List.replicate (IntType.sizeT.convert extent).toNat fill
  let table ← Idom.iotaFrom D table D.start
  let table ← applyAll loops.reverse table
  createLoops table

/-! ## What a loop does to an element -/

namespace PermLoop

/-- The permutation a loop with distinct elements stands for. -/
def perm (l : PermLoop D) : Equiv.Perm (Idom D) := l.loop.formPerm

/-- **A loop sends each of its elements to the next one**, the last to the
first, and fixes the others. -/
theorem apply_eq_perm {l : PermLoop D} (h : l.loop.Nodup) (x : Idom D) : l.apply x = l.perm x := by
  unfold apply perm
  by_cases hx : x ∈ l.loop
  · obtain ⟨as, bs, hl, hnot⟩ := List.eq_append_cons_of_mem hx
    have hdrop : l.loop.dropWhile (fun y => y ≠ x) = x :: bs := by
      rw [hl, List.dropWhile_append_of_pos (fun y hy => by simpa using ne_of_mem_of_not_mem hy hnot)]
      simp
    have hi : as.length < l.loop.length := by simp [hl]
    have hget : l.loop[as.length] = x := by simp [hl]
    have hperm := List.formPerm_apply_getElem l.loop h as.length hi
    rw [hget] at hperm
    rw [hdrop, hperm]
    cases bs with
    | nil =>
      have hmod : (as.length + 1) % l.loop.length = 0 := by simp [hl]
      simp only [hmod, List.getElem_zero]
    | cons nxt bs =>
      have hmod : (as.length + 1) % l.loop.length = as.length + 1 := by
        rw [Nat.mod_eq_of_lt]
        simp [hl]
      have hlt : as.length + 1 < l.loop.length := by simp [hl]
      have hnext : l.loop[as.length + 1] = nxt := by simp [hl]
      simp only [hmod, hnext]
  · rw [List.formPerm_apply_of_notMem hx]
    have hdrop : l.loop.dropWhile (fun y => y ≠ x) = [] :=
      List.dropWhile_eq_nil_iff.mpr
        (fun y hy => by simpa using ne_of_mem_of_not_mem hy hx)
    rw [hdrop]

/-- Rerolling a loop that already begins with its smallest element changes
nothing. -/
theorem reroll_of_head_le {x : Idom D} {xs : List (Idom D)} (h : ∀ y ∈ xs, x ≤ y) :
    reroll (x :: xs) (List.cons_ne_nil x xs) = x :: xs := by
  have hmin : (x :: xs).min (List.cons_ne_nil x xs) = x :=
    (List.min_eq_iff _).mpr ⟨List.mem_cons_self, fun y hy => by
      rcases List.mem_cons.mp hy with rfl | hy
      · exact le_rfl
      · exact h y hy⟩
  unfold reroll
  rw [hmin, List.idxOf_cons_self, List.rotate_zero]

/-- **Rerolling changes how a loop is written, not what it does.** -/
theorem perm_ofList {ls : List (Idom D)} (ne : ls ≠ []) (h : ls.Nodup) :
    (ofList ls ne).perm = ls.formPerm :=
  List.formPerm_rotate ls h _

/-- Turning a loop around keeps the first element and reverses the others,
in loops of one or two elements, too, where nothing is to be done. -/
theorem loop_inverse (l : PermLoop D) :
    l.inverse.loop = l.loop.head l.ne :: l.loop.tail.reverse := by
  unfold inverse
  split
  · rename_i hlen
    match h : l.loop, l.ne with
    | [_], _ => rfl
    | [_, _], _ => rfl
    | _ :: _ :: _ :: _, _ =>
      rw [h] at hlen
      simp only [List.length_cons] at hlen
      omega
  · rfl

/-- A loop made from a list begins with its smallest element. -/
theorem smallest_ofList_le {ls : List (Idom D)} (ne : ls ≠ []) {x : Idom D} (hx : x ∈ ls) :
    (ofList ls ne).smallest ≤ x := by
  have hmem : ls.min ne ∈ ls := List.min_mem ne
  have hlt : ls.idxOf (ls.min ne) < ls.length := List.idxOf_lt_length_iff.mpr hmem
  have hhead : (ofList ls ne).smallest = ls.min ne := by
    unfold smallest ofList reroll
    rw [List.head_eq_getElem, List.getElem_rotate]
    simp only [Nat.zero_add, Nat.mod_eq_of_lt hlt, List.getElem_idxOf]
  rw [hhead]
  exact List.min_le_of_mem hx

end PermLoop

/-! ## What a loop does to a table -/

namespace PermLoop

/-- **The shift composes from the inside.** The entries of the elements
move one place against the loop, the entry left over is filled in last. -/
theorem shift_tableOf (hfits : D.OffsetsFit) {front c : Idom D} {ds : List (Idom D)}
    (h : (c :: ds).Nodup) (hfront : front ∉ ds) (f : Idom D → Idom D) (tmp : Idom D) :
    (do let r ← shift front ds (tableOf f) (pos c)
        writeAt r.1 r.2 tmp)
      = .ok (tableOf (Function.update f c tmp ∘ (c :: ds).formPerm)) := by
  induction ds generalizing c f with
  | nil =>
    rw [shift, ok_bind, List.formPerm_singleton]
    exact writeAt_tableOf f c tmp
  | cons d ds ih =>
    obtain ⟨hc, hds⟩ := List.nodup_cons.mp h
    have hcd : c ≠ d := fun he => hc (he ▸ List.mem_cons_self)
    have hdf : d ≠ front := fun he => hfront (he ▸ List.mem_cons_self)
    have hswap : Function.update (Function.update f c (f d)) d tmp
        = Function.update f c tmp ∘ Equiv.swap c d := by
      ext1 x
      by_cases hxd : x = d
      · subst hxd
        rw [Function.update_self, Function.comp_apply, Equiv.swap_apply_right,
          Function.update_self]
      · by_cases hxc : x = c
        · subst hxc
          rw [Function.update_of_ne hxd, Function.update_self, Function.comp_apply,
            Equiv.swap_apply_left, Function.update_of_ne hcd.symm]
        · rw [Function.update_of_ne hxd, Function.update_of_ne hxc, Function.comp_apply,
            Equiv.swap_apply_of_ne_of_ne hxc hxd, Function.update_of_ne hxc]
    rw [shift, Idom.offset_of_fits hfits, ok_bind, if_neg hdf, readAt_tableOf, ok_bind,
      writeAt_tableOf, ok_bind, ih hds (fun hm => hfront (List.mem_cons_of_mem d hm)),
      hswap, List.formPerm_cons_cons]
    rfl

/-- **A loop applied to the table of a function** composes the loop with
it, the loop first. -/
theorem applyTable_tableOf (hfits : D.TableFits) (hlt : D.start < D.fin) {l : PermLoop D}
    (h : l.loop.Nodup) (f : Idom D → Idom D) :
    l.applyTable (tableOf f) = .ok (tableOf (f ∘ l.perm)) := by
  obtain ⟨n, hn, hsize⟩ := (Idom.tableFits_iff hlt.le).mp hfits
  obtain ⟨loop, ne⟩ := l
  obtain ⟨a, as, rfl⟩ := List.exists_cons_of_ne_nil ne
  have hlast := ((a :: as).getLast ne).property.2
  have hoff := hfits.offsetsFit
  unfold applyTable perm
  rw [assert_of_true (decide_eq_true hlt), assert_of_true (decide_eq_true ?_),
    assert_of_true (decide_eq_true hlast), hn]
  swap
  · exact a.property.1
  simp only [ok_bind, length_tableOf, hsize, List.head_cons]
  rw [assert_of_true (decide_eq_true trivial), ok_bind, Idom.offset_of_fits hoff, ok_bind,
    readAt_tableOf, ok_bind, shift, Idom.offset_of_fits hoff, ok_bind, if_pos rfl,
    shift_tableOf hoff h (List.nodup_cons.mp h).1, Function.update_eq_self]

/-- **A loop that was applied to a table** passed the assertions before the
shift. -/
theorem of_applyTable {l : PermLoop D} {tbl out : List (Idom D)} (h : l.applyTable tbl = .ok out) :
    D.start < D.fin
      ∧ (∃ n, Idom.extent D = .ok n
        ∧ (D.base.common .ptrdiffT).convert tbl.length = (D.base.common .ptrdiffT).convert n)
      ∧ (do
          let nxt ← (l.loop.head l.ne).offset
          let tmp ← readAt tbl nxt
          let (tbl, nxt) ← shift (l.loop.head l.ne) l.loop tbl nxt
          writeAt tbl nxt tmp) = .ok out := by
  obtain ⟨_, hlt, h⟩ := bind_eq_ok.mp h
  obtain ⟨_, -, h⟩ := bind_eq_ok.mp h
  obtain ⟨_, -, h⟩ := bind_eq_ok.mp h
  obtain ⟨n, hn, h⟩ := bind_eq_ok.mp h
  obtain ⟨_, hsize, h⟩ := bind_eq_ok.mp h
  exact ⟨of_decide_eq_true (of_assert_eq_ok hlt),
    ⟨n, hn, of_decide_eq_true (of_assert_eq_ok hsize)⟩, h⟩

end PermLoop

/-- The permutation a sequence of loops stands for: the first loop acts
first. -/
def composed : List (PermLoop D) → Equiv.Perm (Idom D)
  | [] => 1
  | l :: ls => composed ls * l.perm

/-- Loops that follow other loops act after them. -/
theorem composed_append (ls ms : List (PermLoop D)) :
    composed (ls ++ ms) = composed ms * composed ls := by
  induction ls with
  | nil => rw [List.nil_append, composed, mul_one]
  | cons l ls ih => rw [List.cons_append, composed, composed, ih, mul_assoc]

/-- Passing an element through the loops, one after another. -/
theorem foldl_apply_eq {loops : List (PermLoop D)} (h : ∀ l ∈ loops, l.loop.Nodup) (x : Idom D) :
    loops.foldl (fun y l => l.apply y) x = composed loops x := by
  induction loops generalizing x with
  | nil => rfl
  | cons l ls ih =>
    rw [List.foldl_cons, PermLoop.apply_eq_perm (h l List.mem_cons_self),
      ih (fun m hm => h m (List.mem_cons_of_mem l hm))]
    rfl

/-- **The loops applied to a table, one after another,** compose with it the
other way round: the last loop first. -/
theorem applyAll_tableOf (hfits : D.TableFits) (hlt : D.start < D.fin)
    {loops : List (PermLoop D)} (h : ∀ l ∈ loops, l.loop.Nodup) (f : Idom D → Idom D) :
    applyAll loops (tableOf f) = .ok (tableOf (f ∘ composed loops.reverse)) := by
  induction loops generalizing f with
  | nil => rfl
  | cons l ls ih =>
    have hls := ih (fun m hm => h m (List.mem_cons_of_mem l hm)) (f ∘ l.perm)
    unfold applyAll at hls ⊢
    rw [List.foldlM_cons, PermLoop.applyTable_tableOf hfits hlt (h l List.mem_cons_self), ok_bind,
      hls, List.reverse_cons, composed_append]
    rfl

/-- **The loops applied to the table of the identity, last loop first,**
yield the table of what they compose to. -/
theorem applyAll_reverse (hfits : D.TableFits) (hlt : D.start < D.fin)
    {loops : List (PermLoop D)} (h : ∀ l ∈ loops, l.loop.Nodup) :
    applyAll loops.reverse D.elems = .ok (tableOf (composed loops)) := by
  rw [← tableOf_id, applyAll_tableOf hfits hlt (fun l hl => h l (List.mem_reverse.mp hl)),
    List.reverse_reverse]
  rfl

end Permutations
