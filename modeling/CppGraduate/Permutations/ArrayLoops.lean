import CppGraduate.Permutations.Tables

/-!
# Loops of a fixed size

`PermLoop<T, N>` keeps its elements in an array, so that loops can be built
and applied at compile time. The array is filled from a list by an index
sequence of length `N`: a shorter list is read past its end, of a longer one
the elements from the `N`-th on are left out. Otherwise the functions are
those of the loops over vectors, less the assertions of the application to a
table, which are disabled.

**Main result**: `agrees_iff`, when a loop over an array agrees with the loop
over a vector made from the same list.
-/

namespace Permutations

open Cxx Dom

variable {D : Dom} {N : ℕ}

/-- `PermLoop<Idom<..>, N>`: its elements; a loop that passed the check is not
empty. -/
@[ext]
structure ArrayLoop (D : Dom) (N : ℕ) where
  /-- `loop_` -/
  loop : List (Idom D)
  /-- The array has `N` elements. -/
  length_eq : loop.length = N
  /-- There is a first element. -/
  ne : loop ≠ []

instance : DecidableEq (ArrayLoop D N) := fun _ _ => decidable_of_iff _ ArrayLoop.ext_iff.symm

namespace ArrayLoop

/-- `make_array<T, N>(t)`: the elements at `0`, ..., `N - 1`, each of them
read from the list -/
def makeArray (N : ℕ) (t : List (Idom D)) : Except Fault {arr : List (Idom D) // arr.length = N} :=
  if h : N ≤ t.length then
    .ok ⟨List.ofFn fun i : Fin N => t.get (i.castLE h), List.length_ofFn⟩
  else .error .undefined

/-- `reroll()`; an empty array stays as it is -/
def reroll (arr : List (Idom D)) : List (Idom D) :=
  if ne : arr ≠ [] then PermLoop.reroll arr ne else arr

/-- Rerolling leaves the size as it is. -/
theorem length_reroll (arr : List (Idom D)) : (reroll arr).length = arr.length := by
  unfold reroll
  split
  · exact List.length_rotate _ _
  · rfl

/-- `check()`, after which the array is known not to be empty -/
def check (arr : List (Idom D)) (h : arr.length = N) : Except Fault (ArrayLoop D N) :=
  if ne : arr = [] then .error (.runtimeError "PermLoop shall be non-empty")
  else .ok ⟨arr, h, ne⟩

/-- `PermLoop(ls)` -/
def ofList (N : ℕ) (ls : List (Idom D)) : Except Fault (ArrayLoop D N) := do
  let arr ← makeArray N ls
  check (reroll arr.val) ((length_reroll arr.val).trans arr.property)

/-- Turning the elements after the first around leaves the size as it is. -/
theorem length_turned (l : ArrayLoop D N) :
    (l.loop.head l.ne :: l.loop.tail.reverse).length = N := by
  have hlength := congrArg List.length (List.cons_head_tail l.ne)
  rw [List.length_cons] at hlength ⊢
  rw [List.length_reverse]
  exact hlength.trans l.length_eq

/-- `inverse()` -/
def inverse (l : ArrayLoop D N) : Except Fault (ArrayLoop D N) :=
  if N < 3 then .ok l
  else check (l.loop.head l.ne :: l.loop.tail.reverse) l.length_turned

/-- `contains(x)` -/
def contains (l : ArrayLoop D N) (x : Idom D) : Bool := l.loop.contains x

/-- `apply(x)` -/
def apply (l : ArrayLoop D N) (x : Idom D) : Idom D :=
  match l.loop.dropWhile (fun y => y ≠ x) with
  | [] => x
  | [_] => l.loop.head l.ne
  | _ :: nxt :: _ => nxt

/-- `apply(tbeg, tend)`, for a domain that passes the static assertion; the
loop over the elements is the one over vectors -/
def applyTable (l : ArrayLoop D N) (tbl : List (Idom D)) : Except Fault (List (Idom D)) := do
  let nxt ← (l.loop.head l.ne).offset
  let tmp ← readAt tbl nxt
  let (tbl, nxt) ← PermLoop.shift (l.loop.head l.ne) l.loop tbl nxt
  writeAt tbl nxt tmp

/-- `equals(rhs)`, and the defaulted comparison -/
def equals (l rhs : ArrayLoop D N) : Bool := l.loop == rhs.loop

/-! ## Agreement with the loop over a vector -/

/-- **Agreement**: the same elements in the same order, and the same results.
A table is an argument of both where it has an entry for every element of a
domain that passes the static assertion. -/
structure Agrees (a : ArrayLoop D N) (v : PermLoop D) : Prop where
  /-- The elements are the same. -/
  loop : a.loop = v.loop
  /-- `apply(x)` -/
  apply : ∀ x, a.apply x = v.apply x
  /-- `contains(x)` -/
  contains : ∀ x, a.contains x = v.contains x
  /-- `inverse()` -/
  inverse : ∃ a', a.inverse = .ok a' ∧ a'.loop = v.inverse.loop
  /-- `==`, for loops with the same elements on the other side -/
  equals : ∀ (r : ArrayLoop D N) (s : PermLoop D), r.loop = s.loop → a.equals r = v.equals s
  /-- `apply(tbeg, tend)` -/
  applyTable : D.start < D.fin → ∀ tbl : List (Idom D), tbl.length = D.card →
    ∃ out, a.applyTable tbl = .ok out ∧ v.applyTable tbl = .ok out
  /-- What the loop over a vector returns for any other table, the loop over
  an array returns, too. -/
  applyTable_of_ok : ∀ tbl out, v.applyTable tbl = .ok out → a.applyTable tbl = .ok out

variable {ls : List (Idom D)} {a : ArrayLoop D N}

/-- **The lists that the constructor accepts** have at least `N` elements, of
which there are some; the loop is made of the first `N`. -/
theorem ofList_eq_ok (h : ofList N ls = .ok a) :
    N ≤ ls.length ∧ ∃ ne : ls.take N ≠ [], a.loop = PermLoop.reroll (ls.take N) ne := by
  obtain ⟨⟨arr, harr⟩, hmake, hcheck⟩ := bind_eq_ok.mp h
  unfold makeArray at hmake
  split at hmake
  · rename_i hle
    refine ⟨hle, ?_⟩
    have htake : arr = ls.take N := by
      have he := congrArg Subtype.val (Except.ok.inj hmake)
      dsimp only at he
      rw [← he]
      refine List.ext_getElem (by simp [hle]) fun i hi hi' => ?_
      rw [List.getElem_ofFn, List.getElem_take]
      rfl
    subst htake
    unfold check at hcheck
    split at hcheck
    · cases hcheck
    · rename_i hne
      have ne : ls.take N ≠ [] := by
        intro he
        unfold reroll at hne
        rw [dif_neg (not_not.mpr he)] at hne
        exact hne he
      refine ⟨ne, ?_⟩
      rw [← Except.ok.inj hcheck]
      exact dif_pos ne
  · cases hmake

/-- An accepted list is not empty. -/
theorem ne_of_ofList (h : ofList N ls = .ok a) : ls ≠ [] := by
  obtain ⟨-, ne, -⟩ := ofList_eq_ok h
  rintro rfl
  exact ne List.take_nil

/-- **The application to a table less its assertions.** -/
theorem applyTable_of_applyTable {v : PermLoop D} (hloop : a.loop = v.loop)
    {tbl out : List (Idom D)} (h : v.applyTable tbl = .ok out) : a.applyTable tbl = .ok out := by
  obtain ⟨loop, ne⟩ := v
  obtain ⟨arr, hlength, hne⟩ := a
  subst hloop
  exact (PermLoop.of_applyTable h).2.2

/-- **Loops with the same distinct elements agree**, where the size of a table
passes the check. -/
theorem agrees_of_loop_eq {v : PermLoop D} (hnodup : v.loop.Nodup) (hloop : a.loop = v.loop)
    (hfits : D.start < D.fin → D.TableFits) : Agrees a v where
  loop := hloop
  apply x := by
    obtain ⟨loop, ne⟩ := v
    obtain ⟨arr, hlength, hne⟩ := a
    subst hloop
    rfl
  contains x := by
    unfold ArrayLoop.contains PermLoop.contains
    rw [hloop]
  inverse := by
    unfold ArrayLoop.inverse
    by_cases hN : N < 3
    · have hlt : v.loop.length < 3 := by rwa [← hloop, a.length_eq]
      refine ⟨a, if_pos hN, ?_⟩
      unfold PermLoop.inverse
      rw [if_pos hlt, hloop]
    · rw [if_neg hN]
      unfold check
      rw [dif_neg (List.cons_ne_nil _ _)]
      refine ⟨_, rfl, ?_⟩
      rw [PermLoop.loop_inverse]
      simp only [hloop]
  equals r s hrs := by
    unfold ArrayLoop.equals PermLoop.equals
    rw [hloop, hrs]
  applyTable hlt tbl htbl := by
    obtain ⟨f, rfl⟩ := exists_tableOf htbl
    have htable := PermLoop.applyTable_tableOf (hfits hlt) hlt hnodup f
    exact ⟨_, applyTable_of_applyTable hloop htable, htable⟩
  applyTable_of_ok _ _ := applyTable_of_applyTable hloop

/-- **A loop over an array agrees with the loop over a vector** made from the
same list exactly if the list has as many elements as the array and, where
there are tables, their size passes the check. -/
theorem agrees_iff (hnodup : ls.Nodup) (h : ofList N ls = .ok a) :
    Agrees a (PermLoop.ofList ls (ne_of_ofList h))
      ↔ ls.length = N ∧ (D.start < D.fin → D.TableFits) := by
  obtain ⟨-, ne, hloop⟩ := ofList_eq_ok h
  constructor
  · intro hagrees
    constructor
    · have hlength := congrArg List.length hagrees.loop
      rw [a.length_eq, (PermLoop.isRotated_ofList _).perm.length_eq] at hlength
      exact hlength.symm
    · intro hlt
      obtain ⟨out, -, hout⟩ := hagrees.applyTable hlt D.elems (length_elems D)
      exact tableFits_of_applyTable hlt (length_elems D) hout
  · rintro ⟨hlength, hfits⟩
    have htake : ls.take N = ls := List.take_of_length_le hlength.le
    refine agrees_of_loop_eq ((PermLoop.isRotated_ofList _).nodup_iff.mpr hnodup) ?_ hfits
    simp only [htake] at hloop
    exact hloop

/-- The loop `(4 2 1 3)` of the tests. -/
theorem agrees_iff_oneToFour :
    Agrees (D := oneToFour)
      ⟨[⟨1, by decide⟩, ⟨3, by decide⟩, ⟨4, by decide⟩, ⟨2, by decide⟩], rfl, List.cons_ne_nil _ _⟩
      (PermLoop.ofList [⟨4, by decide⟩, ⟨2, by decide⟩, ⟨1, by decide⟩, ⟨3, by decide⟩]
        (List.cons_ne_nil _ _)) :=
  (agrees_iff (by decide) (show ofList 4 _ = _ by decide)).mpr ⟨rfl, fun _ => by decide⟩

/-- Of the list `{1, 2, 3}` an array of two elements keeps `(1 2)`, which
sends two to one. -/
theorem not_agrees_truncated :
    ∃ (ls : List (Idom oneToFour)) (ne : ls ≠ []) (a : ArrayLoop oneToFour 2),
      ls.Nodup ∧ ofList 2 ls = .ok a ∧ ¬ Agrees a (PermLoop.ofList ls ne) := by
  refine ⟨[⟨1, by decide⟩, ⟨2, by decide⟩, ⟨3, by decide⟩], List.cons_ne_nil _ _,
    ⟨[⟨1, by decide⟩, ⟨2, by decide⟩], rfl, List.cons_ne_nil _ _⟩, by decide, by decide, ?_⟩
  intro hagrees
  exact absurd (hagrees.apply ⟨2, by decide⟩) (by decide)

end ArrayLoop

end Permutations
