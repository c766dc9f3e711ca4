import CppGraduate.Lib.CxxInt
import Mathlib.Data.Int.ConditionallyCompleteOrder
import Mathlib.Data.Int.Interval
import Mathlib.Data.List.OfFn
import Mathlib.Data.Set.Finite.Lattice
import Mathlib.Order.Fin.Basic
import Mathlib.Order.Interval.Finset.Defs

/-!
# Integral domains and the tables over them

`Idom<T, start, fin>` is the type of the values of `T` from `start` to
`fin`. The permutation code keeps tables with one entry for each of them and
finds an entry by the difference to `start`; how many entries there are it
computes as `fin - start + 1`, in the arithmetic of `T`. The three places
where that arithmetic can leave the range of `T` – the number of entries,
an offset, the increment after the last element – are kept here as the code
has them.

An `Idom` value carries its bounds, so that no operation below can build one
outside the domain; the checks of its constructor are where a plain value of
`T` becomes one.
-/

namespace Permutations

open Cxx

/-- The ways a call can end without a result: the exceptions of the source
with their texts, a failed `assert`, undefined behaviour, and a loop that
did not end within the steps it was given. -/
inductive Fault
  /-- `std::out_of_range` -/
  | outOfRange (what : String)
  /-- `std::runtime_error` -/
  | runtimeError (what : String)
  /-- `assert(cond)` -/
  | assertFailed (cond : String)
  /-- Signed overflow, or an access outside a table. -/
  | undefined
  /-- No result within the given number of steps. -/
  | outOfFuel
deriving DecidableEq, Repr

/-- An integral domain: its base type, its first and its last element, the
three arguments of the template. -/
structure Dom where
  /-- The type of the values. -/
  base : IntType
  /-- `start_` -/
  start : ℤ
  /-- `fin_` -/
  fin : ℤ
  /-- `start_` is a value of the base type. -/
  start_mem : base.lo ≤ start ∧ start ≤ base.hi
  /-- `fin_` is a value of the base type. -/
  fin_mem : base.lo ≤ fin ∧ fin ≤ base.hi

/-- `Idom<T, start, fin>`: a value between the bounds. -/
abbrev Idom (D : Dom) := {val : ℤ // D.start ≤ val ∧ val ≤ D.fin}

variable {D : Dom}

/-- The order of the values. -/
instance : LinearOrder (Idom D) := @Subtype.instLinearOrder ℤ Int.instLinearOrder _

instance (x y : Idom D) : Decidable (x ≤ y) := Int.decLe x.val y.val

instance (x y : Idom D) : Decidable (x < y) := Int.decLt x.val y.val

instance : Finite (Idom D) :=
  Set.finite_coe_iff.mpr (Set.finite_Icc D.start D.fin)

/-! ## Steps that can fail -/

/-- The rest of a call goes on with the result of a step that has one. -/
@[simp]
theorem ok_bind {α β : Type} (a : α) (f : α → Except Fault β) :
    ((Except.ok a : Except Fault α) >>= f) = f a :=
  rfl

/-- A step without a result ends the call. -/
@[simp]
theorem error_bind {α β : Type} (e : Fault) (f : α → Except Fault β) :
    ((Except.error e : Except Fault α) >>= f) = .error e :=
  rfl

/-- **A call returned**: its first step did, and so did the rest. -/
theorem bind_eq_ok {α β : Type} {m : Except Fault α} {f : α → Except Fault β} {b : β} :
    (m >>= f) = .ok b ↔ ∃ a, m = .ok a ∧ f a = .ok b := by
  cases m with
  | ok a => simp
  | error e => simp

/-- Undefined arithmetic ends a call. -/
def defined {α : Type} : Option α → Except Fault α
  | some a => .ok a
  | none => .error .undefined

/-- `assert(cond)` -/
def assert (cond : Bool) (text : String) : Except Fault Unit :=
  if cond then .ok () else .error (.assertFailed text)

/-- An assertion that holds. -/
theorem assert_of_true {cond : Bool} {text : String} (h : cond = true) :
    assert cond text = .ok () :=
  if_pos h

/-- An assertion that was passed. -/
theorem of_assert_eq_ok {cond : Bool} {text : String} (h : assert cond text = .ok ()) :
    cond = true := by
  unfold assert at h
  split at h
  · assumption
  · cases h

/-- `tbeg[i]` as a value -/
def readAt {β : Type} (tbl : List β) (i : ℕ) : Except Fault β :=
  defined tbl[i]?

/-- `tbeg[i] = v` -/
def writeAt {β : Type} (tbl : List β) (i : ℕ) (v : β) : Except Fault (List β) :=
  if i < tbl.length then .ok (tbl.set i v) else .error .undefined

/-! ## Domain values and the arithmetic on them -/

namespace Idom

/-- `Idom(T val)` -/
def ofBase (D : Dom) (val : ℤ) : Except Fault (Idom D) :=
  if hbig : D.fin < val then
    .error (.outOfRange ("value too big for domain: " ++ toString val))
  else if hsmall : val < D.start then
    .error (.outOfRange "value too small for domain")
  else .ok ⟨val, Int.not_lt.mp hsmall, Int.not_lt.mp hbig⟩

/-- A value between the bounds is accepted as it is. -/
theorem ofBase_val (x : Idom D) : ofBase D x.val = .ok x := by
  unfold ofBase
  rw [dif_neg (Int.not_lt.mpr x.property.2), dif_neg (Int.not_lt.mpr x.property.1)]

/-- `x - T::start`, as the index of a table -/
def offset (x : Idom D) : Except Fault ℕ := do
  let diff ← defined (D.base.promote.arith (x.val - D.start))
  return (IntType.sizeT.convert diff).toNat

/-- `static_cast<T>(T::start + relt)` for a distance `relt` of iterators -/
def ofOffset (D : Dom) (relt : ℕ) : Except Fault (Idom D) := do
  let τ := D.base.common .ptrdiffT
  let val ← defined (τ.arith (τ.convert D.start + τ.convert relt))
  ofBase D (D.base.convert val)

/-- `fin - start + 1`, in the arithmetic of the promoted base type -/
def extent (D : Dom) : Except Fault ℤ := do
  let diff ← defined (D.base.promote.arith (D.fin - D.start))
  defined (D.base.promote.arith (diff + 1))

/-- The assignments of `std::iota(table.begin(), table.end(), value)`; the
value is increased after the last of them, too. -/
def iotaFrom (D : Dom) : List (Idom D) → ℤ → Except Fault (List (Idom D))
  | [], _ => .ok []
  | _ :: rest, value => do
    let x ← ofBase D value
    let value ← defined (D.base.incr value)
    let rest ← iotaFrom D rest value
    return x :: rest

end Idom

/-! ## The elements in order -/

namespace Dom

/-- How many elements the domain has. -/
def card (D : Dom) : ℕ := (D.fin - D.start + 1).toNat

/-- The elements from the first to the last. -/
def elems (D : Dom) : List (Idom D) :=
  List.ofFn fun i : Fin D.card => ⟨D.start + i, by have := i.isLt; unfold card at this; omega⟩

/-- Where an element stands in the order. -/
def pos (x : Idom D) : ℕ := (x.val - D.start).toNat

@[simp]
theorem length_elems (D : Dom) : D.elems.length = D.card := by
  simp [elems]

theorem pos_lt (x : Idom D) : pos x < D.card := by
  have hx := x.property
  unfold pos card
  omega

theorem val_getElem_elems (D : Dom) (i : ℕ) (h : i < D.elems.length) :
    (D.elems[i]).val = D.start + i := by
  simp [elems]

/-- The element at a position stands there. -/
@[simp]
theorem pos_getElem (D : Dom) (i : ℕ) (h : i < D.elems.length) : pos D.elems[i] = i := by
  unfold pos
  rw [val_getElem_elems]
  omega

/-- The position of an element leads back to it. -/
theorem getElem?_pos (x : Idom D) : D.elems[pos x]? = some x := by
  have hlt : pos x < D.elems.length := by simpa using pos_lt x
  rw [List.getElem?_eq_getElem hlt, Option.some_inj]
  refine Subtype.ext ?_
  have hx := x.property
  rw [val_getElem_elems, pos]
  omega

/-- Every element is among them. -/
theorem mem_elems (x : Idom D) : x ∈ D.elems :=
  List.mem_of_getElem? (getElem?_pos x)

/-- The order is increasing. -/
theorem pairwise_elems (D : Dom) : D.elems.Pairwise (· < ·) := by
  refine List.pairwise_iff_getElem.mpr (fun i j hi hj hij => ?_)
  show (D.elems[i]).val < (D.elems[j]).val
  rw [val_getElem_elems, val_getElem_elems]
  omega

/-- No element occurs twice. -/
theorem nodup_elems (D : Dom) : D.elems.Nodup :=
  D.pairwise_elems.imp ne_of_lt

/-! ## When the arithmetic stays in range -/

/-- The number of elements is a value of the promoted base type. -/
def CountFits (D : Dom) : Prop := D.fin - D.start + 1 ≤ D.base.promote.hi

/-- Counting past the last element is defined. -/
def IncrFits (D : Dom) : Prop := D.fin = D.base.hi → ¬ D.base.OverflowsAtHi

/-- The offsets of all elements are values of the promoted base type. -/
def OffsetsFit (D : Dom) : Prop := D.fin - D.start ≤ D.base.promote.hi

/-- The size of a table passes for the number of elements: it is compared
with it in the wider of the promoted base type and `std::ptrdiff_t`. Over
all values of `std::size_t` both wrap around to zero. -/
def TableFits (D : Dom) : Prop := D.CountFits ∨ D.base = .sizeT

instance (D : Dom) : Decidable D.CountFits :=
  inferInstanceAs (Decidable (_ ≤ _))

instance (D : Dom) : Decidable D.TableFits :=
  inferInstanceAs (Decidable (_ ∨ _))

instance (D : Dom) : Decidable D.IncrFits :=
  inferInstanceAs (Decidable (_ → _))

/-- Where counting to the last element ends below the largest value,
counting past it is defined. -/
theorem incrFits_of_lt (h : D.fin < D.base.hi) : D.IncrFits := fun he =>
  absurd he (ne_of_lt h)

/-- **Unsigned and narrow base types have room.** For a base type whose
promoted type is `int`, or an unsigned one whose largest value is not in
the domain, the number of elements fits. -/
theorem countFits_of_lt (h : ¬ D.base.OverflowsAtHi) (hlt : D.fin < D.base.hi) :
    D.CountFits := by
  have hroom := IntType.hi_sub_lo_le h
  have hstart := D.start_mem.1
  unfold CountFits
  omega

/-- Where the number of elements fits, the offsets do. -/
theorem CountFits.offsetsFit (h : D.CountFits) : D.OffsetsFit :=
  le_trans (Int.le_add_one le_rfl) h

/-- Where the number of elements fits, the size of a table does. -/
theorem CountFits.tableFits (h : D.CountFits) : D.TableFits := Or.inl h

/-- Where the size of a table fits, the offsets do. -/
theorem TableFits.offsetsFit (h : D.TableFits) : D.OffsetsFit := by
  rcases h with h | h
  · exact h.offsetsFit
  · have hlo : IntType.sizeT.lo = 0 := rfl
    have hs := D.start_mem.1
    have hf := D.fin_mem.2.trans D.base.range_promote.2
    rw [h, hlo] at hs
    unfold OffsetsFit
    omega

/-- An offset is a value of the promoted base type when the last one is. -/
theorem arith_diff (h : D.OffsetsFit) {z : ℤ} (hlo : D.start ≤ z) (hhi : z ≤ D.fin) :
    D.base.promote.arith (z - D.start) = some (z - D.start) := by
  have := D.base.promote.lo_nonpos
  unfold OffsetsFit at h
  exact IntType.arith_of_inRange (by omega) (by omega)

end Dom

namespace Idom

open Dom

/-- **The number of entries**, where it fits. -/
theorem extent_of_fits (h : D.CountFits) (hle : D.start ≤ D.fin) :
    extent D = .ok (D.fin - D.start + 1) := by
  have := D.base.promote.lo_nonpos
  unfold extent
  rw [arith_diff h.offsetsFit hle le_rfl]
  show defined (D.base.promote.arith _) = _
  unfold CountFits at h
  rw [IntType.arith_of_inRange (by omega) h]
  rfl

/-- **The number of entries of a signed domain that does not fit** is
undefined. -/
theorem extent_signed (h : ¬ D.CountFits) (hs : D.base.promote.signed = true) :
    extent D = .error .undefined := by
  unfold CountFits at h
  have hlo := D.base.promote.lo_nonpos
  have hpos := D.base.promote.hi_pos
  unfold extent
  by_cases hd : D.fin - D.start ≤ D.base.promote.hi
  · rw [IntType.arith_of_inRange (by omega) hd]
    show defined (D.base.promote.arith _) = _
    rw [IntType.arith_signed_of_hi_lt hs (by omega)]
    rfl
  · rw [IntType.arith_signed_of_hi_lt hs (by omega)]
    rfl

/-- **The number of entries of an unsigned domain that does not fit** wraps
around to zero: the domain is the whole type. -/
theorem extent_unsigned (h : ¬ D.CountFits) (hu : D.base.promote.signed = false) :
    extent D = .ok 0 := by
  have hbase := IntType.promote_unsigned hu
  have hlo := IntType.lo_unsigned hu
  have hhi := IntType.hi_unsigned hu
  unfold CountFits at h
  rw [hbase] at hu h hlo hhi
  have hs := D.start_mem
  have hf := D.fin_mem
  have hdiff : D.fin - D.start = 2 ^ D.base.width - 1 := by omega
  unfold extent
  rw [hbase, hdiff, IntType.arith_of_inRange (by omega) (by omega)]
  show defined (D.base.arith _) = _
  rw [IntType.arith_unsigned hu, Int.sub_add_cancel, Int.emod_self]
  rfl

/-- **The size of a table passes for the number of elements** exactly where
it fits. -/
theorem tableFits_iff (hle : D.start ≤ D.fin) : D.TableFits ↔
    ∃ n, extent D = .ok n
      ∧ (D.base.common .ptrdiffT).convert D.card = (D.base.common .ptrdiffT).convert n := by
  have hcard : (D.card : ℤ) = D.fin - D.start + 1 := by
    unfold card
    omega
  by_cases hcount : D.CountFits
  · exact iff_of_true (Or.inl hcount) ⟨_, extent_of_fits hcount hle, by rw [hcard]⟩
  · cases hs : D.base.promote.signed with
    | true =>
      refine iff_of_false (fun h => ?_) ?_
      · rw [h.resolve_left hcount] at hs
        cases hs
      · rintro ⟨n, hn, -⟩
        rw [extent_signed hcount hs] at hn
        cases hn
    | false =>
      have hbase := IntType.promote_unsigned hs
      have hstart := D.start_mem.1
      have hfin := D.fin_mem.2
      unfold CountFits at hcount
      rw [hbase] at hcount hs
      have hlo := IntType.lo_unsigned hs
      have hhi := IntType.hi_unsigned hs
      have hall : (D.card : ℤ) = 2 ^ D.base.width := by omega
      rw [extent_unsigned (by unfold CountFits; rwa [hbase]) (by rwa [hbase]), hall]
      -- all values of an unsigned type of 32 or of 64 bits
      rcases IntType.eq_of_promote_unsigned (by rwa [hbase]) with hτ | hτ
      · refine iff_of_false (fun h => ?_) ?_
        · rcases h with h | h
          · exact hcount (hbase ▸ h)
          · rw [hτ] at h
            cases h
        · rintro ⟨n, hn, he⟩
          cases hn
          rw [hτ] at he
          revert he
          decide
      · refine iff_of_true (Or.inr hτ) ⟨0, rfl, ?_⟩
        rw [hτ]
        decide

/-- The offset of an element is its position. -/
theorem offset_of_fits (h : D.OffsetsFit) (x : Idom D) : x.offset = .ok (pos x) := by
  have hx := x.property
  have hp := D.base.promote.hi_le_sizeT
  unfold OffsetsFit at h
  unfold offset
  rw [arith_diff h hx.1 hx.2]
  show Except.ok (IntType.sizeT.convert (x.val - D.start)).toNat = _
  rw [IntType.convert_of_inRange (by simp [IntType.lo, IntType.sizeT]; omega) (by omega), pos]

/-- The element at an offset below the number of elements. -/
theorem ofOffset_of_fits (h : D.OffsetsFit) {i : ℕ} (hi : i < D.elems.length) :
    ofOffset D i = .ok D.elems[i] := by
  have hcard : (i : ℤ) < D.fin - D.start + 1 := by
    rw [length_elems, card] at hi
    omega
  have hs := D.start_mem
  have hf := D.fin_mem
  have hτ := D.base.range_common_ptrdiffT
  have hlo := (D.base.common .ptrdiffT).lo_nonpos
  unfold OffsetsFit at h
  unfold ofOffset
  dsimp only
  rw [IntType.convert_of_inRange (by omega) (by omega),
    IntType.convert_of_inRange (by omega) (by omega), IntType.arith_of_inRange (by omega) (by omega)]
  show ofBase D (D.base.convert (D.start + i)) = _
  rw [IntType.convert_of_inRange (by omega) (by omega), ← val_getElem_elems D i hi, ofBase_val]

end Idom

/-! ## Tables with an entry for every element -/

section Tables

open Dom

variable {β : Type}

/-- The table of a function: its values in the order of the elements. -/
def tableOf (f : Idom D → β) : List β := D.elems.map f

@[simp]
theorem length_tableOf (f : Idom D → β) : (tableOf f).length = D.card := by
  simp [tableOf]

/-- The entry of an element. -/
theorem getElem?_tableOf (f : Idom D → β) (x : Idom D) : (tableOf f)[pos x]? = some (f x) := by
  unfold tableOf
  rw [List.getElem?_map, getElem?_pos]
  rfl

/-- Reading the entry of an element. -/
theorem readAt_tableOf (f : Idom D → β) (x : Idom D) :
    readAt (tableOf f) (pos x) = .ok (f x) := by
  unfold readAt
  rw [getElem?_tableOf]
  rfl

/-- **Every table with an entry for every element** is the table of a
function. -/
theorem exists_tableOf {tbl : List β} (h : tbl.length = D.card) :
    ∃ f : Idom D → β, tbl = tableOf f := by
  refine ⟨fun x => tbl.get ⟨pos x, h ▸ pos_lt x⟩, ?_⟩
  refine List.ext_getElem (by rw [length_tableOf, h]) (fun i hi hi' => ?_)
  simp only [tableOf, List.getElem_map, List.get_eq_getElem, pos_getElem]

/-- Writing the entry of an element. -/
theorem writeAt_tableOf (f : Idom D → β) (x : Idom D) (v : β) :
    writeAt (tableOf f) (pos x) v = .ok (tableOf (Function.update f x v)) := by
  unfold writeAt
  rw [if_pos (by simpa using pos_lt x)]
  congr 1
  refine List.ext_getElem (by simp) (fun i hi hi' => ?_)
  have he : i < D.elems.length := by simpa using hi'
  rw [List.getElem_set]
  simp only [tableOf, List.getElem_map]
  by_cases hx : pos x = i
  · have hget := getElem?_pos x
    rw [hx, List.getElem?_eq_getElem he, Option.some_inj] at hget
    rw [if_pos hx, hget, Function.update_self]
  · rw [if_neg hx, Function.update_of_ne]
    intro hex
    rw [← hex, pos_getElem] at hx
    exact hx rfl

/-- An empty table has no entries. -/
theorem readAt_nil (i : ℕ) : readAt ([] : List β) i = .error .undefined :=
  rfl

/-- The table of the identity. -/
theorem tableOf_id : tableOf (id : Idom D → Idom D) = D.elems :=
  List.map_id D.elems

/-- **`std::iota` fills in the elements** from the position it is started
at, where counting past the last is defined. -/
theorem iotaFrom_of_fits (h : D.IncrFits) (tbl : List (Idom D)) {i : ℕ}
    (hi : i + tbl.length = D.card) :
    Idom.iotaFrom D tbl (D.start + i) = .ok (D.elems.drop i) := by
  induction tbl generalizing i with
  | nil =>
    rw [List.drop_of_length_le (by simpa using hi.ge)]
    rfl
  | cons y rest ih =>
    have hlt : i < D.elems.length := by
      rw [List.length_cons] at hi
      rw [length_elems]
      omega
    have hval := val_getElem_elems D i hlt
    have hx := (D.elems[i]).property
    rw [List.drop_eq_getElem_cons hlt, Idom.iotaFrom, ← hval, Idom.ofBase_val, ok_bind, hval]
    rw [hval] at hx
    rcases lt_or_eq_of_le (hx.2.trans D.fin_mem.2) with hhi | hhi
    · rw [IntType.incr_of_lt (D.start_mem.1.trans hx.1) hhi]
      show Idom.iotaFrom D rest (D.start + i + 1) >>= _ = _
      rw [add_assoc, ← Nat.cast_succ, ih (by rw [Nat.succ_add]; exact hi)]
      rfl
    · -- the last element is the largest value: the increment wraps around unused
      have hfin : D.fin = D.base.hi := le_antisymm D.fin_mem.2 (hhi ▸ hx.2)
      have hrest : rest = [] := by
        unfold card at hi
        rw [List.length_cons] at hi
        exact List.eq_nil_of_length_eq_zero (by omega)
      obtain ⟨v, hv⟩ := Option.isSome_iff_exists.mp (IntType.incr_hi_isSome (h hfin))
      rw [hhi, hv, hrest, List.drop_of_length_le]
      · rfl
      · rw [length_elems]
        simp only [hrest, List.length_cons, List.length_nil] at hi
        exact hi.ge

/-- **`std::iota` counts past the largest value** of a type where that is
undefined. -/
theorem iotaFrom_of_not_fits (h : ¬ D.IncrFits) (tbl : List (Idom D)) {i : ℕ}
    (hi : i + tbl.length = D.card) (hne : tbl ≠ []) :
    Idom.iotaFrom D tbl (D.start + i) = .error .undefined := by
  unfold IncrFits at h
  rw [Classical.not_imp, not_not] at h
  induction tbl generalizing i with
  | nil => exact absurd rfl hne
  | cons y rest ih =>
    have hlt : i < D.elems.length := by
      rw [List.length_cons] at hi
      rw [length_elems]
      omega
    have hval := val_getElem_elems D i hlt
    have hx := (D.elems[i]).property
    rw [Idom.iotaFrom, ← hval, Idom.ofBase_val, ok_bind, hval]
    rw [hval] at hx
    unfold card at hi
    rw [List.length_cons] at hi
    rcases lt_or_eq_of_le (hx.2.trans D.fin_mem.2) with hhi | hhi
    · rw [IntType.incr_of_lt (D.start_mem.1.trans hx.1) hhi]
      show Idom.iotaFrom D rest (D.start + i + 1) >>= _ = _
      rw [add_assoc, ← Nat.cast_succ, ih (by unfold card; omega) ?_]
      · rfl
      · rintro rfl
        rw [List.length_nil] at hi
        omega
    · rw [hhi, IntType.incr_hi_of_overflows h.2]
      rfl

end Tables

end Permutations
