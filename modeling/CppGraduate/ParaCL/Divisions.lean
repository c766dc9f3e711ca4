import CppGraduate.ParaCL.OperandOrder
import Mathlib.Data.List.ProdSigma

/-!
# The divisions of a run

The interpreter tests the divisor of `/` and not the one of `%`, and what it
tests is one evaluation of the divisor while it divides by another. So no
division is undefined, and a zero divisor ends the run with an exception,
where no quotient has a `?` in its divisor or overflows, and no remainder
has a divisor that may be zero or is out of range.

This holds in every order of the operands. `calcRecorded` is `calcAnyOrder`
with a record of the steps that matter: which divisions begin and in which
state, which values their divisors have, and on which values they are
performed. `Safely` is what a run with such a record guarantees where the
divisions it begins meet the condition, with a rule for each way to put runs
together.
-/

namespace ParaCL

/-! ## Runs with a record -/

/-- The steps of a division or a remainder. -/
inductive DivisionStep
  /-- It begins in a state. -/
  | begins (left : INode) (op : Operation) (right : INode) (st : St)
  /-- Its divisor was evaluated. -/
  | divisor (b : Int32)
  /-- It is performed. -/
  | divides (a b : Int32)

/-- Computations that may go on in several ways: what they record, and their
ends. -/
def Recorded (α : Type) : Type := St → List (List DivisionStep × Except Stop α × St)

instance : Monad Recorded where
  pure a := fun st => [([], .ok a, st)]
  bind m f := fun st => (m st).flatMap fun x =>
    match x with
    | (tr, .ok a, st') => (f a st').map fun y => (tr ++ y.1, y.2)
    | (tr, .error e, st') => [(tr, .error e, st')]

namespace Recorded

variable {α β : Type}

/-- A computation that goes on in one way only and records nothing. -/
def one (m : Run α) : Recorded α := fun st => [([], m st)]

/-- A step of a division. -/
def record (s : DivisionStep) : Recorded Unit := fun st => [([s], .ok (), st)]

/-- The beginning of a division. -/
def begins (left : INode) (op : Operation) (right : INode) : Recorded Unit := fun st =>
  [([.begins left op right st], .ok (), st)]

/-- The value of a divisor. -/
def divisor (m : Recorded Int32) : Recorded Int32 := do
  let b ← m
  record (.divisor b)
  return b

/-- Two operands, the left one first or the right one first. -/
def both (l r : Recorded Int32) (f : Int32 → Int32 → Recorded Int32) : Recorded Int32 := fun st =>
  (do let a ← l; let b ← r; f a b : Recorded Int32) st
    ++ (do let b ← r; let a ← l; f a b : Recorded Int32) st

/-- The ends without the record. -/
def ends (m : Recorded α) : AnyRun α := fun st => (m st).map Prod.snd

/-- **The ends and records of one computation after another.** -/
theorem mem_bind {m : Recorded α} {f : α → Recorded β} {st : St}
    {y : List DivisionStep × Except Stop β × St} :
    y ∈ (m >>= f) st ↔
      (∃ tr a st' z, (tr, .ok a, st') ∈ m st ∧ z ∈ f a st' ∧ y = (tr ++ z.1, z.2))
        ∨ ∃ tr e st', (tr, .error e, st') ∈ m st ∧ y = (tr, .error e, st') := by
  show y ∈ (m st).flatMap _ ↔ _
  rw [List.mem_flatMap]
  constructor
  · rintro ⟨⟨tr, a | e, st'⟩, hm, hy⟩
    · exact Or.inr ⟨tr, _, st', hm, List.mem_singleton.mp hy⟩
    · obtain ⟨z, hz, rfl⟩ := List.mem_map.mp hy
      exact Or.inl ⟨tr, _, st', z, hm, hz, rfl⟩
  · rintro (⟨tr, a, st', z, hm, hz, rfl⟩ | ⟨tr, e, st', hm, rfl⟩)
    · exact ⟨_, hm, List.mem_map.mpr ⟨z, hz, rfl⟩⟩
    · exact ⟨_, hm, List.mem_singleton.mpr rfl⟩

/-- The only end. -/
theorem mem_one {m : Run α} {st : St} {y : List DivisionStep × Except Stop α × St} :
    y ∈ one m st ↔ y = ([], m st) :=
  List.mem_singleton

/-- Both orders. -/
theorem mem_both {l r : Recorded Int32} {f : Int32 → Int32 → Recorded Int32} {st : St}
    {y : List DivisionStep × Except Stop Int32 × St} :
    y ∈ both l r f st ↔ y ∈ (do let a ← l; let b ← r; f a b : Recorded Int32) st
      ∨ y ∈ (do let b ← r; let a ← l; f a b : Recorded Int32) st :=
  List.mem_append

/-- One computation after another has the ends it would have without the
record. -/
@[simp]
theorem ends_bind (m : Recorded α) (f : α → Recorded β) :
    (m >>= f).ends = m.ends >>= fun a => (f a).ends := by
  funext st
  show ((m st).flatMap _).map Prod.snd = ((m st).map Prod.snd).flatMap _
  rw [List.map_flatMap, List.flatMap_map]
  congr 1
  funext ⟨tr, a, st'⟩
  cases a with
  | ok a => exact List.map_map
  | error e => rfl

@[simp]
theorem ends_pure (a : α) : (pure a : Recorded α).ends = pure a :=
  rfl

@[simp]
theorem ends_one (m : Run α) : (one m).ends = AnyRun.one m :=
  rfl

/-- What is recorded does not matter. -/
@[simp]
theorem ends_record (s : DivisionStep) : (record s).ends = pure () :=
  rfl

@[simp]
theorem ends_begins (left : INode) (op : Operation) (right : INode) :
    (begins left op right).ends = pure () :=
  rfl

@[simp]
theorem ends_both (l r : Recorded Int32) (f : Int32 → Int32 → Recorded Int32) :
    (both l r f).ends = AnyRun.both l.ends r.ends fun a b => (f a b).ends := by
  have hpair : ∀ (m m' : Recorded Int32) (g : Int32 → Int32 → Recorded Int32),
      (do let a ← m; let b ← m'; g a b : Recorded Int32).ends
        = (do let a ← m.ends; let b ← m'.ends; (g a b).ends : AnyRun Int32) := by
    intro m m' g
    simp only [ends_bind]
  funext st
  refine List.map_append.trans ?_
  exact congrArg₂ (· ++ ·) (congrFun (hpair l r f) st) (congrFun (hpair r l fun b a => f a b) st)

/-- A divisor is an operand. -/
@[simp]
theorem ends_divisor (m : Recorded Int32) : m.divisor.ends = m.ends := by
  simp only [divisor, ends_bind, ends_record, ends_pure, AnyRun.pure_bind, AnyRun.bind_pure]

end Recorded

/-- `while (Op_->calc()) Scope_->calc();`, with a bound on the passes -/
def whileLoopRecorded (op scope : Recorded Int32) : ℕ → Recorded Int32
  | 0 => Recorded.one (Run.stop .outOfFuel)
  | fuel + 1 => do
    let v ← op
    if v = 0 then return 0
    else
      let _ ← scope
      whileLoopRecorded op scope fuel

/-- **`calc()` in any order of the operands**, with a record of its
divisions. -/
def INode.calcRecorded (fuel : ℕ) : INode → Recorded Int32
  | .null => .one (Run.stop (.undefined .nullPointer))
  | .value val => return val
  | .decl id _ => .one (Run.getValue id)
  | .emptyScope => return 0
  | .addBranch scope branch => do
    let _ ← scope.calcRecorded fuel
    let _ ← branch.calcRecorded fuel
    return 0
  | .whileNode op scope => whileLoopRecorded (op.calcRecorded fuel) (scope.calcRecorded fuel) fuel
  | .ifNode op scope => do
    let v ← op.calcRecorded fuel
    if v = 0 then return 0
    else
      let _ ← scope.calcRecorded fuel
      return 0
  | .operand left op right =>
    match op with
    | .plus =>
      if left.isNull then right.calcRecorded fuel
      else .both (left.calcRecorded fuel) (right.calcRecorded fuel) fun l r => return l + r
    | .minus =>
      if left.isNull then do
        let r ← right.calcRecorded fuel
        return -r
      else .both (left.calcRecorded fuel) (right.calcRecorded fuel) fun l r => return l - r
    | .greater =>
      .both (left.calcRecorded fuel) (right.calcRecorded fuel) fun l r => return ofBool (l > r)
    | .less =>
      .both (left.calcRecorded fuel) (right.calcRecorded fuel) fun l r => return ofBool (l < r)
    | .greaterEq =>
      .both (left.calcRecorded fuel) (right.calcRecorded fuel) fun l r => return ofBool (l ≥ r)
    | .lessEq =>
      .both (left.calcRecorded fuel) (right.calcRecorded fuel) fun l r => return ofBool (l ≤ r)
    | .assign => do
      let val ← right.calcRecorded fuel
      Recorded.one (left.setValue val)
      return val
    | .stdOut => do
      let r ← right.calcRecorded fuel
      Recorded.one (Run.printInt r)
      return 0
    | .stdIn => .one Run.readInt
    | .equal =>
      .both (left.calcRecorded fuel) (right.calcRecorded fuel) fun l r => return ofBool (l = r)
    | .notEqual =>
      .both (left.calcRecorded fuel) (right.calcRecorded fuel) fun l r => return ofBool (l ≠ r)
    | .not => do
      let r ← right.calcRecorded fuel
      return ofBool (r = 0)
    | .and => do
      let l ← left.calcRecorded fuel
      if l = 0 then return 0
      else
        let r ← right.calcRecorded fuel
        return ofBool (r ≠ 0)
    | .or => do
      let l ← left.calcRecorded fuel
      if l = 0 then
        let r ← right.calcRecorded fuel
        return ofBool (r ≠ 0)
      else return 1
    | .div => do
      Recorded.begins left .div right
      let val ← right.calcRecorded fuel
      Recorded.record (.divisor val)
      if val = 0 then Recorded.one (Run.stop (.exception "Division by zero"))
      else Recorded.both (left.calcRecorded fuel) (right.calcRecorded fuel).divisor fun l r => do
        Recorded.record (.divides l r)
        Recorded.one (quotient l r)
    | .mul => .both (left.calcRecorded fuel) (right.calcRecorded fuel) fun l r => return l * r
    | .mod => do
      Recorded.begins left .mod right
      Recorded.both (left.calcRecorded fuel) (right.calcRecorded fuel).divisor fun l r => do
        Recorded.record (.divides l r)
        Recorded.one (remainder l r)

/-- The passes of a loop, without the record. -/
theorem ends_whileLoopRecorded (op scope : Recorded Int32) (k : ℕ) :
    (whileLoopRecorded op scope k).ends = whileLoopAnyOrder op.ends scope.ends k := by
  induction k with
  | zero => rfl
  | succ k ih =>
    simp only [whileLoopRecorded, whileLoopAnyOrder, Recorded.ends_bind, apply_ite Recorded.ends,
      Recorded.ends_pure, ih]

/-- **Without the record**, the ends are those of `calcAnyOrder`. -/
theorem INode.ends_calcRecorded (fuel : ℕ) (n : INode) :
    (n.calcRecorded fuel).ends = n.calcAnyOrder fuel := by
  induction n with
  | null | value | decl | emptyScope => rfl
  | addBranch scope branch ihs ihb =>
    simp only [calcRecorded, calcAnyOrder, Recorded.ends_bind, Recorded.ends_pure, ihs, ihb]
  | whileNode op scope iho ihs =>
    simp only [calcRecorded, calcAnyOrder, ends_whileLoopRecorded, iho, ihs]
  | ifNode op scope iho ihs =>
    simp only [calcRecorded, calcAnyOrder, Recorded.ends_bind, apply_ite Recorded.ends,
      Recorded.ends_pure, iho, ihs]
  | operand left op right ihl ihr =>
    cases op
    all_goals
      simp only [calcRecorded, calcAnyOrder, Recorded.ends_bind, Recorded.ends_both,
        Recorded.ends_begins, Recorded.ends_record, Recorded.ends_divisor, Recorded.ends_pure,
        Recorded.ends_one, apply_ite Recorded.ends, AnyRun.pure_bind, ihl, ihr]

/-- The ends of `calcAnyOrder` are those with a record. -/
theorem INode.mem_calcAnyOrder_iff {fuel : ℕ} {n : INode} {st : St} {x : Except Stop Int32 × St} :
    x ∈ n.calcAnyOrder fuel st ↔ ∃ tr, (tr, x) ∈ n.calcRecorded fuel st := by
  rw [← ends_calcRecorded]
  unfold Recorded.ends
  simp

variable {fuel : ℕ} {left right n : INode} {op : Operation} {st st' : St}

namespace INode

/-! ## The condition -/

/-- The pairs of values of two operands that take `m` and `n` integers, the
left one first or the right one first. -/
def pairs (L R : (ℕ → Int32) → List Int32) (m n : ℕ) (ints : ℕ → Int32) : List (Int32 × Int32) :=
  (L ints).product (R fun k => ints (m + k)) ++ (L fun k => ints (n + k)).product (R ints)

/-- **The values an expression can have**, in whatever order its operands
take the integers. -/
def values (vals : ℕ → Option Int32) : INode → (ℕ → Int32) → List Int32
  | .value val, _ => [val]
  | .decl id _, _ => (vals id).toList
  | .operand l op r, ints =>
    if op = .stdIn then [ints 0]
    else (pairs (l.values vals) (r.values vals) l.inputs r.inputs ints).filterMap
      fun p => op.apply p.1 p.2
  | _, _ => []

/-- The values two operands can have in a state. -/
def operands (left right : INode) (st : St) : List (Int32 × Int32) :=
  pairs (left.values st.vals) (right.values st.vals) left.inputs right.inputs st.io.next

/-- **The condition on one division**, in the state in which it begins. A
quotient has no `?` in its divisor, a remainder has a divisor that cannot be
zero, and neither one overflows. -/
structure SafeDivision (left : INode) (op : Operation) (right : INode) (st : St) : Prop where
  /-- The divisor of a quotient has no `?`. -/
  inputs : op = .div → right.inputs = 0
  /-- The divisor of a remainder is not zero, whether it is evaluated first
  or last. -/
  divisor : op = .mod → ∀ m, m = 0 ∨ m = left.inputs →
    0 ∉ right.values st.vals fun k => st.io.next (m + k)
  /-- The result is in range. -/
  range : (Int32.minValue, -1) ∉ operands left right st

/-- Two operands, in either order. -/
theorem mem_pairs {L R : (ℕ → Int32) → List Int32} {m k : ℕ} {ints : ℕ → Int32}
    {p : Int32 × Int32} :
    p ∈ pairs L R m k ints ↔ (p.1 ∈ L ints ∧ p.2 ∈ R fun i => ints (m + i))
      ∨ ((p.1 ∈ L fun i => ints (k + i)) ∧ p.2 ∈ R ints) := by
  obtain ⟨a, b⟩ := p
  unfold pairs
  rw [List.mem_append]
  exact or_congr List.pair_mem_product List.pair_mem_product

/-- The values of an operation. -/
theorem mem_values_operand {vals : ℕ → Option Int32} {ints : ℕ → Int32} {v : Int32}
    (hin : op ≠ .stdIn) :
    v ∈ (operand left op right).values vals ints
      ↔ ∃ p ∈ pairs (left.values vals) (right.values vals) left.inputs right.inputs ints,
        op.apply p.1 p.2 = some v := by
  rw [values, if_neg hin, List.mem_filterMap]

/-- **Without `?` an expression has one value**, whatever there is to
read. -/
theorem eq_of_mem_values {vals : ℕ → Option Int32} {ints ints' : ℕ → Int32} {a b : Int32}
    (hin : n.inputs = 0) (ha : a ∈ n.values vals ints) (hb : b ∈ n.values vals ints') : a = b := by
  induction n generalizing ints ints' a b with
  | value v => exact (List.mem_singleton.mp ha).trans (List.mem_singleton.mp hb).symm
  | decl id x =>
    have hid := Option.mem_toList.mp ha
    exact Option.some.inj (hid.symm.trans (Option.mem_toList.mp hb))
  | operand l op r ihl ihr =>
    unfold inputs at hin
    split_ifs at hin with hop
    obtain ⟨hinl, hinr⟩ := Nat.add_eq_zero_iff.mp hin
    obtain ⟨p, hp, hpa⟩ := (mem_values_operand hop).mp ha
    obtain ⟨q, hq, hqb⟩ := (mem_values_operand hop).mp hb
    -- each operand has one value, whenever it is evaluated
    have hleft : ∀ {i i' : ℕ → Int32}, p.1 ∈ l.values vals i → q.1 ∈ l.values vals i' →
        p.1 = q.1 := ihl hinl
    have hright : ∀ {i i' : ℕ → Int32}, p.2 ∈ r.values vals i → q.2 ∈ r.values vals i' →
        p.2 = q.2 := ihr hinr
    have hpq : p = q := by
      rcases mem_pairs.mp hp with ⟨hp₁, hp₂⟩ | ⟨hp₁, hp₂⟩ <;>
        rcases mem_pairs.mp hq with ⟨hq₁, hq₂⟩ | ⟨hq₁, hq₂⟩ <;>
        exact Prod.ext (hleft hp₁ hq₁) (hright hp₂ hq₂)
    rw [hpq, hqb] at hpa
    exact (Option.some.inj hpa).symm
  | _ => cases ha

end INode

open INode (SafeDivision)

/-- **No undefined division**: what a run records of its divisions and how
it ends. -/
structure DividesSafely {α : Type} (tr : List DivisionStep) (x : Except Stop α × St) : Prop where
  /-- Every division it performs is in range. -/
  defined : ∀ a b, .divides a b ∈ tr → b ≠ 0 ∧ ¬ (a = Int32.minValue ∧ b = -1)
  /-- It does not end in an undefined one. -/
  ends : ∀ a b, x.1 ≠ .error (.undefined (.division a b))
  /-- A divisor that is zero ends it. -/
  stops : .divisor 0 ∈ tr → x.1 = .error (.exception "Division by zero")

/-- One part of a run after another. -/
theorem DividesSafely.append {α β : Type} {tr tr' : List DivisionStep} {a : α}
    {x : Except Stop β × St} (h : DividesSafely tr ((.ok a, st) : Except Stop α × St))
    (h' : DividesSafely tr' x) : DividesSafely (tr ++ tr') x where
  defined a b hmem := (List.mem_append.mp hmem).elim (h.defined a b) (h'.defined a b)
  ends := h'.ends
  stops hmem := (List.mem_append.mp hmem).elim (fun hz => nomatch h.stops hz) h'.stops

/-- A run that goes on as it ended. -/
theorem DividesSafely.error {α β : Type} {tr : List DivisionStep} {e : Stop}
    (h : DividesSafely tr ((.error e, st) : Except Stop α × St)) :
    DividesSafely tr ((.error e, st) : Except Stop β × St) where
  defined := h.defined
  ends a b he := h.ends a b (congrArg Except.error (Except.error.inj he))
  stops hz := congrArg Except.error (Except.error.inj (h.stops hz))

/-- **What a computation guarantees** if the divisions it begins meet the
condition: it divides safely, and what it yields has a property. -/
def Safely {α : Type} (st : St) (m : Recorded α) (Q : α → St → Prop) : Prop :=
  ∀ y ∈ m st, (∀ l op r st₁, .begins l op r st₁ ∈ y.1 → SafeDivision l op r st₁) →
    DividesSafely y.1 y.2 ∧ ∀ a st', y.2 = (.ok a, st') → Q a st'

namespace Safely

variable {α β : Type} {m : Recorded α} {f : α → Recorded β} {Q Q' : α → St → Prop}
  {R : β → St → Prop}

/-- Less is guaranteed. -/
theorem mono (h : Safely st m Q) (hQ : ∀ a st', Q a st' → Q' a st') : Safely st m Q' :=
  fun y hy hb => ⟨(h y hy hb).1, fun a st' heq => hQ a st' ((h y hy hb).2 a st' heq)⟩

/-- **One computation after another.** -/
theorem bind (hm : Safely st m Q) (hf : ∀ a st', Q a st' → Safely st' (f a) R) :
    Safely st (m >>= f) R := by
  intro y hy hb
  rcases Recorded.mem_bind.mp hy with ⟨tr, a, st', z, ha, hz, rfl⟩ | ⟨tr, e, st', he, rfl⟩
  · obtain ⟨hd, hq⟩ := hm _ ha fun l op r st₁ h => hb l op r st₁ (List.mem_append_left _ h)
    obtain ⟨hd', hr⟩ :=
      hf a st' (hq a st' rfl) z hz fun l op r st₁ h => hb l op r st₁ (List.mem_append_right _ h)
    exact ⟨hd.append hd', hr⟩
  · exact ⟨(hm _ he hb).1.error, nofun⟩

/-- One way only, with a value. -/
theorem one {m : Run α} {a : α} (hm : m st = (.ok a, st')) (hQ : Q a st') :
    Safely st (Recorded.one m) Q := by
  intro y hy _
  rw [Recorded.mem_one.mp hy, hm]
  refine ⟨⟨nofun, nofun, nofun⟩, fun b st'' heq => ?_⟩
  cases heq
  exact hQ

/-- One way only, without a value, and not in a division. -/
theorem error {m : Run α} {e : Stop} (hm : m st = (.error e, st'))
    (he : ∀ a b, e ≠ .undefined (.division a b)) : Safely st (Recorded.one m) Q := by
  intro y hy _
  rw [Recorded.mem_one.mp hy, hm]
  exact ⟨⟨nofun, fun a b h => he a b (Except.error.inj h), nofun⟩, nofun⟩

/-- A value at once. -/
theorem pure {a : α} (h : Q a st) : Safely st (Pure.pure a : Recorded α) Q :=
  one (m := Pure.pure a) rfl h

/-- **A division begins**, and meets the condition. -/
theorem begins {f : Unit → Recorded α} (h : SafeDivision left op right st → Safely st (f ()) Q) :
    Safely st (Recorded.begins left op right >>= f) Q := by
  intro y hy hb
  rcases Recorded.mem_bind.mp hy with ⟨tr, _, _, z, hstep, hz, rfl⟩ | ⟨_, _, _, hstep, -⟩
  · cases List.mem_singleton.mp hstep
    have hsafe := hb left op right st (List.mem_append_left _ List.mem_cons_self)
    have hbegun : DividesSafely [.begins left op right st]
        ((.ok (), st) : Except Stop Unit × St) := ⟨by simp, nofun, by simp⟩
    obtain ⟨hd, hq⟩ := h hsafe z hz fun l op r st₁ h => hb l op r st₁ (List.mem_append_right _ h)
    exact ⟨hbegun.append hd, hq⟩
  · cases List.mem_singleton.mp hstep

/-- A step that is in order. -/
theorem record {s : DivisionStep} {f : Unit → Recorded α}
    (hs : DividesSafely [s] ((.ok (), st) : Except Stop Unit × St)) (h : Safely st (f ()) Q) :
    Safely st (Recorded.record s >>= f) Q := by
  refine bind (Q := fun _ st' => st' = st) (fun y hy _ => ?_) fun _ st' hst => hst ▸ h
  cases List.mem_singleton.mp hy
  exact ⟨hs, fun _ _ heq => (congrArg Prod.snd heq).symm⟩

/-- A divisor that is not zero. -/
theorem divisor_ne_zero {b : Int32} (hb : b ≠ 0) {f : Unit → Recorded α}
    (h : Safely st (f ()) Q) : Safely st (Recorded.record (.divisor b) >>= f) Q :=
  record ⟨by simp, nofun, fun hz => by simp [hb.symm] at hz⟩ h

/-- **The test of a divisor**: a zero ends the run with the exception. -/
theorem test {b : Int32} {M : Recorded α} (h : b ≠ 0 → Safely st M Q) :
    Safely st (do
      Recorded.record (.divisor b)
      if b = 0 then Recorded.one (Run.stop (.exception "Division by zero")) else M) Q := by
  by_cases hb : b = 0
  · intro y hy _
    rw [if_pos hb] at hy
    rcases Recorded.mem_bind.mp hy with ⟨tr, _, _, z, hstep, hz, rfl⟩ | ⟨_, _, _, hstep, -⟩
    · cases List.mem_singleton.mp hstep
      rw [Recorded.mem_one.mp hz]
      exact ⟨⟨by simp, nofun, fun _ => rfl⟩, nofun⟩
    · cases List.mem_singleton.mp hstep
  · rw [if_neg hb]
    exact divisor_ne_zero hb (h hb)

/-- A division on values in range. -/
theorem divides {a b : Int32} (hab : Ir.divisible a b) {f : Unit → Recorded α}
    (h : Safely st (f ()) Q) : Safely st (Recorded.record (.divides a b) >>= f) Q := by
  refine record ⟨fun a' b' hmem => ?_, nofun, by simp⟩ h
  cases List.mem_singleton.mp hmem
  simpa [Ir.divisible, imp_iff_not_or] using hab

/-- An operation that is defined on the values of its operands. -/
theorem perform {a b v : Int32} {Q : Int32 → St → Prop} (hv : op.apply a b = some v)
    (hQ : Q v st) : Safely st (Recorded.one (op.perform a b)) Q := by
  unfold Operation.perform
  rw [hv]
  exact pure hQ

/-- **Both operands**, in either order. -/
theorem both {l r : Recorded Int32} {f : Int32 → Int32 → Recorded Int32} {Q : Int32 → St → Prop}
    (hlr : Safely st (do let a ← l; let b ← r; f a b : Recorded Int32) Q)
    (hrl : Safely st (do let b ← r; let a ← l; f a b : Recorded Int32) Q) :
    Safely st (Recorded.both l r f) Q :=
  fun y hy => (Recorded.mem_both.mp hy).elim (hlr y) (hrl y)

end Safely

namespace INode

/-! ## Expressions -/

/-- What an expression yields: one of its values, after reading once for
each `?`. -/
def YieldsValue (n : INode) (st : St) (v : Int32) (st' : St) : Prop :=
  v ∈ n.values st.vals st.io.next ∧ st' = st.skip n.inputs

/-- **Two operands yield values they can have**, in either order. -/
theorem safely_both {L R : Recorded Int32} {f : Int32 → Int32 → Recorded Int32}
    {Q : Int32 → St → Prop} (hl : ∀ st, Safely st L (left.YieldsValue st))
    (hr : ∀ m, m = 0 ∨ m = left.inputs → Safely (st.skip m) R (right.YieldsValue (st.skip m)))
    (hf : ∀ p ∈ operands left right st,
      Safely (st.skip (left.inputs + right.inputs)) (f p.1 p.2) Q) :
    Safely st (Recorded.both L R f) Q := by
  refine .both ((hl st).bind ?_) ((hr 0 (Or.inl rfl)).bind ?_)
  · rintro a _ ⟨ha, rfl⟩
    refine (hr left.inputs (Or.inr rfl)).bind ?_
    rintro b _ ⟨hb, rfl⟩
    rw [St.skip_vals, St.next_skip] at hb
    rw [St.skip_skip]
    exact hf (a, b) (mem_pairs.mpr (Or.inl ⟨ha, hb⟩))
  · rintro b _ ⟨hb, rfl⟩
    refine (hl _).bind ?_
    rintro a _ ⟨ha, rfl⟩
    rw [St.skip_zero] at hb ha ⊢
    rw [St.skip_vals, St.next_skip] at ha
    rw [St.skip_skip, Nat.add_comm]
    exact hf (a, b) (mem_pairs.mpr (Or.inr ⟨ha, hb⟩))

/-- **Operations other than divisions** leave open which operand they
evaluate first. -/
theorem calcRecorded_binary (hop : op.IsRel ∨ op = .plus ∨ op = .minus ∨ op = .mul)
    (hl : left.isNull = false) :
    (operand left op right).calcRecorded fuel
      = .both (left.calcRecorded fuel) (right.calcRecorded fuel)
        fun a b => .one (op.perform a b) := by
  unfold Operation.IsRel at hop
  cases op
  case plus | minus =>
    simp only [calcRecorded, hl, Bool.false_eq_true, if_false]
    rfl
  case div | mod | assign | stdOut | stdIn | not | and | or => simp at hop
  all_goals rfl

/-- A value of an operation, after the values of its operands. -/
theorem yields_operand {p : Int32 × Int32} {v : Int32} (hin : op ≠ .stdIn)
    (hp : p ∈ operands left right st) (hv : op.apply p.1 p.2 = some v) :
    (operand left op right).YieldsValue st v (st.skip (left.inputs + right.inputs)) := by
  refine ⟨(mem_values_operand hin).mpr ⟨p, hp, hv⟩, ?_⟩
  rw [inputs, if_neg hin]

section Operand

variable (ihl : ∀ st, Safely st (left.calcRecorded fuel) (left.YieldsValue st))
  (ihr : ∀ st, Safely st (right.calcRecorded fuel) (right.YieldsValue st))

include ihl ihr

/-- **A division on operands that can only have values in its range.** -/
theorem safely_divides (hop : op = .div ∨ op = .mod)
    (hne : ∀ m, m = 0 ∨ m = left.inputs → 0 ∉ right.values st.vals fun k => st.io.next (m + k))
    (hrange : (Int32.minValue, -1) ∉ operands left right st) :
    Safely st
      (Recorded.both (left.calcRecorded fuel) (right.calcRecorded fuel).divisor fun l r => do
        Recorded.record (.divides l r)
        Recorded.one (op.perform l r))
      ((operand left op right).YieldsValue st) := by
  have hin : op ≠ .stdIn := by
    rintro rfl
    simp at hop
  have hdivisor : ∀ m, m = 0 ∨ m = left.inputs →
      Safely (st.skip m) (right.calcRecorded fuel).divisor (right.YieldsValue (st.skip m)) := by
    refine fun m hm => (ihr _).bind fun b st' hb => ?_
    refine .divisor_ne_zero (fun hzero => hne m hm ?_) (.pure hb)
    rw [← hzero, ← St.next_skip]
    exact hb.1
  refine safely_both ihl hdivisor fun p hp => ?_
  have hzero : p.2 ≠ 0 := by
    intro hz
    rcases mem_pairs.mp hp with ⟨-, hr⟩ | ⟨-, hr⟩
    · exact hne left.inputs (Or.inr rfl) (hz ▸ hr)
    · refine hne 0 (Or.inl rfl) ?_
      simpa only [Nat.zero_add, hz] using hr
  have hpair : p.1 = Int32.minValue → p.2 ≠ -1 := fun h₁ h₂ =>
    hrange (by rwa [← h₁, ← h₂])
  have hdiv : Ir.divisible p.1 p.2 := by
    simp [Ir.divisible, hzero, imp_iff_not_or.mp hpair]
  obtain ⟨v, hv⟩ : ∃ v, op.apply p.1 p.2 = some v := by
    rcases hop with rfl | rfl
    · exact ⟨_, if_pos hdiv⟩
    · exact ⟨_, if_pos hdiv⟩
  exact .divides hdiv (.perform hv (yields_operand hin hp hv))

/-- **An operation yields one of its values**, in whatever order its operands
are evaluated. -/
theorem safely_operand (hop : op.IsRel ∨ op.IsArith) (hl : left.isNull = false) (st : St) :
    Safely st ((operand left op right).calcRecorded fuel)
      ((operand left op right).YieldsValue st) := by
  by_cases hdiv : op = .div
  · subst hdiv
    refine .begins fun hsafe => (ihr st).bind ?_
    rintro c _ ⟨hc, rfl⟩
    refine .test fun hne => ?_
    have hzero := hsafe.inputs rfl
    rw [hzero, St.skip_zero]
    simp only [quotient_eq]
    -- the divisor has the value that was tested whenever it is evaluated
    exact safely_divides ihl ihr (Or.inl rfl)
      (fun m _ h => hne (eq_of_mem_values hzero hc h)) hsafe.range
  by_cases hmod : op = .mod
  · subst hmod
    refine .begins fun hsafe => ?_
    simp only [remainder_eq]
    exact safely_divides ihl ihr (Or.inr rfl) (hsafe.divisor rfl) hsafe.range
  · have hother : op.IsRel ∨ op = .plus ∨ op = .minus ∨ op = .mul := by
      unfold Operation.IsArith at hop
      tauto
    have hin : op ≠ .stdIn := by
      rintro rfl
      exact absurd hop (by decide)
    rw [calcRecorded_binary hother hl]
    refine safely_both ihl (fun m _ => ihr _) fun p hp => ?_
    obtain ⟨v, hv⟩ := Operation.exists_apply hother p.1 p.2
    exact .perform hv (yields_operand hin hp hv)

end Operand

/-- **Expressions** yield one of their values. -/
theorem IsExpr.safely (h : n.IsExpr) (st : St) :
    Safely st (n.calcRecorded fuel) (n.YieldsValue st) := by
  induction n generalizing st with
  | value v => exact .pure ⟨List.mem_singleton.mpr rfl, rfl⟩
  | decl id x =>
    cases hid : st.vals id with
    | some v =>
      have hget : Run.getValue id st = (.ok v, st) := by simp only [Run.getValue, hid]
      exact .one hget ⟨Option.mem_toList.mpr hid, rfl⟩
    | none =>
      have hget : Run.getValue id st = (.error (.undefined (.uninitialized id)), st) := by
        simp only [Run.getValue, hid]
      exact .error hget (by simp)
  | operand l op r ihl ihr =>
    unfold IsExpr at h
    split_ifs at h with hin
    · obtain ⟨rfl, rfl⟩ := h
      subst hin
      exact .one (m := Run.readInt) rfl ⟨List.mem_singleton.mpr rfl, rfl⟩
    · exact safely_operand (ihl h.2.1) (ihr h.2.2) (Or.inr h.1) h.2.1.isNull st
  | _ => exact h.elim

/-! ## Conditions and statements -/

/-- **Conditions** divide safely. -/
theorem IsCond.safely (h : n.IsCond) (st : St) :
    Safely st (n.calcRecorded fuel) fun _ _ => True := by
  induction n generalizing st with
  | value | decl => exact (IsExpr.safely h st).mono fun _ _ _ => trivial
  | operand l op r ihl ihr =>
    have hexpr : (op.IsRel ∨ op.IsArith) → l.IsExpr → r.IsExpr →
        Safely st ((operand l op r).calcRecorded fuel) fun _ _ => True := fun hop hl hr =>
      (safely_operand hl.safely hr.safely hop hl.isNull st).mono fun _ _ _ => trivial
    rcases h.cases_operand with ⟨rfl, rfl, rfl⟩ | ⟨hop, hl, hr⟩ | ⟨rfl, hl, hr⟩ | ⟨rfl, -, hr⟩
      | ⟨hop, hl, hr⟩
    · exact .one (m := Run.readInt) rfl trivial
    · exact hexpr (hop.imp id And.left) hl hr
    · exact hexpr (Or.inr (by decide)) hl hr
    · exact (ihr hr st).bind fun v st' _ => .pure trivial
    · rcases hop with rfl | rfl
      · refine (ihl hl st).bind fun v st' _ => ?_
        split
        · exact .pure trivial
        · exact (ihr hr st').bind fun w st'' _ => .pure trivial
      · refine (ihl hl st).bind fun v st' _ => ?_
        split
        · exact (ihr hr st').bind fun w st'' _ => .pure trivial
        · exact .pure trivial
  | _ => exact h.elim

/-- **Statements** divide safely. -/
theorem Scoped.safely {env : Env} (h : n.Scoped env) (st : St) :
    Safely st (n.calcRecorded fuel) fun _ _ => True := by
  induction n generalizing st env with
  | emptyScope => exact .pure trivial
  | addBranch scope branch ihs ihb =>
    exact (ihs h.1 st).bind fun _ st₁ _ => (ihb h.2 st₁).bind fun _ st₂ _ => .pure trivial
  | ifNode o s iho ihs =>
    refine (h.1.safely st).bind fun v st₁ _ => ?_
    split
    · exact .pure trivial
    · exact (ihs h.2.2 st₁).bind fun _ st₂ _ => .pure trivial
  | whileNode o s iho ihs =>
    -- by induction on the passes still allowed
    have hloop : ∀ k st, Safely st
        (whileLoopRecorded (o.calcRecorded fuel) (s.calcRecorded fuel) k) fun _ _ => True := by
      intro k
      induction k with
      | zero => exact fun st => .error (m := Run.stop .outOfFuel) rfl (by simp)
      | succ k ih =>
        intro st
        refine (h.1.safely st).bind fun v st₁ _ => ?_
        split
        · exact .pure trivial
        · exact (ihs h.2.2 st₁).bind fun _ st₂ _ => ih st₂
    exact hloop fuel st
  | operand l op r ihl ihr =>
    rcases h with ⟨rfl, -, hr, -⟩ | ⟨rfl, id, x, rfl, -, hr, -⟩
    · refine (hr.safely st).bind fun v st₁ _ => .bind (Q := fun _ _ => True) ?_ ?_
      · exact .one (m := Run.printInt v) rfl trivial
      · exact fun _ st₂ _ => .pure trivial
    · refine (hr.safely st).bind fun v st₁ _ => .bind (Q := fun _ _ => True) ?_ ?_
      · exact .one (m := Run.setValue id v) rfl trivial
      · exact fun _ st₂ _ => .pure trivial
  | _ => exact h.elim

end INode

/-- **Runs of accepted programs** in any order of the operands perform no
undefined division, and end with the exception where a divisor is zero, if
every division they begin meets the condition. -/
theorem parseProgram_dividesSafely {ss : Stms} {root : INode} {g : CodeGen}
    (hp : parseProgram ss = .ok (root, g)) :
    (∀ x, x ∈ root.calcAnyOrder fuel st ↔ ∃ tr, (tr, x) ∈ root.calcRecorded fuel st)
      ∧ ∀ tr x, (tr, x) ∈ root.calcRecorded fuel st →
        (∀ l op r st', .begins l op r st' ∈ tr → SafeDivision l op r st') → DividesSafely tr x :=
  ⟨fun _ => INode.mem_calcAnyOrder_iff,
    fun _ _ hx hsafe => ((parseProgram_spec hp).1.safely st _ hx hsafe).1⟩

/-- `print 6/2;` divides safely. -/
theorem parseProgram_dividesSafely_half :
    DividesSafely [.begins (.value 6) .div (.value 2) (St.start (.ofList [])), .divisor 2,
        .divisor 2, .divides 6 2]
      ((.ok 0, ⟨fun _ => none, (Stdio.ofList []).print 3⟩) : Except Stop Int32 × St) := by
  refine (@parseProgram_dividesSafely 0 (St.start (.ofList []))
    (.first (.output (.div (.value 6) (.value 2)))) _ CodeGen.start rfl).2 _ _
    List.mem_cons_self fun l op r st' hstep => ?_
  simp only [List.mem_cons, DivisionStep.begins.injEq, reduceCtorEq, List.not_mem_nil, or_false]
    at hstep
  obtain ⟨rfl, rfl, rfl, rfl⟩ := hstep
  exact ⟨fun _ => rfl, nofun, by decide⟩

/-- `print 1%0;` takes a remainder by zero. -/
theorem not_dividesSafely_remainderByZero :
    ¬ ∀ (ss : Stms) (root : INode) (g : CodeGen) (fuel : ℕ) (io : Stdio) (tr : List DivisionStep)
      (x : Except Stop Int32 × St), parseProgram ss = .ok (root, g) →
      (tr, x) ∈ root.calcRecorded fuel (St.start io) → DividesSafely tr x := by
  intro h
  exact (h (.first (.output (.mod (.value 1) (.value 0)))) _ _ 0 (.ofList []) _ _ rfl
    List.mem_cons_self).ends 1 0 rfl

end ParaCL
