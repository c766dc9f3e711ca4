import CppGraduate.ParaCL.Interpreter

/-!
# The order of the operands

C++ leaves open which operand of an arithmetic operation or of a comparison
is evaluated first, anew in each evaluation. `calcAnyOrder` yields every end
a run can come to; the run that goes from left to right, `calc`, is one of
them.

Operands do not assign and do not print, but they share the input, so the
order can be seen where both of them read. It cannot where one of them has
no `?`: that one may stop the run, earlier or later, but takes nothing from
the input and yields the same wherever it is evaluated. Nor can it where
both are the same expression and the operation is symmetric.
-/

namespace ParaCL

/-! ## Runs that choose -/

/-- Computations that may go on in several ways: all their ends. -/
def AnyRun (α : Type) : Type := St → List (Except Stop α × St)

instance : Monad AnyRun where
  pure a := fun st => [(.ok a, st)]
  bind m f := fun st => (m st).flatMap fun x =>
    match x with
    | (.ok a, st') => f a st'
    | (.error e, st') => [(.error e, st')]

namespace AnyRun

variable {α β : Type}

/-- A computation that goes on in one way only. -/
def one (m : Run α) : AnyRun α := fun st => [m st]

/-- Two operands, the left one first or the right one first. -/
def both (l r : AnyRun Int32) (f : Int32 → Int32 → AnyRun Int32) : AnyRun Int32 := fun st =>
  (do let a ← l; let b ← r; f a b : AnyRun Int32) st
    ++ (do let b ← r; let a ← l; f a b : AnyRun Int32) st

/-- **The ends of one computation after another.** -/
theorem mem_bind {m : AnyRun α} {f : α → AnyRun β} {st : St} {x : Except Stop β × St} :
    x ∈ (m >>= f) st ↔ (∃ a st', (.ok a, st') ∈ m st ∧ x ∈ f a st')
      ∨ ∃ e st', (.error e, st') ∈ m st ∧ x = (.error e, st') := by
  show x ∈ (m st).flatMap _ ↔ _
  rw [List.mem_flatMap]
  constructor
  · rintro ⟨⟨a | e, st'⟩, hm, hx⟩
    · exact Or.inr ⟨_, st', hm, List.mem_singleton.mp hx⟩
    · exact Or.inl ⟨_, st', hm, hx⟩
  · rintro (⟨a, st', hm, hx⟩ | ⟨e, st', hm, rfl⟩)
    · exact ⟨_, hm, hx⟩
    · exact ⟨_, hm, List.mem_singleton.mpr rfl⟩

/-- The only end. -/
theorem mem_one {m : Run α} {st : St} {x : Except Stop α × St} : x ∈ one m st ↔ x = m st :=
  List.mem_singleton

/-- The ends of both orders. -/
theorem mem_both {l r : AnyRun Int32} {f : Int32 → Int32 → AnyRun Int32} {st : St}
    {x : Except Stop Int32 × St} :
    x ∈ both l r f st ↔ x ∈ (do let a ← l; let b ← r; f a b : AnyRun Int32) st
      ∨ x ∈ (do let b ← r; let a ← l; f a b : AnyRun Int32) st :=
  List.mem_append

/-- A value at once, and then the rest. -/
theorem pure_bind (a : α) (f : α → AnyRun β) : (pure a : AnyRun α) >>= f = f a := by
  funext st
  exact List.append_nil _

/-- Returning the value of a computation is the computation. -/
theorem bind_pure (m : AnyRun α) : (m >>= fun a => pure a) = m := by
  funext st
  show (m st).flatMap _ = m st
  conv_rhs => rw [← List.flatMap_singleton' (m st)]
  congr 1
  funext ⟨a, st'⟩
  cases a <;> rfl

end AnyRun

open AnyRun

/-- `while (Op_->calc()) Scope_->calc();`, with a bound on the passes -/
def whileLoopAnyOrder (op scope : AnyRun Int32) : ℕ → AnyRun Int32
  | 0 => one (Run.stop .outOfFuel)
  | fuel + 1 => do
    let v ← op
    if v = 0 then return 0
    else
      let _ ← scope
      whileLoopAnyOrder op scope fuel

/-- **`calc()` in any order of the operands**, with a bound on the passes of
each loop. `&&` and `||` have their order; a division evaluates its right
operand first, and then both. -/
def INode.calcAnyOrder (fuel : ℕ) : INode → AnyRun Int32
  | .null => one (Run.stop (.undefined .nullPointer))
  | .value val => return val
  | .decl id _ => one (Run.getValue id)
  | .emptyScope => return 0
  | .addBranch scope branch => do
    let _ ← scope.calcAnyOrder fuel
    let _ ← branch.calcAnyOrder fuel
    return 0
  | .whileNode op scope => whileLoopAnyOrder (op.calcAnyOrder fuel) (scope.calcAnyOrder fuel) fuel
  | .ifNode op scope => do
    let v ← op.calcAnyOrder fuel
    if v = 0 then return 0
    else
      let _ ← scope.calcAnyOrder fuel
      return 0
  | .operand left op right =>
    match op with
    | .plus =>
      if left.isNull then right.calcAnyOrder fuel
      else both (left.calcAnyOrder fuel) (right.calcAnyOrder fuel) fun l r => return l + r
    | .minus =>
      if left.isNull then do
        let r ← right.calcAnyOrder fuel
        return -r
      else both (left.calcAnyOrder fuel) (right.calcAnyOrder fuel) fun l r => return l - r
    | .greater =>
      both (left.calcAnyOrder fuel) (right.calcAnyOrder fuel) fun l r => return ofBool (l > r)
    | .less =>
      both (left.calcAnyOrder fuel) (right.calcAnyOrder fuel) fun l r => return ofBool (l < r)
    | .greaterEq =>
      both (left.calcAnyOrder fuel) (right.calcAnyOrder fuel) fun l r => return ofBool (l ≥ r)
    | .lessEq =>
      both (left.calcAnyOrder fuel) (right.calcAnyOrder fuel) fun l r => return ofBool (l ≤ r)
    | .assign => do
      let val ← right.calcAnyOrder fuel
      one (left.setValue val)
      return val
    | .stdOut => do
      let r ← right.calcAnyOrder fuel
      one (Run.printInt r)
      return 0
    | .stdIn => one Run.readInt
    | .equal =>
      both (left.calcAnyOrder fuel) (right.calcAnyOrder fuel) fun l r => return ofBool (l = r)
    | .notEqual =>
      both (left.calcAnyOrder fuel) (right.calcAnyOrder fuel) fun l r => return ofBool (l ≠ r)
    | .not => do
      let r ← right.calcAnyOrder fuel
      return ofBool (r = 0)
    | .and => do
      let l ← left.calcAnyOrder fuel
      if l = 0 then return 0
      else
        let r ← right.calcAnyOrder fuel
        return ofBool (r ≠ 0)
    | .or => do
      let l ← left.calcAnyOrder fuel
      if l = 0 then
        let r ← right.calcAnyOrder fuel
        return ofBool (r ≠ 0)
      else return 1
    | .div => do
      let val ← right.calcAnyOrder fuel
      if val = 0 then one (Run.stop (.exception "Division by zero"))
      else both (left.calcAnyOrder fuel) (right.calcAnyOrder fuel) fun l r => one (quotient l r)
    | .mul => both (left.calcAnyOrder fuel) (right.calcAnyOrder fuel) fun l r => return l * r
    | .mod =>
      both (left.calcAnyOrder fuel) (right.calcAnyOrder fuel) fun l r => one (remainder l r)

variable {fuel : ℕ} {left right n : INode} {op : Operation} {st st' : St}

/-! ## Ends that are alike -/

/-- An end is like another one: the same value in the same state, or none in
either run, with the same printed and the same values of the declarations.
Runs that were stopped by the bound on the passes are in the same state. -/
def Alike : Except Stop Int32 × St → Except Stop Int32 × St → Prop
  | (.ok v, st), y => y = (.ok v, st)
  | (.error e, st), y => ∃ e' st', y = (.error e', st') ∧ (e' = .outOfFuel ↔ e = .outOfFuel)
    ∧ st'.io.out = st.io.out ∧ st'.vals = st.vals ∧ (e = .outOfFuel → st' = st)

/-- All ends are like the end of one run. -/
def Covers (st : St) (m : Run Int32) (M : AnyRun Int32) : Prop := ∀ x ∈ M st, Alike (m st) x

/-- An end is like itself. -/
theorem Alike.refl (x : Except Stop Int32 × St) : Alike x x := by
  obtain ⟨v | e, st⟩ := x
  · exact ⟨_, _, rfl, Iff.rfl, rfl, rfl, fun _ => rfl⟩
  · rfl

/-- Where all ends are like one without a value, none has a value. -/
theorem Alike.eq_of_ok {x : Except Stop Int32 × St} {v : Int32} (h : Alike x (.ok v, st)) :
    x = (.ok v, st) := by
  obtain ⟨w | e, st'⟩ := x
  · obtain ⟨_, _, h, -⟩ := h
    cases h
  · exact h.symm

/-- Where one end has no value, the run that goes from left to right has
none. -/
theorem Alike.exists_of_error {x : Except Stop Int32 × St} {e : Stop}
    (h : Alike x (.error e, st)) : ∃ e' st', x = (.error e', st')
      ∧ (e = .outOfFuel ↔ e' = .outOfFuel) ∧ st.io.out = st'.io.out ∧ st.vals = st'.vals
      ∧ (e' = .outOfFuel → st = st') := by
  obtain ⟨e' | w, st'⟩ := x
  · obtain ⟨_, _, heq, hfuel, hout, hvals, hst⟩ := h
    cases heq
    exact ⟨e', st', rfl, hfuel, hout, hvals, hst⟩
  · cases congrArg Prod.fst h

/-- Where the run that goes from left to right was stopped by the bound, any
other one was. -/
theorem Alike.eq_of_outOfFuel {y : Except Stop Int32 × St} (h : Alike (.error .outOfFuel, st) y) :
    y = (.error .outOfFuel, st) := by
  obtain ⟨e, st', rfl, hfuel, -, -, hst⟩ := h
  rw [hfuel.mpr rfl, hst rfl]

/-- A value that some run yields is the one from left to right. -/
theorem Covers.eq_of_ok {m : Run Int32} {M : AnyRun Int32} {v : Int32} (h : Covers st m M)
    (hv : (.ok v, st') ∈ M st) : m st = (.ok v, st') := (h _ hv).eq_of_ok

/-- One way only. -/
theorem Covers.one (st : St) (m : Run Int32) : Covers st m (AnyRun.one m) := by
  intro x hx
  rw [mem_one.mp hx]
  exact Alike.refl _

/-- **One computation after another**: the second one begins in the states
in which the first one ends from left to right. -/
theorem Covers.bind {m : Run Int32} {M : AnyRun Int32} {f : Int32 → Run Int32}
    {F : Int32 → AnyRun Int32} (hm : Covers st m M)
    (hf : ∀ a st', m st = (.ok a, st') → Covers st' (f a) (F a)) :
    Covers st (m >>= f) (M >>= F) := by
  intro x hx
  rcases mem_bind.mp hx with ⟨a, st', ha, hx⟩ | ⟨e, st', he, rfl⟩
  · have hok := hm.eq_of_ok ha
    rw [Run.bind_ok hok]
    exact hf a st' hok x hx
  · obtain ⟨e', st'', herr, hlike⟩ := (hm _ he).exists_of_error
    rw [Run.bind_error herr]
    exact ⟨e, st', rfl, hlike⟩

/-! ## Computations that do not touch what is compared -/

/-- No end prints, assigns or runs out of passes. -/
def AnyRun.Quiet (M : AnyRun Int32) : Prop :=
  ∀ st, ∀ x ∈ M st, x.2.vals = st.vals ∧ x.2.io.out = st.io.out ∧ x.1 ≠ .error .outOfFuel

/-- What is known of an end without a value. -/
theorem AnyRun.Quiet.of_error {M : AnyRun Int32} (hM : M.Quiet) {e : Stop}
    (h : (.error e, st') ∈ M st) :
    st'.vals = st.vals ∧ st'.io.out = st.io.out ∧ e ≠ .outOfFuel :=
  ⟨(hM st _ h).1, (hM st _ h).2.1, fun he => (hM st _ h).2.2 (congrArg Except.error he)⟩

/-- One after another. -/
theorem AnyRun.Quiet.bind {M : AnyRun Int32} {F : Int32 → AnyRun Int32} (hM : M.Quiet)
    (hF : ∀ a, (F a).Quiet) : (M >>= F).Quiet := by
  intro st x hx
  rcases mem_bind.mp hx with ⟨a, st', ha, hx⟩ | ⟨e, st', he, rfl⟩
  · obtain ⟨hvals, hout, -⟩ := hM st _ ha
    obtain ⟨hvals', hout', hfuel⟩ := hF a st' x hx
    exact ⟨hvals'.trans hvals, hout'.trans hout, hfuel⟩
  · obtain ⟨hvals, hout, hfuel⟩ := hM.of_error he
    exact ⟨hvals, hout, fun h => hfuel (Except.error.inj h)⟩

/-- Both operands, in either order. -/
theorem AnyRun.Quiet.both {L R : AnyRun Int32} {f : Int32 → Int32 → AnyRun Int32} (hL : L.Quiet)
    (hR : R.Quiet) (hf : ∀ a b, (f a b).Quiet) : (AnyRun.both L R f).Quiet := by
  intro st x hx
  rcases mem_both.mp hx with hx | hx
  · exact hL.bind (fun a => hR.bind fun b => hf a b) st x hx
  · exact hR.bind (fun b => hL.bind fun a => hf a b) st x hx

/-- A value at once. -/
theorem AnyRun.Quiet.pure (v : Int32) : (Pure.pure v : AnyRun Int32).Quiet := by
  intro st x hx
  rw [List.mem_singleton.mp hx]
  exact ⟨rfl, rfl, nofun⟩

/-- An end without a value, at once. -/
theorem AnyRun.Quiet.stop {e : Stop} (h : e ≠ .outOfFuel) :
    (AnyRun.one (Run.stop e)).Quiet := by
  intro st x hx
  rw [mem_one.mp hx]
  exact ⟨rfl, rfl, fun he => h (Except.error.inj he)⟩

/-- Two ends without a value, of runs that leave alone what is compared. -/
theorem Alike.of_quiet {x : Except Stop Int32 × St} {e e' : Stop} {st₁ st₂ : St}
    (hx : x = (.error e, st₁)) (hq : st₁.vals = st.vals ∧ st₁.io.out = st.io.out ∧ e ≠ .outOfFuel)
    (hq' : st₂.vals = st.vals ∧ st₂.io.out = st.io.out ∧ e' ≠ .outOfFuel) :
    Alike x (.error e', st₂) := by
  rw [hx]
  exact ⟨e', st₂, rfl, iff_of_false hq'.2.2 hq.2.2, hq'.2.1.trans hq.2.1.symm,
    hq'.1.trans hq.1.symm, fun he => absurd he hq.2.2⟩

/-- A computation that reads and changes nothing: what it yields depends on
the values of the declarations alone. -/
def Run.Still (m : Run Int32) : Prop :=
  ∃ g : (ℕ → Option Int32) → Except Stop Int32, ∀ st, m st = (g st.vals, st)

/-- It ends where it began. -/
theorem Run.Still.exists_eq {m : Run Int32} (hm : m.Still) (st : St) : ∃ v, m st = (v, st) := by
  obtain ⟨g, hg⟩ := hm
  exact ⟨_, hg st⟩

/-- It yields the same where the declarations have the same values. -/
theorem Run.Still.same {m : Run Int32} (hm : m.Still) {v : Except Stop Int32}
    (h : m st = (v, st)) {st₁ : St} (hvals : st₁.vals = st.vals) : m st₁ = (v, st₁) := by
  obtain ⟨g, hg⟩ := hm
  cases (hg st).symm.trans h
  rw [hg, hvals]

/-- One after another. -/
theorem Run.Still.bind {m : Run Int32} {f : Int32 → Run Int32} (hm : m.Still)
    (hf : ∀ a, (f a).Still) : (m >>= f).Still := by
  obtain ⟨g, hg⟩ := hm
  choose h hh using hf
  refine ⟨fun vals => g vals >>= fun a => h a vals, fun st => ?_⟩
  show _ = (g st.vals >>= fun a => h a st.vals, st)
  cases hst : g st.vals with
  | ok a =>
    rw [Run.bind_ok ((hg st).trans (congrArg (·, st) hst)), hh]
    rfl
  | error e =>
    rw [Run.bind_error ((hg st).trans (congrArg (·, st) hst))]
    rfl

/-! ## Operands in either order -/

section Both

variable {l r : Run Int32} {L R : AnyRun Int32} {f : Int32 → Int32 → Run Int32}

/-- From left to right, the ends are alike if those of the operands are. -/
theorem Covers.leftFirst (hL : Covers st l L)
    (hR : ∀ a st', l st = (.ok a, st') → Covers st' r R) :
    Covers st (do let a ← l; let b ← r; f a b)
      (do let a ← L; let b ← R; AnyRun.one (f a b) : AnyRun Int32) :=
  hL.bind fun a st' ha => (hR a st' ha).bind fun b st'' _ => .one st'' (f a b)

/-- **An operand that neither reads nor changes anything** may be evaluated
first or last: on the left. -/
theorem Covers.both_of_left (hl : l.Still) (hL : ∀ st, Covers st l L)
    (hR : ∀ a st', l st = (.ok a, st') → Covers st' r R) (hqL : L.Quiet) (hqR : R.Quiet)
    (hlL : ∀ st, l st ∈ L st) :
    Covers st (do let a ← l; let b ← r; f a b) (AnyRun.both L R fun a b => AnyRun.one (f a b)) := by
  intro x hx
  rcases mem_both.mp hx with hx | hx
  · exact (hL st).leftFirst hR x hx
  obtain ⟨v, hleft⟩ := hl.exists_eq st
  -- the left operand yields the same after the right one
  have hafter : ∀ {st₁ : St}, st₁.vals = st.vals → l st₁ = (v, st₁) := hl.same hleft
  cases v with
  | ok a =>
    rw [Run.bind_ok hleft]
    rcases mem_bind.mp hx with ⟨b, st₁, hb, hx⟩ | ⟨e, st₁, he, rfl⟩
    · have hright := (hR a st hleft).eq_of_ok hb
      rw [Run.bind_ok hright]
      have hcov : Covers st₁ (l >>= fun a => f a b) (L >>= fun a => AnyRun.one (f a b)) :=
        (hL st₁).bind fun a st' _ => .one st' (f a b)
      have hlike := hcov x hx
      rwa [Run.bind_ok (hafter (hqR st _ hb).1)] at hlike
    · obtain ⟨e', st₂, hright, hlike⟩ := (hR a st hleft _ he).exists_of_error
      rw [Run.bind_error hright]
      exact ⟨e, st₁, rfl, hlike⟩
  | error e =>
    rw [Run.bind_error hleft]
    have hquiet := hqL.of_error (hleft ▸ hlL st)
    rcases mem_bind.mp hx with ⟨b, st₁, hb, hx⟩ | ⟨e', st₁, he, rfl⟩
    · obtain ⟨hvals, hout, -⟩ := hqR st _ hb
      rcases mem_bind.mp hx with ⟨a, st₂, ha, -⟩ | ⟨e', st₂, he, rfl⟩
      · cases congrArg Prod.fst ((hafter hvals).symm.trans ((hL st₁).eq_of_ok ha))
      · obtain ⟨hvals', hout', hfuel⟩ := hqL.of_error he
        exact Alike.of_quiet rfl hquiet ⟨hvals'.trans hvals, hout'.trans hout, hfuel⟩
    · exact Alike.of_quiet rfl hquiet (hqR.of_error he)

/-- So on the right. -/
theorem Covers.both_of_right (hr : r.Still) (hR : ∀ st, Covers st r R) (hL : Covers st l L)
    (hqL : L.Quiet) (hqR : R.Quiet) (hlL : ∀ st, l st ∈ L st) (hrR : ∀ st, r st ∈ R st) :
    Covers st (do let a ← l; let b ← r; f a b) (AnyRun.both L R fun a b => AnyRun.one (f a b)) := by
  intro x hx
  rcases mem_both.mp hx with hx | hx
  · exact hL.leftFirst (fun _ st' _ => hR st') x hx
  obtain ⟨v, hright⟩ := hr.exists_eq st
  -- what the right operand yields after the left one
  have hafter : ∀ {w : Except Stop Int32} {st₁ : St}, l st = (w, st₁) → r st₁ = (v, st₁) := by
    intro w st₁ hl
    have hvals := (hqL st _ (hlL st)).1
    rw [hl] at hvals
    exact hr.same hright hvals
  cases v with
  | ok b =>
    have hcov : Covers st (r >>= fun b => l >>= fun a => f a b)
        (R >>= fun b => L >>= fun a => AnyRun.one (f a b)) :=
      (hR st).bind fun b st' hb => by
        cases hright.symm.trans hb
        exact hL.bind fun a st'' _ => .one st'' (f a b)
    have hlike := hcov x hx
    rw [Run.bind_ok hright] at hlike
    cases hl : l st with
    | mk w st₁ =>
      cases w with
      | ok a =>
        rw [Run.bind_ok hl] at hlike ⊢
        rwa [Run.bind_ok (hafter hl)]
      | error e =>
        rw [Run.bind_error hl] at hlike ⊢
        exact hlike
  | error e =>
    rcases mem_bind.mp hx with ⟨b, st₁, hb, -⟩ | ⟨e', st₁, he, rfl⟩
    · cases congrArg Prod.fst (hright.symm.trans ((hR st).eq_of_ok hb))
    · have hend := hqR.of_error he
      cases hl : l st with
      | mk w st₂ =>
        have hquiet := hqL st _ (hlL st)
        rw [hl] at hquiet
        cases w with
        | ok a =>
          have hstop : e ≠ .outOfFuel := (hqR.of_error (hright ▸ hrR st)).2.2
          refine Alike.of_quiet ?_ ⟨hquiet.1, hquiet.2.1, hstop⟩ hend
          rw [Run.bind_ok hl, Run.bind_error (hafter hl)]
        | error e'' => exact Alike.of_quiet (Run.bind_error hl) (hqL.of_error (hl ▸ hlL st)) hend

/-- **The same operand twice**, of a symmetric operation. -/
theorem Covers.both_of_symm (hf : ∀ a b, f a b = f b a) (hL : Covers st l L)
    (hR : ∀ a st', l st = (.ok a, st') → Covers st' l L) :
    Covers st (do let a ← l; let b ← l; f a b) (AnyRun.both L L fun a b => AnyRun.one (f a b)) := by
  intro x hx
  rcases mem_both.mp hx with hx | hx
  · exact hL.leftFirst hR x hx
  · simp only [hf] at hx
    exact hL.leftFirst hR x hx

end Both

namespace INode

/-! ## From left to right is one way -/

/-- One after another. -/
theorem mem_bind_of_mem {α β : Type} {m : Run α} {M : AnyRun α} {f : α → Run β}
    {F : α → AnyRun β} (hm : m st ∈ M st) (hf : ∀ a st', f a st' ∈ F a st') :
    (m >>= f) st ∈ (M >>= F) st := by
  match h : m st with
  | (.ok a, st') =>
    rw [Run.bind_ok h]
    exact mem_bind.mpr (Or.inl ⟨a, st', h ▸ hm, hf a st'⟩)
  | (.error e, st') =>
    rw [Run.bind_error h]
    exact mem_bind.mpr (Or.inr ⟨e, st', h ▸ hm, rfl⟩)

/-- The passes of a loop. -/
theorem whileLoop_mem {o s : Run Int32} {O S : AnyRun Int32} (ho : ∀ st, o st ∈ O st)
    (hs : ∀ st, s st ∈ S st) (k : ℕ) (st : St) :
    whileLoop o s k st ∈ whileLoopAnyOrder O S k st := by
  induction k generalizing st with
  | zero => exact mem_one.mpr rfl
  | succ k ih =>
    refine mem_bind_of_mem (ho st) fun v st' => ?_
    split
    · exact mem_one.mpr rfl
    · exact mem_bind_of_mem (hs st') fun _ => ih

/-- **The run from left to right is one of the runs.** -/
theorem calc_mem_calcAnyOrder (fuel : ℕ) (n : INode) (st : St) :
    n.calc fuel st ∈ n.calcAnyOrder fuel st := by
  have hone : ∀ {α : Type} (m : Run α) (st : St), m st ∈ one m st := fun _ _ => mem_one.mpr rfl
  induction n generalizing st with
  | null | decl => exact hone _ st
  | value | emptyScope => exact hone (pure _) st
  | addBranch scope branch ihs ihb =>
    exact mem_bind_of_mem (ihs st) fun _ st' =>
      mem_bind_of_mem (ihb st') fun _ => hone (pure 0)
  | whileNode op scope iho ihs => exact whileLoop_mem iho ihs fuel st
  | ifNode op scope iho ihs =>
    refine mem_bind_of_mem (iho st) fun v st' => ?_
    split
    · exact hone (pure 0) st'
    · exact mem_bind_of_mem (ihs st') fun _ => hone (pure 0)
  | operand left op right ihl ihr =>
    have hboth : ∀ (f : Int32 → Int32 → Run Int32) (st : St),
        (do let a ← left.calc fuel; let b ← right.calc fuel; f a b : Run Int32) st
          ∈ both (left.calcAnyOrder fuel) (right.calcAnyOrder fuel) (fun a b => one (f a b)) st :=
      fun f st => mem_both.mpr (Or.inl (mem_bind_of_mem (ihl st) fun a st' =>
        mem_bind_of_mem (ihr st') fun b => hone (f a b)))
    cases op with
    | plus =>
      unfold INode.calc calcAnyOrder
      cases left.isNull
      · exact hboth (fun l r => pure (l + r)) st
      · exact ihr st
    | minus =>
      unfold INode.calc calcAnyOrder
      cases left.isNull
      · exact hboth (fun l r => pure (l - r)) st
      · exact mem_bind_of_mem (ihr st) fun r => hone (pure (-r))
    | greater => exact hboth (fun l r => pure (ofBool (l > r))) st
    | less => exact hboth (fun l r => pure (ofBool (l < r))) st
    | greaterEq => exact hboth (fun l r => pure (ofBool (l ≥ r))) st
    | lessEq => exact hboth (fun l r => pure (ofBool (l ≤ r))) st
    | equal => exact hboth (fun l r => pure (ofBool (l = r))) st
    | notEqual => exact hboth (fun l r => pure (ofBool (l ≠ r))) st
    | mul => exact hboth (fun l r => pure (l * r)) st
    | mod => exact hboth remainder st
    | assign =>
      exact mem_bind_of_mem (ihr st) fun v st' =>
        mem_bind_of_mem (hone (left.setValue v) st') fun _ => hone (pure v)
    | stdOut =>
      exact mem_bind_of_mem (ihr st) fun v st' =>
        mem_bind_of_mem (hone (Run.printInt v) st') fun _ => hone (pure 0)
    | stdIn => exact hone Run.readInt st
    | not => exact mem_bind_of_mem (ihr st) fun r => hone (pure (ofBool (r = 0)))
    | and =>
      refine mem_bind_of_mem (ihl st) fun l st' => ?_
      split
      · exact hone (pure 0) st'
      · exact mem_bind_of_mem (ihr st') fun r => hone (pure (ofBool (r ≠ 0)))
    | or =>
      refine mem_bind_of_mem (ihl st) fun l st' => ?_
      split
      · exact mem_bind_of_mem (ihr st') fun r => hone (pure (ofBool (r ≠ 0)))
      · exact hone (pure 1) st'
    | div =>
      refine mem_bind_of_mem (ihr st) fun val st' => ?_
      split
      · exact hone (Run.stop _) st'
      · exact hboth quotient st'

/-! ## Expressions -/

/-- **Operations leave open** which operand they evaluate first, except for
the logical ones; a division has evaluated its divisor before. -/
theorem calcAnyOrder_binary (hop : op.IsRel ∨ op.IsArith ∧ op ≠ .div)
    (hl : left.isNull = false) :
    (operand left op right).calcAnyOrder fuel
      = both (left.calcAnyOrder fuel) (right.calcAnyOrder fuel)
        fun a b => one (op.perform a b) := by
  unfold Operation.IsRel Operation.IsArith at hop
  cases op
  case plus | minus =>
    simp only [calcAnyOrder, hl, Bool.false_eq_true, if_false]
    rfl
  case mod => simp only [calcAnyOrder, remainder_eq]
  case div | assign | stdOut | stdIn | not | and | or => simp at hop
  all_goals rfl

/-- Operations on values print, assign and loop never. -/
theorem perform_quiet (op : Operation) (a b : Int32) : (one (op.perform a b)).Quiet := by
  unfold Operation.perform
  split
  · exact .pure _
  · exact .stop nofun

/-- **Conditions print, assign and loop never**, in whatever order. -/
theorem IsCond.quiet (h : n.IsCond) : (n.calcAnyOrder fuel).Quiet := by
  induction n with
  | value v => exact .pure v
  | decl id x =>
    intro st y hy
    rw [mem_one.mp hy]
    unfold Run.getValue
    split <;> exact ⟨rfl, rfl, nofun⟩
  | operand l op r ihl ihr =>
    rcases h.cases_operand with ⟨rfl, rfl, rfl⟩ | ⟨hop, hl, hr⟩ | ⟨rfl, hl, hr⟩ | ⟨rfl, -, hr⟩
      | ⟨hop, hl, hr⟩
    · intro st y hy
      rw [mem_one.mp hy]
      exact ⟨rfl, st.io.read_out, nofun⟩
    · rw [calcAnyOrder_binary hop hl.isNull]
      exact .both (ihl hl.isCond) (ihr hr.isCond) fun a b => perform_quiet op a b
    · refine (ihr hr.isCond).bind fun v => ?_
      split
      · exact .stop nofun
      · refine .both (ihl hl.isCond) (ihr hr.isCond) fun a b => ?_
        rw [quotient_eq]
        exact perform_quiet .div a b
    · exact (ihr hr).bind fun v => .pure _
    · rcases hop with rfl | rfl
      · refine (ihl hl).bind fun v => ?_
        split
        · exact .pure 0
        · exact (ihr hr).bind fun v => .pure _
      · refine (ihl hl).bind fun v => ?_
        split
        · exact (ihr hr).bind fun v => .pure _
        · exact .pure 1
  | _ => exact h.elim

/-- **An expression without `?`** reads and changes nothing. -/
theorem IsExpr.still (h : n.IsExpr) (hin : n.inputs = 0) : (n.calc fuel).Still := by
  have hpure : ∀ v : Int32, (pure v : Run Int32).Still := fun v => ⟨fun _ => .ok v, fun _ => rfl⟩
  have hstop : ∀ e : Stop, (Run.stop e : Run Int32).Still := fun e =>
    ⟨fun _ => .error e, fun _ => rfl⟩
  have hperform : ∀ (op : Operation) (a b : Int32), (op.perform a b).Still := by
    intro op a b
    unfold Operation.perform
    split
    · exact hpure _
    · exact hstop _
  induction n with
  | value v => exact hpure v
  | decl id x =>
    refine ⟨fun vals => (vals id).elim (.error (.undefined (.uninitialized id))) .ok, fun st => ?_⟩
    show Run.getValue id st = ((st.vals id).elim _ _, st)
    unfold Run.getValue
    cases st.vals id <;> rfl
  | operand l op r ihl ihr =>
    unfold inputs at hin
    rcases h.isCond.cases_operand with ⟨rfl, -⟩ | ⟨hop, hl, hr⟩ | ⟨rfl, hl, hr⟩ | ⟨rfl, -⟩
      | ⟨rfl | rfl, -⟩
    · cases hin
    · have hne : op ≠ .stdIn := by
        rintro rfl
        exact absurd hop (by decide)
      rw [if_neg hne, Nat.add_eq_zero_iff] at hin
      rw [calc_binary hop hl.isNull]
      exact (ihl hl hin.1).bind fun a => (ihr hr hin.2).bind fun b => hperform op a b
    · obtain ⟨hinl, hinr⟩ := Nat.add_eq_zero_iff.mp hin
      refine (ihr hr hinr).bind fun c => ?_
      split
      · exact hstop _
      · refine (ihl hl hinl).bind fun a => (ihr hr hinr).bind fun b => ?_
        rw [quotient_eq]
        exact hperform .div a b
    · simp [IsExpr, Operation.IsArith] at h
    · exact absurd rfl h.noAndOr.1
    · exact absurd rfl h.noAndOr.2.1
  | _ => exact h.elim

end INode

/-! ## The condition -/

/-- The operations that do not tell their operands apart. -/
def Operation.IsSymmetric (op : Operation) : Prop :=
  op = .plus ∨ op = .mul ∨ op = .equal ∨ op = .notEqual

/-- Neither do they when they are performed. -/
theorem Operation.IsSymmetric.perform_comm (h : op.IsSymmetric) (a b : Int32) :
    op.perform a b = op.perform b a := by
  unfold Operation.perform
  rcases h with rfl | rfl | rfl | rfl
  · simp only [Operation.apply, Int32.add_comm]
  · simp only [Operation.apply, Int32.mul_comm]
  · simp only [Operation.apply, eq_comm]
  · simp only [Operation.apply, ne_comm]

namespace INode

/-- **The condition on one operation**: of the operands of an arithmetic
operation or a comparison one has no `?`, or they are the same expression
and the operation is symmetric. -/
def OrderFree (left : INode) (op : Operation) (right : INode) : Prop :=
  op.IsArith ∨ op.IsRel →
    left.inputs = 0 ∨ right.inputs = 0 ∨ op.IsSymmetric ∧ left = right

/-- Without `?` every operation meets the condition. -/
theorem IsExpr.everywhere (h : n.IsExpr) (hin : n.inputs = 0) : n.Everywhere OrderFree := by
  induction n with
  | operand l op r ihl ihr =>
    unfold inputs at hin
    unfold IsExpr at h
    split_ifs at h hin with hop
    obtain ⟨hinl, hinr⟩ := Nat.add_eq_zero_iff.mp hin
    exact ⟨fun _ => Or.inl hinl, ihl h.2.1 hinl, ihr h.2.2 hinr⟩
  | value | decl => trivial
  | _ => exact h.elim

/-- Every operation a run visits meets the condition. -/
def VisitsOrderFree (fuel : ℕ) (n : INode) (st : St) : Prop :=
  ∀ l op r st', Visits fuel (n, st) (.operand l op r, st') → OrderFree l op r

/-- So does every operation of an evaluation it calls. -/
theorem VisitsOrderFree.sub {m : INode} (h : VisitsOrderFree fuel n st)
    (hsub : Sub fuel (n, st) (m, st')) : VisitsOrderFree fuel m st' :=
  fun l op r st'' hv => h l op r st'' (Visits.head hsub hv)

/-- **Both operands in either order**, under the condition. -/
theorem covers_both (hl : left.IsExpr) (hr : right.IsExpr)
    (hfree : left.inputs = 0 ∨ right.inputs = 0 ∨ op.IsSymmetric ∧ left = right)
    (ihl : ∀ {st}, VisitsOrderFree fuel left st →
      Covers st (left.calc fuel) (left.calcAnyOrder fuel))
    (ihr : ∀ {st}, VisitsOrderFree fuel right st →
      Covers st (right.calc fuel) (right.calcAnyOrder fuel))
    (hL : VisitsOrderFree fuel left st)
    (hR : ∀ a st', left.calc fuel st = (.ok a, st') → VisitsOrderFree fuel right st') :
    Covers st (do let a ← left.calc fuel; let b ← right.calc fuel; op.perform a b)
      (both (left.calcAnyOrder fuel) (right.calcAnyOrder fuel)
        fun a b => one (op.perform a b)) := by
  -- without `?` an operand may be evaluated anywhere
  have hany : ∀ {m : INode}, m.IsExpr → m.inputs = 0 → ∀ st, VisitsOrderFree fuel m st :=
    fun hm hin st l op r st' hv => (hm.everywhere hin).visits hv
  rcases hfree with hin | hin | ⟨hsymm, rfl⟩
  · exact .both_of_left (hl.still hin) (fun st => ihl (hany hl hin st))
      (fun a st' ha => ihr (hR a st' ha)) hl.isCond.quiet hr.isCond.quiet
      (left.calc_mem_calcAnyOrder fuel)
  · exact .both_of_right (hr.still hin) (fun st => ihr (hany hr hin st)) (ihl hL)
      hl.isCond.quiet hr.isCond.quiet (left.calc_mem_calcAnyOrder fuel)
      (right.calc_mem_calcAnyOrder fuel)
  · exact .both_of_symm hsymm.perform_comm (ihl hL) fun a st' ha => ihl (hR a st' ha)

/-- **Conditions under the condition** end alike in every order. -/
theorem IsCond.covers (h : n.IsCond) (hfree : VisitsOrderFree fuel n st) :
    Covers st (n.calc fuel) (n.calcAnyOrder fuel) := by
  induction n generalizing st with
  | value v => exact .one st (pure v)
  | decl id x => exact .one st (Run.getValue id)
  | operand l op r ihl ihr =>
    have hself : OrderFree l op r := hfree l op r st Relation.ReflTransGen.refl
    rcases h.cases_operand with ⟨rfl, rfl, rfl⟩ | ⟨hop, hl, hr⟩ | ⟨rfl, hl, hr⟩ | ⟨rfl, -, hr⟩
      | ⟨hop, hl, hr⟩
    · exact .one st Run.readInt
    · rw [calc_binary hop hl.isNull, calcAnyOrder_binary hop hl.isNull]
      refine covers_both hl hr (hself (hop.symm.imp And.left id)) (ihl hl.isCond)
        (ihr hr.isCond) (hfree.sub (.operand .nil (next_binary hop hl.isNull r 0).1))
        fun a st' ha => hfree.sub (.operand (Evaluated.nil.snoc ?_ ha) ?_)
      · exact (next_binary hop hl.isNull r a).1
      · exact (next_binary hop hl.isNull r a).2
    · refine (ihr hr.isCond (hfree.sub (.operand .nil rfl))).bind fun c st₁ hc => ?_
      split
      · exact .one st₁ _
      · next hne =>
        -- the divisor has been evaluated, and now both operands are
        have hdivisor : Evaluated fuel l .div r st [c] st₁ := Evaluated.nil.snoc rfl hc
        have hfirst : next l .div r [c] = some l := if_neg hne
        simp only [quotient_eq]
        exact covers_both hl hr (hself (Or.inl (by decide))) (ihl hl.isCond) (ihr hr.isCond)
          (hfree.sub (.operand hdivisor hfirst))
          fun a st' ha => hfree.sub (.operand (hdivisor.snoc hfirst ha) rfl)
    · exact (ihr hr (hfree.sub (.operand .nil rfl))).bind fun v st' _ =>
        .one st' (pure (ofBool (v = 0)))
    · rcases hop with rfl | rfl
      · refine (ihl hl (hfree.sub (.operand .nil rfl))).bind fun v st₁ hv => ?_
        split
        · exact .one st₁ (pure 0)
        · next hne =>
          refine (ihr hr (hfree.sub (.operand (Evaluated.nil.snoc rfl hv) (if_neg hne)))).bind
            fun w st₂ _ => ?_
          exact .one st₂ (pure (ofBool (w ≠ 0)))
      · refine (ihl hl (hfree.sub (.operand .nil rfl))).bind fun v st₁ hv => ?_
        split
        · next hzero =>
          refine (ihr hr (hfree.sub (.operand (Evaluated.nil.snoc rfl hv) (if_pos hzero)))).bind
            fun w st₂ _ => ?_
          exact .one st₂ (pure (ofBool (w ≠ 0)))
        · exact .one st₁ (pure 1)
  | _ => exact h.elim

/-! ## Whole runs -/

/-- **Statements under the condition** end alike in every order. -/
theorem Scoped.covers {env : Env} (h : n.Scoped env) (hfree : VisitsOrderFree fuel n st) :
    Covers st (n.calc fuel) (n.calcAnyOrder fuel) := by
  induction n generalizing st env with
  | emptyScope => exact .one st (pure 0)
  | addBranch scope branch ihs ihb =>
    exact (ihs h.1 (hfree.sub .scope)).bind fun _ st₁ hs =>
      (ihb h.2 (hfree.sub (.branch hs))).bind fun _ st₂ _ => .one st₂ (pure 0)
  | ifNode o s iho ihs =>
    refine (h.1.covers (hfree.sub .ifOp)).bind fun v st₁ ho => ?_
    split
    · exact .one st₁ (pure 0)
    · next hv =>
      exact (ihs h.2.2 (hfree.sub (.ifScope ho hv))).bind fun _ st₂ _ => .one st₂ (pure 0)
  | whileNode o s iho ihs =>
    -- by induction on the passes still allowed, from any pass on
    have hloop : ∀ k j st', j + k = fuel → LoopHead fuel o s st j st' →
        Covers st' (whileLoop (o.calc fuel) (s.calc fuel) k)
          (whileLoopAnyOrder (o.calcAnyOrder fuel) (s.calcAnyOrder fuel) k) := by
      intro k
      induction k with
      | zero => exact fun j st' _ _ => .one st' _
      | succ k ih =>
        intro j st' hj hhead
        have hlt : j < fuel := hj ▸ Nat.lt_add_of_pos_right (Nat.succ_pos k)
        refine (h.1.covers (hfree.sub (.whileOp hlt hhead))).bind fun v st₁ ho => ?_
        split
        · exact .one st₁ (pure 0)
        · next hv =>
          refine (ihs h.2.2 (hfree.sub (.whileScope hlt hhead ho hv))).bind fun w st₂ hs => ?_
          exact ih (j + 1) st₂ (by rw [← hj, Nat.add_right_comm, Nat.add_assoc])
            (hhead.succ ho hv hs)
    exact hloop fuel 0 st (Nat.zero_add _) .zero
  | operand l op r ihl ihr =>
    rcases h with ⟨rfl, -, hr, -⟩ | ⟨rfl, id, x, rfl, -, hr, -⟩
    · exact (hr.isCond.covers (hfree.sub (.operand .nil rfl))).bind fun v st₁ _ =>
        (Covers.one st₁ (do Run.printInt v; pure 0))
    · exact (hr.isCond.covers (hfree.sub (.operand .nil rfl))).bind fun v st₁ _ =>
        (Covers.one st₁ (do Run.setValue id v; pure v))
  | _ => exact h.elim

end INode

/-- **The same results**: the same integers are printed, the variables have
the same values, and the two runs end with the same value, or both without
one; both or none have run out of passes. -/
structure SameResults (x y : Except Stop Int32 × St) : Prop where
  /-- The printed sequence. -/
  printed : x.2.io.out = y.2.io.out
  /-- The values of the variables. -/
  values : x.2.vals = y.2.vals
  /-- The value at the end. -/
  value : ∀ v, x.1 = .ok v ↔ y.1 = .ok v
  /-- The passes. -/
  fuel : x.1 = .error .outOfFuel ↔ y.1 = .error .outOfFuel

/-- Ends that are like the same one are the same. -/
theorem Alike.sameResults {x y z : Except Stop Int32 × St} (hx : Alike z x) (hy : Alike z y) :
    SameResults x y := by
  obtain ⟨e | v, st⟩ := z
  · obtain ⟨e₁, st₁, rfl, hfuel₁, hout₁, hvals₁, -⟩ := hx
    obtain ⟨e₂, st₂, rfl, hfuel₂, hout₂, hvals₂, -⟩ := hy
    refine ⟨hout₁.trans hout₂.symm, hvals₁.trans hvals₂.symm, fun v => ⟨nofun, nofun⟩, ?_⟩
    simp only [Except.error.injEq]
    exact hfuel₁.trans hfuel₂.symm
  · cases hx
    cases hy
    exact ⟨rfl, rfl, fun _ => Iff.rfl, Iff.rfl⟩

/-- **The results do not depend on the order of the operands** in runs of
accepted programs that evaluate no arithmetic operation and no comparison
with a `?` in both operands, but for symmetric ones on the same expression
twice. -/
theorem parseProgram_sameResults {ss : Stms} {root : INode} {g : CodeGen} {io : Stdio}
    (hp : parseProgram ss = .ok (root, g))
    (hfree : ∀ l op r st, Visits fuel (root, St.start io) (.operand l op r, st) →
      INode.OrderFree l op r) :
    root.calc fuel (St.start io) ∈ root.calcAnyOrder fuel (St.start io)
      ∧ ∀ x ∈ root.calcAnyOrder fuel (St.start io),
        ∀ y ∈ root.calcAnyOrder fuel (St.start io), SameResults x y := by
  have hcov := (parseProgram_spec hp).1.covers hfree
  exact ⟨root.calc_mem_calcAnyOrder fuel _, fun x hx y hy => (hcov x hx).sameResults (hcov y hy)⟩

/-- `print ? + ?;` with the input 1 and 2. -/
theorem parseProgram_sameResults_sum :
    let root : INode := .addBranch .emptyScope (.operand .null .stdOut
      (.operand (.operand .null .stdIn .null) .plus (.operand .null .stdIn .null)))
    root.calc 0 (St.start (.ofList [1, 2])) ∈ root.calcAnyOrder 0 (St.start (.ofList [1, 2]))
      ∧ ∀ x ∈ root.calcAnyOrder 0 (St.start (.ofList [1, 2])),
        ∀ y ∈ root.calcAnyOrder 0 (St.start (.ofList [1, 2])), SameResults x y := by
  refine @parseProgram_sameResults 0 (.first (.output (.plus .input .input))) _ CodeGen.start
    (.ofList [1, 2]) rfl fun l op r st hv => ?_
  refine INode.Everywhere.visits hv (P := INode.OrderFree) ?_
  simp [INode.Everywhere, INode.OrderFree, INode.inputs, Operation.IsArith, Operation.IsRel,
    Operation.IsSymmetric]

/-- **Operands that both read** are told apart: `print ? - ?;` with the
input 1 and 2 prints -1 or 1. -/
theorem not_sameResults_difference :
    ¬ ∀ (ss : Stms) (root : INode) (g : CodeGen) (io : Stdio) (fuel : ℕ),
      parseProgram ss = .ok (root, g) → ∀ x ∈ root.calcAnyOrder fuel (St.start io),
        ∀ y ∈ root.calcAnyOrder fuel (St.start io), SameResults x y := by
  intro h
  have hsame := h (.first (.output (.minus .input .input))) _ CodeGen.start (.ofList [1, 2]) 0 rfl
  have hleft := hsame _ (List.mem_cons_self) _ (List.mem_cons_of_mem _ List.mem_cons_self)
  exact absurd hleft.printed (by decide)

end ParaCL
