import Mathlib.Data.Nat.Notation

/-!
# Programs that may throw

A program works on a state and ends with a value or with an exception; what
it did to the state before it threw stays done. A program may also have no
result at all: it did something undefined, or an assertion failed.

Destructors do not throw, so what a scope runs on its way out is a partial
function on states.

`Triple` is total: from every state of the precondition the program has a
result. It has two postconditions, one for each way to end. `PartialTriple` says
the same of a program that may have none.
-/

/-- **A program** on states `σ` with exceptions `ε`. -/
def Prog (σ ε α : Type) : Type := σ → Option (Except ε α × σ)

namespace Prog

variable {σ ε α β : Type}

instance : Monad (Prog σ ε) where
  pure a := fun s => some (.ok a, s)
  bind m f := fun s =>
    match m s with
    | some (.ok a, s') => f a s'
    | some (.error e, s') => some (.error e, s')
    | none => none

/-- An exception. -/
def raise (e : ε) : Prog σ ε α := fun s => some (.error e, s)

/-- No result. -/
def stuck : Prog σ ε α := fun _ => none

/-- `assert` -/
def assert (c : Prop) [Decidable c] : Prog σ ε Unit := if c then pure () else stuck

/-- Something read off the state, where it is there. -/
def ask (f : σ → Option α) : Prog σ ε α := fun s => (f s).map fun a => (.ok a, s)

/-- A change of the state that does not throw, where it is defined. -/
def update (f : σ → Option σ) : Prog σ ε Unit := fun s => (f s).map fun s' => (.ok (), s')

/-- `try { m } catch (...) { cleanup; throw; }` -/
def onThrow (m : Prog σ ε α) (cleanup : σ → Option σ) : Prog σ ε α := fun s =>
  match m s with
  | some (.error e, s') => (cleanup s').map fun s'' => (.error e, s'')
  | r => r

/-- A scope: what is run on the way out, whichever way that is. -/
def leaving (m : Prog σ ε α) (cleanup : σ → Option σ) : Prog σ ε α := fun s =>
  match m s with
  | some (r, s') => (cleanup s').map fun s'' => (r, s'')
  | none => none

/-- A program that works on a part of the state. -/
def onPart {τ : Type} (get : τ → σ) (set : σ → τ → τ) (m : Prog σ ε α) : Prog τ ε α := fun t =>
  (m (get t)).map fun r => (r.1, set r.2 t)

/-! ## Runs -/

section Run

variable {s s' : σ} {a : α}

theorem ask_of_some {f : σ → Option α} (h : f s = some a) :
    (ask f : Prog σ ε α) s = some (.ok a, s) := by
  unfold ask
  rw [h, Option.map_some]

theorem update_of_some {f : σ → Option σ} (h : f s = some s') :
    (update f : Prog σ ε Unit) s = some (.ok (), s') := by
  unfold update
  rw [h, Option.map_some]

theorem bind_run (m : Prog σ ε α) (f : α → Prog σ ε β) (s : σ) :
    (m >>= f) s = match m s with
      | some (.ok a, s') => f a s'
      | some (.error e, s') => some (.error e, s')
      | none => none := rfl

/-- A program whose first part ends with a value. -/
theorem bind_of_ok {m : Prog σ ε α} {f : α → Prog σ ε β} (h : m s = some (.ok a, s')) :
    (m >>= f) s = f a s' := by
  rw [bind_run, h]

/-- A program whose first part throws. -/
theorem bind_of_error {m : Prog σ ε α} {f : α → Prog σ ε β} {e : ε}
    (h : m s = some (.error e, s')) : (m >>= f) s = some (.error e, s') := by
  rw [bind_run, h]

/-- A program whose first part has no result. -/
theorem bind_of_none {m : Prog σ ε α} {f : α → Prog σ ε β} (h : m s = none) :
    (m >>= f) s = none := by
  rw [bind_run, h]

/-- A scope that is left one way or the other. -/
theorem leaving_of_some {m : Prog σ ε α} {cleanup : σ → Option σ} {r : Except ε α}
    (h : m s = some (r, s')) :
    m.leaving cleanup s = (cleanup s').map fun s'' => (r, s'') := by
  unfold Prog.leaving
  rw [h]

theorem onPart_of_ok {τ : Type} {get : τ → σ} {set : σ → τ → τ} {m : Prog σ ε α} {t : τ}
    (h : m (get t) = some (.ok a, s')) : m.onPart get set t = some (.ok a, set s' t) := by
  unfold onPart
  rw [h, Option.map_some]

end Run

/-! ## Triples -/

/-- What holds of a result and of the state after it. -/
def Ends (Q : α → σ → Prop) (R : ε → σ → Prop) : Except ε α × σ → Prop
  | (.ok a, s) => Q a s
  | (.error e, s) => R e s

/-- **From a state of `P` the program has a result**: a value and a state of
`Q`, or an exception and a state of `R`. -/
def Triple (P : σ → Prop) (m : Prog σ ε α) (Q : α → σ → Prop) (R : ε → σ → Prop) : Prop :=
  ∀ s, P s → ∃ r, m s = some r ∧ Ends Q R r

variable {P P' : σ → Prop} {Q Q' : α → σ → Prop} {R R' : ε → σ → Prop} {m : Prog σ ε α}

/-- The state a program begins in can be named. -/
theorem Triple.of_forall (h : ∀ s₀, P s₀ → Triple (· = s₀) m Q R) : Triple P m Q R :=
  fun s hs => h s hs s rfl

/-- More is assumed, less is promised. -/
theorem Triple.conseq (h : Triple P m Q R) (hP : ∀ s, P' s → P s) (hQ : ∀ a s, Q a s → Q' a s)
    (hR : ∀ e s, R e s → R' e s) : Triple P' m Q' R' := by
  intro s hs
  obtain ⟨r, hr, hend⟩ := h s (hP s hs)
  refine ⟨r, hr, ?_⟩
  match r, hend with
  | (.ok a, s'), hend => exact hQ a s' hend
  | (.error e, s'), hend => exact hR e s' hend

/-- More is assumed. -/
theorem Triple.pre (h : Triple P m Q R) (hP : ∀ s, P' s → P s) : Triple P' m Q R :=
  h.conseq hP (fun _ _ => id) fun _ _ => id

/-- Less is promised of an exception. -/
theorem Triple.error (h : Triple P m Q R) (hR : ∀ e s, R e s → R' e s) : Triple P m Q R' :=
  h.conseq (fun _ => id) (fun _ _ => id) hR

/-- A value. -/
theorem Triple.pure {a : α} (h : ∀ s, P s → Q a s) :
    Triple P (Pure.pure a : Prog σ ε α) Q R :=
  fun s hs => ⟨_, rfl, h s hs⟩

/-- An exception. -/
theorem Triple.raise {e : ε} (h : ∀ s, P s → R e s) : Triple P (raise e : Prog σ ε α) Q R :=
  fun s hs => ⟨_, rfl, h s hs⟩

/-- An assertion that holds. -/
theorem Triple.assert {c : Prop} [Decidable c] {Q : Unit → σ → Prop} (hc : ∀ s, P s → c)
    (h : ∀ s, P s → Q () s) : Triple P (assert c : Prog σ ε Unit) Q R := by
  intro s hs
  unfold Prog.assert
  rw [if_pos (hc s hs)]
  exact ⟨_, rfl, h s hs⟩

/-- Something that is there. -/
theorem Triple.ask {f : σ → Option α} (h : ∀ s, P s → ∃ a, f s = some a ∧ Q a s) :
    Triple P (ask f : Prog σ ε α) Q R := by
  intro s hs
  obtain ⟨a, ha, hq⟩ := h s hs
  refine ⟨(.ok a, s), ?_, hq⟩
  show (f s).map _ = _
  rw [ha, Option.map_some]

/-- A change that is defined. -/
theorem Triple.update {f : σ → Option σ} {Q : Unit → σ → Prop}
    (h : ∀ s, P s → ∃ s', f s = some s' ∧ Q () s') : Triple P (update f : Prog σ ε Unit) Q R := by
  intro s hs
  obtain ⟨s', hs', hq⟩ := h s hs
  refine ⟨(.ok (), s'), ?_, hq⟩
  show (f s).map _ = _
  rw [hs', Option.map_some]

/-- **One program after another.** -/
theorem Triple.bind {f : α → Prog σ ε β} {Q' : β → σ → Prop} (hm : Triple P m Q R)
    (hf : ∀ a, Triple (Q a) (f a) Q' R) : Triple P (m >>= f) Q' R := by
  intro s hs
  obtain ⟨r, hr, hend⟩ := hm s hs
  match r, hend with
  | (.ok a, s'), hend =>
    obtain ⟨r', hr', hend'⟩ := hf a s' hend
    exact ⟨r', (bind_of_ok hr).trans hr', hend'⟩
  | (.error e, s'), hend => exact ⟨_, bind_of_error hr, hend⟩

/-- **Cleaning up after an exception.** -/
theorem Triple.onThrow {cleanup : σ → Option σ} (hm : Triple P m Q R)
    (hc : ∀ e s, R e s → ∃ s', cleanup s = some s' ∧ R' e s') :
    Triple P (m.onThrow cleanup) Q R' := by
  intro s hs
  obtain ⟨r, hr, hend⟩ := hm s hs
  unfold Prog.onThrow
  match r, hend with
  | (.ok a, s'), hend =>
    refine ⟨(.ok a, s'), ?_, hend⟩
    rw [hr]
  | (.error e, s'), hend =>
    obtain ⟨s'', hs'', hend'⟩ := hc e s' hend
    refine ⟨(.error e, s''), ?_, hend'⟩
    rw [hr]
    show (cleanup s').map _ = _
    rw [hs'', Option.map_some]

/-- **Leaving a scope.** -/
theorem Triple.leaving {cleanup : σ → Option σ} (hm : Triple P m Q R)
    (hq : ∀ a s, Q a s → ∃ s', cleanup s = some s' ∧ Q' a s')
    (hr : ∀ e s, R e s → ∃ s', cleanup s = some s' ∧ R' e s') :
    Triple P (m.leaving cleanup) Q' R' := by
  intro s hs
  obtain ⟨r, hrun, hend⟩ := hm s hs
  match r, hend with
  | (.ok a, s'), hend =>
    obtain ⟨s'', hs'', hend'⟩ := hq a s' hend
    refine ⟨(.ok a, s''), ?_, hend'⟩
    rw [leaving_of_some hrun, hs'', Option.map_some]
  | (.error e, s'), hend =>
    obtain ⟨s'', hs'', hend'⟩ := hr e s' hend
    refine ⟨(.error e, s''), ?_, hend'⟩
    rw [leaving_of_some hrun, hs'', Option.map_some]

/-- **A program on a part of the state**, what it promises being read off
the whole. -/
theorem Triple.onPart {τ : Type} {get : τ → σ} {set : σ → τ → τ} {P : τ → Prop}
    {Q : α → τ → Prop} {R : ε → τ → Prop}
    (h : ∀ t, P t → Triple (· = get t) m (fun a s => Q a (set s t)) fun e s => R e (set s t)) :
    Triple P (m.onPart get set) Q R := by
  intro t ht
  obtain ⟨r, hr, hend⟩ := h t ht (get t) rfl
  refine ⟨(r.1, set r.2 t), ?_, ?_⟩
  · show (m (get t)).map _ = _
    rw [hr, Option.map_some]
  · match r, hend with
    | (.ok a, s), hend => exact hend
    | (.error e, s), hend => exact hend

/-- What a triple says about a run. -/
theorem Triple.ends (h : Triple P m Q R) {s : σ} (hs : P s) {r : Except ε α × σ}
    (hr : m s = some r) : Ends Q R r := by
  obtain ⟨r', hr', hend⟩ := h s hs
  rw [hr] at hr'
  exact Option.some.inj hr' ▸ hend

/-! ## Partial triples -/

/-- **If the program has a result** from a state of `P`, it is a value and a
state of `Q`, or an exception and a state of `R`. -/
def PartialTriple (P : σ → Prop) (m : Prog σ ε α) (Q : α → σ → Prop) (R : ε → σ → Prop) : Prop :=
  ∀ s, P s → ∀ r, m s = some r → Ends Q R r

/-- A value. -/
theorem PartialTriple.pure {a : α} (h : ∀ s, P s → Q a s) :
    PartialTriple P (Pure.pure a : Prog σ ε α) Q R := by
  rintro s hs r ⟨⟩
  exact h s hs

/-- Something that may be there. -/
theorem PartialTriple.ask {f : σ → Option α} (h : ∀ s, P s → ∀ a, f s = some a → Q a s) :
    PartialTriple P (ask f : Prog σ ε α) Q R := by
  intro s hs r hr
  obtain ⟨a, ha, rfl⟩ := Option.map_eq_some_iff.mp hr
  exact h s hs a ha

/-- A change that may be defined. -/
theorem PartialTriple.update {f : σ → Option σ} {Q : Unit → σ → Prop}
    (h : ∀ s, P s → ∀ s', f s = some s' → Q () s') :
    PartialTriple P (update f : Prog σ ε Unit) Q R := by
  intro s hs r hr
  obtain ⟨s', hs', rfl⟩ := Option.map_eq_some_iff.mp hr
  exact h s hs s' hs'

/-- **One program after another.** -/
theorem PartialTriple.bind {f : α → Prog σ ε β} {Q' : β → σ → Prop} (hm : PartialTriple P m Q R)
    (hf : ∀ a, PartialTriple (Q a) (f a) Q' R) : PartialTriple P (m >>= f) Q' R := by
  intro s hs r hr
  match hres : m s with
  | none =>
    rw [bind_of_none hres] at hr
    cases hr
  | some (.error e, s') =>
    rw [bind_of_error hres] at hr
    cases hr
    exact hm s hs _ hres
  | some (.ok a, s') =>
    rw [bind_of_ok hres] at hr
    exact hf a s' (hm s hs _ hres) r hr

/-- No result. -/
theorem PartialTriple.stuck : PartialTriple P (stuck : Prog σ ε α) Q R := nofun

/-- An assertion that may hold. -/
theorem PartialTriple.assert {c : Prop} [Decidable c] {Q : Unit → σ → Prop}
    (h : ∀ s, P s → Q () s) : PartialTriple P (assert c : Prog σ ε Unit) Q R := by
  unfold Prog.assert
  split
  · exact PartialTriple.pure h
  · exact PartialTriple.stuck

/-- **A program on a part of the state.** -/
theorem PartialTriple.onPart {τ : Type} {get : τ → σ} {set : σ → τ → τ} {P : τ → Prop}
    {Q : α → τ → Prop} {R : ε → τ → Prop}
    (h : ∀ t, P t → PartialTriple (· = get t) m (fun a s => Q a (set s t)) fun e s =>
      R e (set s t)) : PartialTriple P (m.onPart get set) Q R := by
  intro t ht r hr
  obtain ⟨⟨r, s⟩, hres, rfl⟩ := Option.map_eq_some_iff.mp hr
  have hend := h t ht (get t) rfl (r, s) hres
  match r, hend with
  | .ok a, hend => exact hend
  | .error e, hend => exact hend

/-- **Cleaning up after an exception.** -/
theorem PartialTriple.onThrow {cleanup : σ → Option σ} (hm : PartialTriple P m Q R)
    (hr : ∀ e s, R e s → ∀ s', cleanup s = some s' → R' e s') :
    PartialTriple P (m.onThrow cleanup) Q R' := by
  intro s hs r hrun
  unfold Prog.onThrow at hrun
  match hres : m s with
  | none =>
    rw [hres] at hrun
    cases hrun
  | some (.error e, s') =>
    rw [hres] at hrun
    obtain ⟨s'', hs'', rfl⟩ := Option.map_eq_some_iff.mp hrun
    exact hr e s' (hm s hs _ hres) s'' hs''
  | some (.ok a, s') =>
    rw [hres] at hrun
    cases hrun
    exact hm s hs _ hres

/-- **Leaving a scope.** -/
theorem PartialTriple.leaving {cleanup : σ → Option σ} (hm : PartialTriple P m Q R)
    (hq : ∀ a s, Q a s → ∀ s', cleanup s = some s' → Q' a s')
    (hr : ∀ e s, R e s → ∀ s', cleanup s = some s' → R' e s') :
    PartialTriple P (m.leaving cleanup) Q' R' := by
  intro s hs r hrun
  match hres : m s with
  | none =>
    unfold Prog.leaving at hrun
    rw [hres] at hrun
    cases hrun
  | some (.error e, s') =>
    rw [leaving_of_some hres] at hrun
    obtain ⟨s'', hs'', rfl⟩ := Option.map_eq_some_iff.mp hrun
    exact hr e s' (hm s hs _ hres) s'' hs''
  | some (.ok a, s') =>
    rw [leaving_of_some hres] at hrun
    obtain ⟨s'', hs'', rfl⟩ := Option.map_eq_some_iff.mp hrun
    exact hq a s' (hm s hs _ hres) s'' hs''

/-! ## Invariants of what does not throw -/

section Keeps

variable {I : σ → Prop}

/-- **The program keeps an invariant and throws nothing**, if it has a
result. -/
def Keeps (I : σ → Prop) (m : Prog σ ε α) : Prop := PartialTriple I m (fun _ => I) fun _ _ => False

theorem Keeps.pure (a : α) : Keeps I (Pure.pure a : Prog σ ε α) :=
  PartialTriple.pure fun _ => id

theorem Keeps.stuck : Keeps I (stuck : Prog σ ε α) := PartialTriple.stuck

theorem Keeps.assert (c : Prop) [Decidable c] : Keeps I (assert c : Prog σ ε Unit) :=
  PartialTriple.assert fun _ => id

theorem Keeps.ask (f : σ → Option α) : Keeps I (ask f : Prog σ ε α) :=
  PartialTriple.ask fun _ hs _ _ => hs

theorem Keeps.update {f : σ → Option σ} (h : ∀ s s', f s = some s' → I s → I s') :
    Keeps I (update f : Prog σ ε Unit) :=
  PartialTriple.update fun s hs s' hs' => h s s' hs' hs

theorem Keeps.bind {f : α → Prog σ ε β} (hm : Keeps I m) (hf : ∀ a, Keeps I (f a)) :
    Keeps I (m >>= f) :=
  PartialTriple.bind hm hf

theorem Keeps.ite {c : Prop} [Decidable c] {m' : Prog σ ε α} (h : Keeps I m) (h' : Keeps I m') :
    Keeps I (if c then m else m') := by
  split
  · exact h
  · exact h'

theorem Keeps.leaving {cleanup : σ → Option σ} (hm : Keeps I m)
    (hc : ∀ s s', cleanup s = some s' → I s → I s') : Keeps I (m.leaving cleanup) :=
  PartialTriple.leaving hm (fun _ s hs s' hs' => hc s s' hs' hs) fun _ _ h => h.elim

theorem Keeps.onThrow {cleanup : σ → Option σ} (hm : Keeps I m) : Keeps I (m.onThrow cleanup) :=
  PartialTriple.onThrow hm fun _ _ h => h.elim

/-- **What would throw** under a condition that does not come up. -/
theorem Keeps.unless {c : Prog σ ε Bool} {e : ε}
    (hc : PartialTriple I c (fun r s => r = false ∧ I s) fun _ _ => False) (hm : Keeps I m) :
    Keeps I (c >>= fun r => if r = true then raise e else m) := by
  refine PartialTriple.bind hc fun r s hs => ?_
  rw [hs.1]
  exact hm s hs.2

/-- A program on a part of the state, where the invariant is about that. -/
theorem Keeps.onPart {τ : Type} {get : τ → σ} {set : σ → τ → τ}
    (hget : ∀ s t, get (set s t) = s) (hm : Keeps I m) :
    Keeps (fun t => I (get t)) (m.onPart get set) :=
  PartialTriple.onPart fun t ht s hs r hr => by
    have hend := hm s (hs ▸ ht) r hr
    match r, hend with
    | (.ok a, s'), hend => exact (congrArg I (hget s' t)).mpr hend
    | (.error e, s'), hend => exact hend.elim

end Keeps

end Prog
