import CppGraduate.Containers.Guarantee
import CppGraduate.MyVecDemo.Moving

/-!
# Memory for the capacity

The three vectors that request raw memory record the number of places they
requested it for. The size of the request is a product of type `size_t`, and
the growing `push` computes the number of places in that type too.

An operation passes if, whichever of the calls that may throw do, it throws
or leaves a vector with memory for all the places it was to have. Where it
goes on to construct elements where there is no memory it has no result, and
does not pass.

**Main result**: `largeEnough_iff`. The constructors of the storage, those of
`Vector` with a size and every `push` that grows pass exactly where the
product of the size of an element with the number of places, as a number, is
less than `2 ^ 64`. Otherwise there is a run in which nothing throws, and no
buffer has so many bytes.
-/

namespace Capacity

open Prog
open MyVec3 (Addr World MyVectorBuf Contents Meaning)
open Containers (ElementType)

variable {T α ε : Type} {sizeofT n : ℕ} {A : Meaning T} {v : Addr} {c : Contents T}

/-! ## Enough memory -/

/-- **The vector has `n` places**, and memory for them. -/
def HasPlaces (sizeofT : ℕ) (s : World T) (v : Addr) (n : ℕ) : Prop :=
  ∃ o, s.vecs.read v = some o ∧ o.size = n ∧ (o.arr = none ∧ n = 0 ∨
    ∃ b buf, o.arr = some b ∧ s.storage.buffers.read b = some buf ∧ sizeofT * n ≤ buf.bytes)

/-- **Memory is as large as recorded**: whatever throws, the operation throws
or there is a vector with `n` places. -/
def LargeEnough (sizeofT n : ℕ) (run : (ℕ → Bool) → Option (Except ε Addr × World T)) : Prop :=
  ∀ plan, ∃ r s, run plan = some (r, s) ∧ ∀ v, r = .ok v → HasPlaces sizeofT s v n

/-- An operation of `Vector` or myvec-3, in a memory. -/
def after (s : World T) (m : Prog (World T) ε α) (plan : ℕ → Bool) :
    Option (Except ε α × World T) :=
  m { s with plan := plan }

/-- An operation of myvec-4, in a memory. -/
def afterMoving (s : MyVec4.World T) (m : Prog (MyVec4.World T) ε α) (plan : ℕ → Bool) :
    Option (Except ε α × World T) :=
  (m { s with plan := plan }).map fun r => (r.1, r.2.toWorld)

/-- Well-formed memory is so whatever throws. -/
theorem represents_plan {s : World T} (h : MyVec3.Represents sizeofT A s) (plan : ℕ → Bool) :
    MyVec3.Represents sizeofT A { s with plan := plan } :=
  ⟨h.vec, h.separate, h.owned, h.ledger⟩

/-- In well-formed memory a vector has its places. -/
theorem hasPlaces_of_represents {s : World T} (h : MyVec3.Represents sizeofT A s)
    (hv : A v = some c) : HasPlaces sizeofT s v c.capacity := by
  obtain ⟨o, ho, hholds⟩ := h.holds hv
  refine ⟨o, ho, hholds.size, ?_⟩
  rcases hholds.buffer with ⟨harr, hcap⟩ | ⟨b, buf, harr, hread, hbytes, -⟩
  · exact Or.inl ⟨harr, hcap⟩
  · exact Or.inr ⟨b, buf, harr, hread, hbytes⟩

/-- In well-formed memory the sizes of buffers are values of `size_t`. -/
theorem below_of_represents {s : World T} (h : MyVec3.Represents sizeofT A s) :
    s.storage.Below (2 ^ 64) := by
  intro b buf hb
  obtain ⟨v, o, ho, harr⟩ := h.owned b (by rw [hb]; rfl)
  obtain ⟨c, hc⟩ := h.meaning (v := v) (by rw [ho]; rfl)
  obtain ⟨o', ho', hholds⟩ := h.holds hc
  cases ho.symm.trans ho'
  rcases hholds.buffer with ⟨hnone, -⟩ | ⟨b', buf', harr', hread, -, hlt, -⟩
  · rw [harr] at hnone
    cases hnone
  · cases harr.symm.trans harr'
    cases hb.symm.trans hread
    exact hlt

/-- Memory for the places of a vector has a size. -/
theorem HasPlaces.lt {s : World T} (h : HasPlaces sizeofT s v n) (hs : s.storage.Below (2 ^ 64)) :
    sizeofT * n < 2 ^ 64 := by
  obtain ⟨o, -, -, ⟨-, rfl⟩ | ⟨b, buf, -, hread, hbytes⟩⟩ := h
  · rw [Nat.mul_zero]
    exact Nat.two_pow_pos 64
  · exact hbytes.trans_lt (hs b buf hread)

/-- What a triple says of an operation. -/
theorem largeEnough_of_triple {s : World T} {m : Prog (World T) ε Addr}
    (h : ∀ plan, Triple (· = { s with plan := plan }) m
      (fun v s' => HasPlaces sizeofT s' v n) fun _ _ => True) :
    LargeEnough sizeofT n (after s m) := by
  intro plan
  obtain ⟨⟨r, s'⟩, hr, hend⟩ := h plan _ rfl
  refine ⟨r, s', hr, ?_⟩
  rintro v rfl
  exact hend

/-- What a triple says of an operation of myvec-4. -/
theorem largeEnough_of_triple_moving {s : MyVec4.World T} {m : Prog (MyVec4.World T) ε Addr}
    (h : ∀ plan, Triple (· = { s with plan := plan }) m
      (fun v s' => HasPlaces sizeofT s'.toWorld v n) fun _ _ => True) :
    LargeEnough sizeofT n (afterMoving s m) := by
  intro plan
  obtain ⟨⟨r, s'⟩, hr, hend⟩ := h plan _ rfl
  refine ⟨r, s'.toWorld, by rw [afterMoving, hr, Option.map_some], ?_⟩
  rintro v rfl
  exact hend

/-- An operation after which memory is well-formed. -/
theorem largeEnough_of_represents {s : World T} {m : Prog (World T) ε Unit}
    (h : ∀ plan, Triple (· = { s with plan := plan }) m
      (fun _ s' => MyVec3.Represents sizeofT A s') fun _ _ => True)
    (hv : A v = some c) :
    LargeEnough sizeofT c.capacity
      (after s do
        m
        return v) :=
  largeEnough_of_triple fun plan => Triple.bind (h plan) fun _ =>
    Triple.pure fun _ hs' => hasPlaces_of_represents hs' hv

/-- An operation of myvec-4 after which memory is well-formed. -/
theorem largeEnough_of_represents_moving {s : MyVec4.World T} {m : Prog (MyVec4.World T) ε Unit}
    {O : Addr → Option T}
    (h : ∀ plan, Triple (· = { s with plan := plan }) m
      (fun _ s' => MyVec4.Represents sizeofT A O s') fun _ _ => True)
    (hv : A v = some c) :
    LargeEnough sizeofT c.capacity
      (afterMoving s do
        m
        return v) :=
  largeEnough_of_triple_moving fun plan => Triple.bind (h plan) fun _ =>
    Triple.pure fun _ hs' => hasPlaces_of_represents hs'.1 hv

/-! ## Calm -/

/-- **Nothing throws**, and the sizes of buffers are values of `size_t`. -/
def Calm (s : World T) : Prop := (∀ n, s.plan n = false) ∧ s.storage.Below (2 ^ 64)

section

variable {s s' : World T}

theorem calm_inStorage {f : Storage T → Option (Storage T)}
    (hf : ∀ st st', f st = some st' → st.Below (2 ^ 64) → st'.Below (2 ^ 64))
    (h : MyVec3.inStorage f s = some s') (hs : Calm s) : Calm s' := by
  obtain ⟨st, hst, rfl⟩ := Option.map_eq_some_iff.mp h
  exact ⟨hs.1, hf _ st hst hs.2⟩

theorem calm_setMembers {o : MyVectorBuf} (h : MyVec3.setMembers v o s = some s') (hs : Calm s) :
    Calm s' := by
  obtain ⟨vecs, -, rfl⟩ := Option.map_eq_some_iff.mp h
  exact hs

theorem calm_moveAssign {u : Addr} (h : MyVec3.moveAssign u v s = some s') (hs : Calm s) :
    Calm s' := by
  obtain ⟨o, -, h⟩ := Option.bind_eq_some_iff.mp h
  obtain ⟨r, -, h⟩ := Option.bind_eq_some_iff.mp h
  obtain ⟨s₁, h₁, h⟩ := Option.bind_eq_some_iff.mp h
  exact calm_setMembers h (calm_setMembers h₁ hs)

theorem calm_destroyRange {arr : Option Addr} {i k : ℕ}
    (h : MyVec3.destroyRange arr i k s = some s') (hs : Calm s) : Calm s' := by
  induction k generalizing i s with
  | zero =>
    cases h
    exact hs
  | succ k ih =>
    obtain ⟨s₁, h₁, h⟩ := Option.bind_eq_some_iff.mp h
    obtain ⟨b, -, h₁⟩ := Option.bind_eq_some_iff.mp h₁
    exact ih h (calm_inStorage (fun _ _ hst hb => hb.destroy hst) h₁ hs)

theorem calm_bufDestruct (h : MyVec3.bufDestruct v s = some s') (hs : Calm s) : Calm s' := by
  obtain ⟨o, -, h⟩ := Option.bind_eq_some_iff.mp h
  obtain ⟨s₁, h₁, h⟩ := Option.bind_eq_some_iff.mp h
  obtain ⟨s₂, h₂, h⟩ := Option.bind_eq_some_iff.mp h
  obtain ⟨vecs, -, rfl⟩ := Option.map_eq_some_iff.mp h
  have hs₁ := calm_destroyRange h₁ hs
  have hs₂ : Calm s₂ := by
    cases harr : o.arr with
    | none =>
      rw [harr] at h₂
      cases h₂
      exact hs₁
    | some b =>
      rw [harr] at h₂
      have hst : MyVec3.inStorage (Storage.deallocate b) s₁ = some s₂ := h₂
      exact calm_inStorage (fun _ _ hst hb => hb.deallocate hst) hst hs₁
  exact hs₂

theorem calm_swap {u : Addr} (h : MyVec3.swap u v s = some s') (hs : Calm s) : Calm s' := by
  obtain ⟨⟨tmp, s₁⟩, h₁, h⟩ := Option.bind_eq_some_iff.mp h
  obtain ⟨o, -, h₁⟩ := Option.bind_eq_some_iff.mp h₁
  obtain ⟨s₀, h₀, h₁⟩ := Option.bind_eq_some_iff.mp h₁
  have hs₁ : Calm s₁ := by
    cases h₁
    have hs₀ : Calm s₀ := calm_setMembers h₀ hs
    exact hs₀
  obtain ⟨s₂, h₂, h⟩ := Option.bind_eq_some_iff.mp h
  obtain ⟨s₃, h₃, h⟩ := Option.bind_eq_some_iff.mp h
  exact calm_bufDestruct h (calm_moveAssign h₃ (calm_moveAssign h₂ hs₁))

/-- An element is constructed. -/
theorem calm_construct {arr : Option Addr} {i : ℕ} {t : T}
    (h : (arr.bind fun b => MyVec3.inStorage (Storage.construct sizeofT b i t) s) = some s')
    (hs : Calm s) : Calm s' := by
  obtain ⟨b, -, h⟩ := Option.bind_eq_some_iff.mp h
  exact calm_inStorage (fun _ _ hst hb => hb.construct hst) h hs

/-- An element is moved from. -/
theorem calm_assign {arr : Option Addr} {i : ℕ} {t : T}
    (h : (arr.bind fun b => MyVec3.inStorage (Storage.assign b i t) s) = some s') (hs : Calm s) :
    Calm s' := by
  obtain ⟨b, -, h⟩ := Option.bind_eq_some_iff.mp h
  exact calm_inStorage (fun _ _ hst hb => hb.assign hst) h hs

/-- Memory is allocated. -/
theorem calm_allocate {bytes : ℕ} (hbytes : bytes < 2 ^ 64) (hs : Calm s) :
    Calm { s with storage := (s.storage.allocate bytes).2 } :=
  ⟨hs.1, hs.2.allocate hbytes⟩

end

/-- **What passes has a run in which nothing throws.** -/
theorem lt_of_largeEnough {s : World T} (hs : s.storage.Below (2 ^ 64)) {m : Prog (World T) ε Addr}
    (hm : Keeps Calm m) (h : LargeEnough sizeofT n (after s m)) : sizeofT * n < 2 ^ 64 := by
  obtain ⟨r, s', hr, hplaces⟩ := h fun _ => false
  have hcalm : Calm { s with plan := fun _ => false } := ⟨fun _ => rfl, hs⟩
  match r, hm _ hcalm _ hr with
  | .ok v, hend => exact (hplaces v rfl).lt hend.2

/-! ## `containers::Vector` -/

section Vector

variable {E : ElementType T}

theorem throws_calm : PartialTriple Calm (Containers.throws : Prog (World T) Containers.Exc Bool)
    (fun r s => r = false ∧ Calm s) fun _ _ => False := by
  intro s hs r hr
  cases hr
  exact ⟨hs.1 _, hs⟩

theorem keeps_members (v : Addr) :
    Keeps Calm (Containers.members v : Prog (World T) Containers.Exc _) := Keeps.ask _

theorem keeps_storageConstruct (n : ℕ) :
    Keeps Calm (Containers.storageConstruct E n : Prog (World T) _ Addr) := by
  have hnew : Keeps Calm (Containers.operatorNew (E.sizeofT * n % 2 ^ 64) : Prog (World T) _ _) :=
    Keeps.unless throws_calm fun s hs r hr => by
      cases hr
      exact calm_allocate (Nat.mod_lt _ (Nat.two_pow_pos 64)) hs
  refine hnew.bind fun data s hs r hr => ?_
  cases hr
  exact hs

theorem keeps_placeNew (nothrow : Bool) (data : Option Addr) (i : ℕ) (t : T) :
    Keeps Calm (Containers.placeNew E nothrow data i t) := by
  refine Keeps.unless ?_ (Keeps.update fun s s' h => calm_construct h)
  unfold Containers.elementThrows
  split
  · exact PartialTriple.pure fun _ hs => ⟨rfl, hs⟩
  · exact throws_calm

theorem keeps_increment (v : Addr) : Keeps Calm (Containers.increment v : Prog (World T) _ _) :=
  (keeps_members v).bind fun _ => Keeps.update fun _ _ h => calm_setMembers h

/-- A loop over `size_`. -/
theorem keeps_fillTo {put : ℕ → Prog (World T) Containers.Exc Unit}
    (hput : ∀ i, Keeps Calm (put i)) (v : Addr) (n passes : ℕ) :
    Keeps Calm (Containers.fillTo v n put passes) := by
  induction passes with
  | zero => exact (keeps_members v).bind fun _ => Keeps.assert _
  | succ passes ih =>
    exact (keeps_members v).bind fun o =>
      Keeps.ite ((hput _).bind fun _ => (keeps_increment v).bind fun _ => ih) (Keeps.pure ())

theorem keeps_fillConstruct (size : ℕ) (t : T) :
    Keeps Calm (Containers.fillConstruct E size t) := by
  refine (keeps_storageConstruct size).bind fun v => ?_
  refine Keeps.bind (Keeps.onThrow (keeps_fillTo (fun i => ?_) v size size)) fun _ => Keeps.pure v
  exact (keeps_members v).bind fun o => keeps_placeNew false o.data_ i t

theorem keeps_moveOrCopyAt (u v : Addr) (i : ℕ) : Keeps Calm (Containers.moveOrCopyAt E u v i) := by
  refine (keeps_members u).bind fun n => (keeps_members v).bind fun o =>
    (Keeps.ask _).bind fun t => ?_
  refine Keeps.ite (Keeps.bind (Keeps.update fun _ _ h => calm_assign h) fun _ => ?_) ?_
  · exact keeps_placeNew true n.data_ i t
  · exact keeps_placeNew false n.data_ i t

theorem keeps_realloc (v : Addr) (newAllocated : ℕ) :
    Keeps Calm (Containers.realloc E v newAllocated) := by
  refine (keeps_members v).bind fun o => (keeps_storageConstruct newAllocated).bind fun u => ?_
  refine Keeps.leaving (Keeps.bind ?_ fun _ => ?_) fun _ _ h => calm_bufDestruct h
  · exact keeps_fillTo (keeps_moveOrCopyAt u v) u _ _
  · exact Keeps.update fun _ _ h => calm_moveAssign h

theorem keeps_push (v : Addr) (t : T) (nothrow : Bool) :
    Keeps Calm (Containers.push E v t nothrow) := by
  have hgrow : Keeps Calm (Containers.grow E v) :=
    (keeps_members v).bind fun o => Keeps.ite (keeps_realloc v _) (Keeps.pure ())
  exact hgrow.bind fun _ => (keeps_members v).bind fun o =>
    (keeps_placeNew nothrow o.data_ o.size_ t).bind fun _ => keeps_increment v

end Vector

/-! ## The vectors of myvec-3 and myvec-4 -/

section MyVec3

open MyVec3 (Exc)

theorem throws_calm' : PartialTriple Calm (MyVec3.throws : Prog (World T) Exc Bool)
    (fun r s => r = false ∧ Calm s) fun _ _ => False := by
  intro s hs r hr
  cases hr
  exact ⟨hs.1 _, hs⟩

theorem keeps_bufConstruct (n : ℕ) :
    Keeps Calm (MyVec3.bufConstruct sizeofT n : Prog (World T) Exc Addr) := by
  have hnew : Keeps Calm (MyVec3.operatorNew (sizeofT * n % 2 ^ 64) : Prog (World T) Exc _) :=
    Keeps.unless throws_calm' fun s hs r hr => by
      cases hr
      exact calm_allocate (Nat.mod_lt _ (Nat.two_pow_pos 64)) hs
  have hmemory : Keeps Calm (MyVec3.memoryFor sizeofT n : Prog (World T) Exc _) :=
    Keeps.ite (Keeps.pure none) (hnew.bind fun _ => Keeps.pure _)
  refine hmemory.bind fun arr s hs r hr => ?_
  cases hr
  exact hs

theorem keeps_emplace (v : Addr) (t : T) : Keeps Calm (MyVec3.emplace sizeofT v t) := by
  refine (Keeps.ask _).bind fun o => Keeps.bind ?_ fun _ => ?_
  · exact Keeps.unless throws_calm' (Keeps.update fun _ _ h => calm_construct h)
  · exact Keeps.update fun _ _ h => calm_setMembers h

theorem keeps_fillFrom {put : T → Prog (World T) Exc Unit} (hput : ∀ t, Keeps Calm (put t))
    (v src : Addr) (passes : ℕ) : Keeps Calm (MyVec3.fillFrom put v src passes) := by
  induction passes with
  | zero => exact (Keeps.ask _).bind fun _ => (Keeps.ask _).bind fun _ => Keeps.assert _
  | succ passes ih =>
    refine (Keeps.ask _).bind fun o => (Keeps.ask _).bind fun r => Keeps.ite ?_ (Keeps.pure ())
    exact (Keeps.ask _).bind fun t => (hput t).bind fun _ => ih

theorem keeps_push' (depth : ℕ) (v : Addr) (t : T) :
    Keeps Calm (MyVec3.push sizeofT depth v t) := by
  induction depth generalizing v t with
  | zero => exact Keeps.stuck
  | succ depth ih =>
    refine (Keeps.ask _).bind fun o => (Keeps.assert _).bind fun _ =>
      Keeps.ite ((keeps_bufConstruct _).bind fun tmp => ?_) (keeps_emplace v t)
    refine Keeps.leaving ?_ fun _ _ h => calm_bufDestruct h
    exact (keeps_fillFrom (ih tmp) tmp v o.used).bind fun _ => (ih tmp t).bind fun _ =>
      Keeps.update fun _ _ h => calm_swap h

end MyVec3

section MyVec4

open MyVec3 (Exc)
open MyVec4 (Ref shared sharedUpdate)

variable {moved : T → T}

/-- Calm vectors. -/
abbrev CalmMoving (s : MyVec4.World T) : Prop := Calm s.toWorld

theorem lt_of_largeEnough_moving {s : MyVec4.World T} (hs : s.storage.Below (2 ^ 64))
    {m : Prog (MyVec4.World T) ε Addr} (hm : Keeps CalmMoving m)
    (h : LargeEnough sizeofT n (afterMoving s m)) : sizeofT * n < 2 ^ 64 := by
  obtain ⟨r, s', hafter, hplaces⟩ := h fun _ => false
  obtain ⟨⟨r, s''⟩, hr, heq⟩ := Option.map_eq_some_iff.mp hafter
  cases heq
  have hcalm : CalmMoving { s with plan := fun _ => false } := ⟨fun _ => rfl, hs⟩
  match r, hm _ hcalm _ hr with
  | .ok v, hend => exact (hplaces v rfl).lt hend.2

theorem keeps_shared {m : Prog (World T) Exc α} (hm : Keeps Calm m) :
    Keeps CalmMoving (shared m) :=
  Keeps.onPart (fun _ _ => rfl) hm

theorem calm_sharedUpdate {f : World T → Option (World T)} {s s' : MyVec4.World T}
    (hf : ∀ w w', f w = some w' → Calm w → Calm w') (h : sharedUpdate f s = some s')
    (hs : CalmMoving s) : CalmMoving s' := by
  obtain ⟨w, hw, rfl⟩ := Option.map_eq_some_iff.mp h
  exact hf _ w hw hs

theorem keeps_take (rhs : Ref) : Keeps CalmMoving (MyVec4.take moved rhs) := by
  cases rhs with
  | object a =>
    refine (Keeps.ask _).bind fun t => Keeps.bind (Keeps.update fun s s' h hs => ?_)
      fun _ => Keeps.pure t
    obtain ⟨objects, -, rfl⟩ := Option.map_eq_some_iff.mp h
    exact hs
  | element arr i =>
    exact (Keeps.ask _).bind fun t => Keeps.bind
      (Keeps.update fun _ _ => calm_sharedUpdate fun _ _ h => calm_assign h) fun _ => Keeps.pure t

theorem keeps_emplaceMoving (v : Addr) (t : Ref) :
    Keeps CalmMoving (MyVec4.emplace sizeofT moved v t) := by
  refine (keeps_shared (Keeps.ask _)).bind fun o => Keeps.bind ?_ fun _ => ?_
  · exact (keeps_take t).bind fun t =>
      Keeps.update fun _ _ => calm_sharedUpdate fun _ _ h => calm_construct h
  · exact Keeps.update fun _ _ => calm_sharedUpdate fun _ _ h => calm_setMembers h

theorem keeps_fillFromMoving {put : Ref → Prog (MyVec4.World T) Exc Unit}
    (hput : ∀ t, Keeps CalmMoving (put t)) (v src : Addr) (passes : ℕ) :
    Keeps CalmMoving (MyVec4.fillFrom put v src passes) := by
  have hmembers : ∀ v : Addr, Keeps CalmMoving (shared (MyVec3.members v : Prog (World T) Exc _)) :=
    fun _ => keeps_shared (Keeps.ask _)
  induction passes with
  | zero => exact (hmembers v).bind fun _ => (hmembers src).bind fun _ => Keeps.assert _
  | succ passes ih =>
    refine (hmembers v).bind fun o => (hmembers src).bind fun r => Keeps.ite ?_ (Keeps.pure ())
    exact (hput _).bind fun _ => ih

theorem keeps_pushMove (depth : ℕ) (v : Addr) (t : Ref) :
    Keeps CalmMoving (MyVec4.pushMove sizeofT moved depth v t) := by
  induction depth generalizing v t with
  | zero => exact Keeps.stuck
  | succ depth ih =>
    refine (keeps_shared (Keeps.ask _)).bind fun o => (Keeps.assert _).bind fun _ =>
      Keeps.ite ((keeps_shared (keeps_bufConstruct _)).bind fun tmp => ?_)
        (keeps_emplaceMoving v t)
    refine Keeps.leaving ?_ fun _ _ => calm_sharedUpdate fun _ _ h => calm_bufDestruct h
    exact (keeps_fillFromMoving (ih tmp) tmp v o.used).bind fun _ => (ih tmp t).bind fun _ =>
      Keeps.update fun _ _ => calm_sharedUpdate fun _ _ h => calm_swap h

theorem keeps_pushMoving (depth : ℕ) (v : Addr) (t : T) :
    Keeps CalmMoving (MyVec4.push sizeofT moved depth v t) := by
  have hthrows : PartialTriple CalmMoving (shared (MyVec3.throws : Prog (World T) Exc Bool))
      (fun r s => r = false ∧ CalmMoving s) fun _ _ => False := by
    intro s hs r hr
    cases hr
    exact ⟨hs.1 _, hs⟩
  refine Keeps.unless hthrows (Keeps.bind (fun s hs r hr => ?_) fun a => ?_)
  · cases hr
    exact hs
  · refine Keeps.leaving (keeps_pushMove depth v _) fun s s' h hs => ?_
    obtain ⟨objects, -, rfl⟩ := Option.map_eq_some_iff.mp h
    exact hs

end MyVec4

/-! ## What passes -/

/-- A new vector has its places if that much memory was requested. -/
theorem hasPlaces_new (s : World T) (bytes k : ℕ) :
    HasPlaces sizeofT
      { s with
        storage := (s.storage.allocate bytes).2
        vecs := (s.vecs.alloc ⟨some s.storage.buffers.bound, n, 0⟩).2
        calls := k } s.vecs.bound n ↔ sizeofT * n ≤ bytes := by
  have hvec : (s.vecs.alloc ⟨some s.storage.buffers.bound, n, 0⟩).2.read s.vecs.bound
      = some ⟨some s.storage.buffers.bound, n, 0⟩ := by
    rw [Heap.read_alloc, if_pos rfl]
  have hbuf : (s.storage.allocate bytes).2.buffers.read s.storage.buffers.bound
      = some ⟨bytes, fun _ => none⟩ := by
    rw [Storage.read_allocate, if_pos rfl]
  constructor
  · rintro ⟨o, ho, -, ⟨harr, -⟩ | ⟨b, buf, harr, hread, hle⟩⟩
    · cases hvec.symm.trans ho
      cases harr
    · cases hvec.symm.trans ho
      cases harr
      cases hbuf.symm.trans hread
      exact hle
  · exact fun hle => ⟨_, hvec, rfl, Or.inr ⟨_, _, rfl, hbuf, hle⟩⟩

/-- **`VectorStorage(n)`** -/
theorem storageConstruct_iff (E : ElementType T) (n : ℕ) (s : World T) :
    LargeEnough E.sizeofT n (after s (Containers.storageConstruct E n))
      ↔ E.sizeofT * n < 2 ^ 64 := by
  constructor
  · intro h
    obtain ⟨r, s', hr, hplaces⟩ := h fun _ => false
    cases hr
    exact ((hasPlaces_new _ _ _).mp (hplaces _ rfl)).trans_lt (Nat.mod_lt _ (Nat.two_pow_pos 64))
  · refine fun hlt => largeEnough_of_triple fun plan => ?_
    unfold Containers.storageConstruct
    rw [Nat.mod_eq_of_lt hlt]
    refine Triple.bind ((Containers.operatorNew_spec _ _).error fun _ _ _ => trivial) fun b => ?_
    rintro s' ⟨rfl, rfl⟩
    exact ⟨_, rfl, (hasPlaces_new { s with plan := plan } _ _).mpr (Nat.le_refl _)⟩

/-- **`MyVectorBuf(n)`**, which requests nothing for no places. -/
theorem bufConstruct_iff (sizeofT n : ℕ) (s : World T) :
    LargeEnough sizeofT n (after s (MyVec3.bufConstruct sizeofT n)) ↔ sizeofT * n < 2 ^ 64 := by
  unfold MyVec3.bufConstruct MyVec3.memoryFor
  rcases Nat.eq_zero_or_pos n with rfl | hn
  · refine iff_of_true (fun plan => ⟨_, _, rfl, ?_⟩) (Nat.two_pow_pos 64)
    rintro v ⟨⟩
    exact ⟨_, if_pos rfl, rfl, Or.inl ⟨rfl, rfl⟩⟩
  rw [if_neg hn.ne']
  constructor
  · intro h
    obtain ⟨r, s', hr, hplaces⟩ := h fun _ => false
    cases hr
    exact ((hasPlaces_new _ _ _).mp (hplaces _ rfl)).trans_lt (Nat.mod_lt _ (Nat.two_pow_pos 64))
  · refine fun hlt => largeEnough_of_triple fun plan => ?_
    rw [Nat.mod_eq_of_lt hlt]
    refine Triple.bind (Triple.bind ((MyVec3.operatorNew_spec _ _).error fun _ _ _ => trivial)
      fun b => Triple.pure (Q := fun arr s' => arr = some s.storage.buffers.bound ∧ s' =
        { s with
          storage := (s.storage.allocate (sizeofT * n)).2
          plan := plan
          calls := s.calls + 1 }) fun s' hs' => ⟨congrArg some hs'.1, hs'.2⟩) fun arr => ?_
    rintro s' ⟨rfl, rfl⟩
    exact ⟨_, rfl, (hasPlaces_new { s with plan := plan } _ _).mpr (Nat.le_refl _)⟩

/-- **`Vector(size)`**, and `Vector(size, toCopy)` -/
theorem fillConstruct_iff {E : ElementType T} {s : World T} (hs : Containers.Represents E A s)
    (size : ℕ) (t : T) :
    LargeEnough E.sizeofT size (after s (Containers.fillConstruct E size t))
      ↔ E.sizeofT * size < 2 ^ 64 := by
  refine ⟨lt_of_largeEnough (below_of_represents hs) (keeps_fillConstruct size t), fun hlt => ?_⟩
  refine largeEnough_of_triple fun plan => ?_
  exact (Containers.fillConstruct_spec hlt).conseq
    (fun s' (hs' : s' = _) => hs' ▸ represents_plan hs plan)
    (fun v s' hs' => hasPlaces_of_represents hs'.2 (Function.update_self ..)) fun _ _ _ => trivial

/-- **`push` on a full `Vector`** -/
theorem push_iff {E : ElementType T} {s : World T} (hs : Containers.Represents E A s)
    (hv : A v = some c) (hfull : c.elems.length = c.capacity) (t : T) (nothrow : Bool) :
    LargeEnough E.sizeofT (2 * c.capacity + 1)
        (after s do
          Containers.push E v t nothrow
          return v)
      ↔ E.sizeofT * (2 * c.capacity + 1) < 2 ^ 64 := by
  refine ⟨lt_of_largeEnough (below_of_represents hs)
    ((keeps_push v t nothrow).bind fun _ => Keeps.pure v), fun hlt => ?_⟩
  have h := largeEnough_of_represents (fun plan => (Containers.push_spec (represents_plan hs plan)
    hv (fun _ => Or.inl hlt) t nothrow).error fun _ _ _ => trivial) (Function.update_self ..)
  unfold Containers.grownCapacity at h
  rwa [if_pos hfull] at h

/-- **`push` on a full vector of myvec-3** -/
theorem push3_iff {s : World T} (hsizeof : 0 < sizeofT) (hs : MyVec3.Represents sizeofT A s)
    (hv : A v = some c) (hfull : c.elems.length = c.capacity) (depth : ℕ) (t : T) :
    LargeEnough sizeofT (c.capacity * 2 + 1)
        (after s do
          MyVec3.push sizeofT (depth + 2) v t
          return v)
      ↔ sizeofT * (c.capacity * 2 + 1) < 2 ^ 64 := by
  refine ⟨lt_of_largeEnough (below_of_represents hs)
    ((keeps_push' (depth + 2) v t).bind fun _ => Keeps.pure v), fun hlt => ?_⟩
  show LargeEnough sizeofT (Contents.capacity ⟨c.elems ++ [t], c.capacity * 2 + 1⟩) _
  exact largeEnough_of_represents (fun plan =>
    (MyVec3.push_full depth hsizeof hv hfull hlt t).conseq
      (fun s' (hs' : s' = _) => hs' ▸ represents_plan hs plan) (fun _ _ => id)
      fun _ _ _ => trivial) (Function.update_self _ _ A)

section

variable {moved : T → T} {O : Addr → Option T} {s : MyVec4.World T}

/-- **`push(T &&)` on a full vector of myvec-4** -/
theorem pushMove_iff (hsizeof : 0 < sizeofT) (hs : MyVec4.Represents sizeofT A O s)
    (hv : A v = some c) (hfull : c.elems.length = c.capacity) (depth : ℕ) {a : Addr} {t : T}
    (ha : O a = some t) :
    LargeEnough sizeofT (c.capacity * 2 + 1)
        (afterMoving s do
          MyVec4.pushMove sizeofT moved (depth + 2) v (.object a)
          return v)
      ↔ sizeofT * (c.capacity * 2 + 1) < 2 ^ 64 := by
  refine ⟨lt_of_largeEnough_moving (below_of_represents hs.1)
    ((keeps_pushMove (depth + 2) v _).bind fun _ => Keeps.pure v), fun hlt => ?_⟩
  show LargeEnough sizeofT (Contents.capacity ⟨c.elems ++ [t], c.capacity * 2 + 1⟩) _
  exact largeEnough_of_represents_moving (fun plan =>
    (MyVec4.pushMove_full depth hsizeof hv ha hfull hlt).conseq
      (fun s' (hs' : s' = _) => hs' ▸ ⟨represents_plan hs.1 plan, hs.2⟩) (fun _ _ => id)
      fun _ _ _ => trivial) (Function.update_self _ _ A)

/-- **`push(const T &)` on a full vector of myvec-4** -/
theorem push4_iff (hsizeof : 0 < sizeofT) (hs : MyVec4.Represents sizeofT A O s)
    (hv : A v = some c) (hfull : c.elems.length = c.capacity) (depth : ℕ) (t : T) :
    LargeEnough sizeofT (c.capacity * 2 + 1)
        (afterMoving s do
          MyVec4.push sizeofT moved (depth + 2) v t
          return v)
      ↔ sizeofT * (c.capacity * 2 + 1) < 2 ^ 64 := by
  refine ⟨lt_of_largeEnough_moving (below_of_represents hs.1)
    ((keeps_pushMoving (depth + 2) v t).bind fun _ => Keeps.pure v), fun hlt => ?_⟩
  have hcap : (MyVec4.Contents.push c t).capacity = c.capacity * 2 + 1 := by
    unfold MyVec4.Contents.push
    rw [if_pos hfull]
  rw [← hcap]
  exact largeEnough_of_represents_moving (fun plan =>
    (MyVec4.push_spec depth hsizeof (s := { s with plan := plan })
      ⟨represents_plan hs.1 plan, hs.2⟩ hv fun _ => Or.inl hlt).error fun _ _ _ => trivial)
    (Function.update_self _ _ A)

end

/-- **The operations that request memory for `n` elements**, by what becomes
of them. A `push` does so where the vector is full, and memory is well-formed
before it. -/
inductive Requests : {ε : Type} → ℕ → ℕ → ((ℕ → Bool) → Option (Except ε Addr × World T)) → Prop
  /-- `VectorStorage(n)` -/
  | storage (E : ElementType T) (n : ℕ) (s : World T) :
    Requests E.sizeofT n (after s (Containers.storageConstruct E n))
  /-- `MyVectorBuf(n)` of myvec-3, and of myvec-4 -/
  | buf (sizeofT n : ℕ) (s : World T) :
    Requests sizeofT n (after s (MyVec3.bufConstruct sizeofT n))
  /-- `Vector(size)`, and `Vector(size, toCopy)` -/
  | fill {E : ElementType T} {A : Meaning T} {s : World T} (hs : Containers.Represents E A s)
    (size : ℕ) (t : T) : Requests E.sizeofT size (after s (Containers.fillConstruct E size t))
  /-- `push` of `Vector` -/
  | push {E : ElementType T} {A : Meaning T} {s : World T} {v : Addr} {c : Contents T}
    (hs : Containers.Represents E A s) (hv : A v = some c) (hfull : c.elems.length = c.capacity)
    (t : T) (nothrow : Bool) :
    Requests E.sizeofT (2 * c.capacity + 1)
      (after s do
        Containers.push E v t nothrow
        return v)
  /-- `push` of myvec-3 -/
  | push3 {sizeofT : ℕ} {A : Meaning T} {s : World T} {v : Addr} {c : Contents T}
    (hsizeof : 0 < sizeofT) (hs : MyVec3.Represents sizeofT A s) (hv : A v = some c)
    (hfull : c.elems.length = c.capacity) (depth : ℕ) (t : T) :
    Requests sizeofT (c.capacity * 2 + 1)
      (after s do
        MyVec3.push sizeofT (depth + 2) v t
        return v)
  /-- `push(T &&)` of myvec-4 -/
  | pushMove {sizeofT : ℕ} {moved : T → T} {A : Meaning T} {O : Addr → Option T}
    {s : MyVec4.World T} {v a : Addr} {c : Contents T} {t : T} (hsizeof : 0 < sizeofT)
    (hs : MyVec4.Represents sizeofT A O s) (hv : A v = some c)
    (hfull : c.elems.length = c.capacity) (depth : ℕ) (ha : O a = some t) :
    Requests sizeofT (c.capacity * 2 + 1)
      (afterMoving s do
        MyVec4.pushMove sizeofT moved (depth + 2) v (.object a)
        return v)
  /-- `push(const T &)` of myvec-4 -/
  | push4 {sizeofT : ℕ} {moved : T → T} {A : Meaning T} {O : Addr → Option T}
    {s : MyVec4.World T} {v : Addr} {c : Contents T} (hsizeof : 0 < sizeofT)
    (hs : MyVec4.Represents sizeofT A O s) (hv : A v = some c)
    (hfull : c.elems.length = c.capacity) (depth : ℕ) (t : T) :
    Requests sizeofT (c.capacity * 2 + 1)
      (afterMoving s do
        MyVec4.push sizeofT moved (depth + 2) v t
        return v)

/-- **Buffers are as large as their recorded capacity** if and only if the
number of bytes, as a number, is a value of `size_t`. -/
theorem largeEnough_iff {run : (ℕ → Bool) → Option (Except ε Addr × World T)}
    (h : Requests sizeofT n run) : LargeEnough sizeofT n run ↔ sizeofT * n < 2 ^ 64 := by
  cases h with
  | storage E n s => exact storageConstruct_iff E n s
  | buf sizeofT n s => exact bufConstruct_iff sizeofT n s
  | fill hs _ t => exact fillConstruct_iff hs n t
  | push hs hv hfull t nothrow => exact push_iff hs hv hfull t nothrow
  | push3 hsizeof hs hv hfull depth t => exact push3_iff hsizeof hs hv hfull depth t
  | pushMove hsizeof hs hv hfull depth ha => exact pushMove_iff hsizeof hs hv hfull depth ha
  | push4 hsizeof hs hv hfull depth t => exact push4_iff hsizeof hs hv hfull depth t

/-- A vector of two words. -/
theorem largeEnough_two : LargeEnough 8 2
    (after (World.start fun _ => false) (Containers.fillConstruct Containers.word 2 5)) :=
  (largeEnough_iff (Requests.fill (E := Containers.word)
    (MyVec3.represents_start 8 fun _ => false) 2 5)).mpr (by decide)

/-- **A request that wraps around**: no bytes for `2 ^ 61` words. -/
theorem not_largeEnough_wrap : ¬ LargeEnough 8 (2 ^ 61)
    (after (World.start fun _ => false) (Containers.storageConstruct Containers.word (2 ^ 61))) :=
  fun h => absurd ((storageConstruct_iff Containers.word (2 ^ 61) _).mp h) (by decide)

end Capacity
