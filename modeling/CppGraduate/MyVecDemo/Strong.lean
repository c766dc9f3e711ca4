import CppGraduate.MyVecDemo.Contents

/-!
# The strong guarantee of myvec-3

Every operation on vectors that hold lists either does to the lists what its
name says or throws and does nothing to any of them, as long as no request
for memory is so large that its size in bytes is not a value of `size_t`.

Each part of an operation has a triple whose two postconditions say what the
vectors stand for. The temporaries of `push` and of the assignment have
addresses at which nothing lived, and nothing lives there in the end.
-/

namespace MyVec3

open Prog

variable {T : Type} {sizeofT : ℕ} {A : Meaning T} {v : Addr} {c : Contents T}

/-! ## Temporaries -/

/-- A temporary came and went. -/
theorem update_none {u : Addr} (hu : A u = none) (x : Option (Contents T)) :
    Function.update (Function.update A u x) u none = A := by
  rw [Function.update_idem, ← hu, Function.update_eq_self]

/-- **A temporary takes the place of a vector** and the vector is destroyed
with it. -/
theorem update_swap {u : Addr} (hu : A u = none) (hvu : v ≠ u) (x : Option (Contents T)) :
    Function.update (Function.update A u x ∘ Equiv.swap v u) u none = Function.update A v x := by
  rw [Equiv.comp_swap_eq_update, Function.update_self, Function.update_comm hvu, Function.update_idem,
    update_none hu]

/-- A living vector is not where none lives. -/
theorem ne_of_none {u : Addr} (hv : A v = some c) (hu : A u = none) : v ≠ u := by
  rintro rfl
  rw [hu] at hv
  cases hv

/-- **The end of a scope with a temporary** that was exchanged for a vector. -/
theorem bufDestruct_swap {u : Addr} {x : Contents T} {s : World T}
    (h : Represents sizeofT (Function.update A u (some x) ∘ Equiv.swap v u) s)
    (hv : A v = some c) (hu : A u = none) :
    ∃ s', bufDestruct u s = some s'
      ∧ Represents sizeofT (Function.update A v (some x)) s' := by
  have hvu := ne_of_none hv hu
  obtain ⟨s', hs', h'⟩ := bufDestruct_spec (v := u) (c := c) h (by
    rw [Function.comp_apply, Equiv.swap_apply_right, Function.update_of_ne hvu, hv])
  rw [update_swap hu hvu] at h'
  exact ⟨s', hs', h'⟩

/-- The end of a scope with a temporary that was not. -/
theorem bufDestruct_temporary {u : Addr} {x : Contents T} {s : World T}
    (h : Represents sizeofT (Function.update A u (some x)) s) (hu : A u = none) :
    ∃ s', bufDestruct u s = some s' ∧ Represents sizeofT A s' := by
  obtain ⟨s', hs', h'⟩ := bufDestruct_spec (v := u) (c := x) h (Function.update_self ..)
  rw [update_none hu] at h'
  exact ⟨s', hs', h'⟩

/-! ## Copies -/

/-- **The loop that fills a vector**: it has the list of `src` then, or a
part of it when an element could not be put. -/
theorem fillFrom_spec (put : T → Prog (World T) Exc Unit) {u src : Addr} (cap : ℕ)
    (hsrc : A src = some c) (hne : src ≠ u)
    (hput : ∀ l t, l.length < c.elems.length →
      Triple (Represents sizeofT (Function.update A u (some ⟨l, cap⟩))) (put t)
        (fun _ => Represents sizeofT (Function.update A u (some ⟨l ++ [t], cap⟩)))
        fun _ => Represents sizeofT (Function.update A u (some ⟨l, cap⟩)))
    (passes k : ℕ) (hk : k + passes = c.elems.length) :
    Triple (Represents sizeofT (Function.update A u (some ⟨c.elems.take k, cap⟩)))
      (fillFrom put u src passes)
      (fun _ => Represents sizeofT (Function.update A u (some ⟨c.elems, cap⟩)))
      fun _ s => ∃ l, Represents sizeofT (Function.update A u (some ⟨l, cap⟩)) s := by
  have hsrc' : ∀ x, Function.update A u x src = some c := fun x => by
    rw [Function.update_of_ne hne, hsrc]
  have hlen : (c.elems.take k).length = k := by
    rw [List.length_take]
    omega
  induction passes generalizing k with
  | zero =>
    have hall : c.elems.take k = c.elems := List.take_of_length_le (by omega)
    refine members_bind (Function.update_self ..) fun o _ hused => ?_
    refine (members_bind (hsrc' _) fun r _ hused' => Triple.assert (fun _ _ => ?_)
      fun s hs => ?_).pre fun _ hs => hs.1
    · rw [hused, hused', hlen]
      omega
    · rw [← hall]
      exact hs.1
  | succ passes ih =>
    have hlt : k < c.elems.length := by omega
    refine members_bind (Function.update_self ..) fun o _ hused => ?_
    refine (members_bind (hsrc' _) fun r _ hused' => ?_).pre fun _ hs => hs.1
    rw [if_pos (by rw [hused, hused', hlen]; exact hlt)]
    -- the next element of the other vector
    refine Triple.bind (Q := fun t s => t = c.elems.get ⟨k, hlt⟩
      ∧ Represents sizeofT (Function.update A u (some ⟨c.elems.take k, cap⟩)) s)
      (Triple.ask fun s hs => ⟨_, ?_, rfl, hs.1⟩) fun t => ?_
    · rw [hs.1.element_eq (hsrc' _) hs.2, hused, hlen]
      exact List.getElem?_eq_getElem hlt
    · refine Triple.of_forall fun s hs => ?_
      have htake : c.elems.take k ++ [t] = c.elems.take (k + 1) := by
        rw [hs.1, List.get_eq_getElem, List.take_append_getElem]
      refine Triple.bind (((hput (c.elems.take k) t (by rw [hlen]; exact hlt)).conseq
        (fun s' hs' => hs' ▸ hs.2) (fun _ _ => id) fun _ s' hs' => ⟨_, hs'⟩)) fun _ => ?_
      rw [htake]
      exact ih (k + 1) (by omega) (by rw [List.length_take]; omega)

/-- **The copy constructor**: a vector with the same list, or nothing. -/
theorem copyConstruct_spec {rhs : Addr} (hv : A rhs = some c) :
    Triple (Represents sizeofT A) (copyConstruct sizeofT rhs)
      (fun u s => A u = none
        ∧ Represents sizeofT (Function.update A u (some ⟨c.elems, c.elems.length⟩)) s)
      fun _ => Represents sizeofT A := by
  refine members_bind hv fun r _ hused => Triple.of_forall fun s hs => ?_
  rw [hused]
  refine Triple.bind ((bufConstruct_spec (hs.1.fits hv)).pre fun s' hs' => hs' ▸ hs.1)
    fun u => Triple.of_forall fun s' ⟨hu, hs'⟩ => ?_
  have hne := ne_of_none hv hu
  have hput : ∀ l t, l.length < c.elems.length →
      Triple (Represents sizeofT (Function.update A u (some ⟨l, c.elems.length⟩)))
        (emplace sizeofT u t)
        (fun _ => Represents sizeofT (Function.update A u (some ⟨l ++ [t], c.elems.length⟩)))
        fun _ => Represents sizeofT (Function.update A u (some ⟨l, c.elems.length⟩)) := by
    intro l t hl
    have h := @emplace_spec T sizeofT (Function.update A u (some ⟨l, c.elems.length⟩)) u _
      (Function.update_self ..) hl t
    rwa [Function.update_idem] at h
  have hfill := fillFrom_spec (emplace sizeofT u) c.elems.length hv hne hput c.elems.length 0
    (Nat.zero_add _)
  refine Triple.bind ((hfill.pre fun s'' (hs'' : s'' = s') => ?_).onThrow fun e s'' ⟨l, hl⟩ =>
    bufDestruct_temporary hl hu) fun _ => Triple.pure fun s'' hs'' => ⟨hu, hs''⟩
  rw [hs'']
  exact hs'

/-- **The copy assignment**: the vector gets the same list, or nothing
happens. -/
theorem copyAssign_spec {rhs : Addr} {d : Contents T} (hv : A v = some d)
    (hr : A rhs = some c) :
    Triple (Represents sizeofT A) (copyAssign sizeofT v rhs)
      (fun _ => Represents sizeofT (Function.update A v (some ⟨c.elems, c.elems.length⟩)))
      fun _ => Represents sizeofT A := by
  refine Triple.bind (copyConstruct_spec hr) fun u => Triple.of_forall fun s ⟨hu, hs⟩ => ?_
  have hvu := ne_of_none hv hu
  refine Triple.leaving (R := fun _ _ => False) (Triple.update fun s' hs' => swap_spec (hs' ▸ hs)
    (by rw [Function.update_of_ne hvu, hv]; rfl) (by rw [Function.update_self]; rfl))
    (fun _ s' hs' => bufDestruct_swap hs' hv hu) fun _ _ h => h.elim

/-! ## One vector -/

/-- **`top`** yields the last element, or throws. -/
theorem top_spec (hv : A v = some c) :
    Triple (Represents sizeofT A) (top v)
      (fun t s => c.elems.getLast? = some t ∧ Represents sizeofT A s)
      fun _ => Represents sizeofT A := by
  refine members_bind hv fun o _ hused => ?_
  split_ifs with hempty
  · exact Triple.raise fun _ hs => hs.1
  · have hlt : c.elems.length - 1 < c.elems.length := by omega
    refine Triple.bind (Q := fun t s => c.elems.getLast? = some t ∧ Represents sizeofT A s)
      (Triple.ask fun s hs => ⟨c.elems.get ⟨_, hlt⟩, ?_, ?_, hs.1⟩)
      fun t => Triple.of_forall fun s hs => ?_
    · rw [hs.1.element_eq hv hs.2, hused]
      exact List.getElem?_eq_getElem hlt
    · rw [List.getLast?_eq_getElem?]
      exact List.getElem?_eq_getElem hlt
    · refine Triple.bind ((throws_spec (A := A)).pre fun s' hs' => hs' ▸ hs.2) fun r => ?_
      split_ifs
      · exact Triple.raise fun _ => id
      · exact Triple.pure fun s' hs' => ⟨hs.1, hs'⟩

/-- **`pop`** destroys the last element, or throws. -/
theorem pop_spec (hv : A v = some c) :
    Triple (Represents sizeofT A) (pop v)
      (fun _ s => c.elems ≠ []
        ∧ Represents sizeofT (Function.update A v (some ⟨c.elems.dropLast, c.capacity⟩)) s)
      fun _ => Represents sizeofT A := by
  refine members_bind hv fun o hsize hused => ?_
  split_ifs with hempty
  · exact Triple.raise fun _ hs => hs.1
  · refine Triple.of_forall fun s ⟨hs, ho⟩ => ?_
    have hne : c.elems ≠ [] := by
      intro hnil
      rw [hnil] at hused
      exact hempty (hused ▸ Nat.one_pos)
    obtain ⟨b, st, harr, hst, hnew⟩ := hs.destroyLast hv ho hne
    -- the count goes down before the object is destroyed
    refine Triple.bind (Q := fun _ s' => s' =
      { s with vecs := s.vecs.mapAt v fun _ => { o with used := o.used - 1 } })
      (Triple.update fun s' hs' => ⟨_, by rw [hs']; exact setMembers_eq ho _, rfl⟩)
      fun _ => Triple.update fun s' hs' => ⟨_, ?_, hne, hnew⟩
    rw [hs', harr]
    show (s.storage.destroy b (o.used - 1)).map _ = _
    rw [hst, Option.map_some]

/-! ## push -/

/-- Memory that is refused. -/
theorem bufConstruct_refused {sz : ℕ} (hsz : sz ≠ 0) :
    Triple (fun s => Represents sizeofT A s ∧ s.plan s.calls = true) (bufConstruct sizeofT sz)
      (fun _ _ => False) fun _ => Represents sizeofT A := by
  unfold bufConstruct memoryFor
  rw [if_neg hsz]
  have hnew : Triple (fun s => Represents sizeofT A s ∧ s.plan s.calls = true)
      (operatorNew (sizeofT * sz % 2 ^ 64)) (fun _ _ => False) fun _ => Represents sizeofT A := by
    refine Triple.bind (Q := fun r s => r = true ∧ Represents sizeofT A s)
      (fun s hs => ⟨_, rfl, hs.2, hs.1.call _⟩) fun r => Triple.of_forall fun s hs => ?_
    rw [hs.1]
    exact Triple.raise fun s' hs' => hs' ▸ hs.2
  refine Triple.bind (Q := fun _ _ => False) ?_ fun _ _ h => h.elim
  exact Triple.bind hnew fun _ _ h => h.elim

/-- **`push` on a vector with room.** -/
theorem push_room (depth : ℕ) (hv : A v = some c) (hroom : c.elems.length < c.capacity) (t : T) :
    Triple (Represents sizeofT A) (push sizeofT (depth + 1) v t)
      (fun _ => Represents sizeofT (Function.update A v (some ⟨c.elems ++ [t], c.capacity⟩)))
      fun _ => Represents sizeofT A := by
  refine members_bind hv fun o hsize hused => ?_
  have hlt : o.used < o.size := by
    rw [hsize, hused]
    exact hroom
  refine Triple.bind (Q := fun _ => Represents sizeofT A)
    (Triple.assert (fun _ _ => Nat.le_of_lt hlt) fun s hs => hs.1) fun _ => ?_
  rw [if_neg (Nat.ne_of_lt hlt)]
  exact emplace_spec hv hroom t

/-- **`push` on a full vector**: a temporary of more than twice its capacity
takes its place. -/
theorem push_full (depth : ℕ) (hsizeof : 0 < sizeofT) (hv : A v = some c)
    (hfull : c.elems.length = c.capacity) (hfits : sizeofT * (c.capacity * 2 + 1) < 2 ^ 64)
    (t : T) :
    Triple (Represents sizeofT A) (push sizeofT (depth + 2) v t)
      (fun _ => Represents sizeofT
        (Function.update A v (some ⟨c.elems ++ [t], c.capacity * 2 + 1⟩)))
      fun _ => Represents sizeofT A := by
  refine members_bind hv fun o hsize hused => ?_
  have hsame : o.used = o.size := by rw [hsize, hused, hfull]
  have hmod : (o.size * 2 + 1) % 2 ^ 64 = c.capacity * 2 + 1 := by
    rw [hsize]
    exact Nat.mod_eq_of_lt (Nat.lt_of_le_of_lt (Nat.le_mul_of_pos_left _ hsizeof) hfits)
  refine Triple.bind (Q := fun _ => Represents sizeofT A)
    (Triple.assert (fun _ _ => Nat.le_of_eq hsame) fun s hs => hs.1) fun _ => ?_
  rw [if_pos hsame, hmod]
  refine Triple.bind (bufConstruct_spec hfits) fun u => Triple.of_forall fun s ⟨hu, hs⟩ => ?_
  have hvu := ne_of_none hv hu
  -- every call on the temporary finds room
  have hput : ∀ l t, l.length < c.capacity * 2 + 1 →
      Triple (Represents sizeofT (Function.update A u (some ⟨l, c.capacity * 2 + 1⟩)))
        (push sizeofT (depth + 1) u t)
        (fun _ => Represents sizeofT
          (Function.update A u (some ⟨l ++ [t], c.capacity * 2 + 1⟩)))
        fun _ => Represents sizeofT (Function.update A u (some ⟨l, c.capacity * 2 + 1⟩)) := by
    intro l t hl
    have h := @push_room T sizeofT (Function.update A u (some ⟨l, c.capacity * 2 + 1⟩)) u _ depth
      (Function.update_self ..) hl t
    rwa [Function.update_idem] at h
  have hfill := fillFrom_spec (push sizeofT (depth + 1) u) (c.capacity * 2 + 1) hv hvu
    (fun l t hl => hput l t (by omega)) c.elems.length 0 (Nat.zero_add _)
  rw [hused]
  -- the temporary is destroyed on both ways out
  refine Triple.leaving ((Triple.bind (hfill.pre fun _ h => h ▸ hs) fun _ =>
    Triple.bind ((hput c.elems t (by omega)).error fun _ s' hs' => ⟨_, hs'⟩) fun _ =>
      Triple.update fun s' hs' => swap_spec hs' ?_ ?_))
    (fun _ s' hs' => bufDestruct_swap hs' hv hu) fun _ s' ⟨l, hl⟩ => bufDestruct_temporary hl hu
  · rw [Function.update_of_ne hvu, hv]
    rfl
  · rw [Function.update_self]
    rfl

/-- `push` on a full vector that is refused memory. -/
theorem push_refused (depth : ℕ) (hv : A v = some c) (hfull : c.elems.length = c.capacity)
    (t : T) {Q : Unit → World T → Prop} :
    Triple (fun s => Represents sizeofT A s ∧ s.plan s.calls = true)
      (push sizeofT (depth + 1) v t) Q fun _ => Represents sizeofT A := by
  refine Triple.of_forall fun s ⟨hs, hplan⟩ => ?_
  obtain ⟨o, ho, hholds⟩ := hs.holds hv
  have hsame : o.used = o.size := by rw [hholds.used, hholds.size, hfull]
  refine Triple.bind (Q := fun a s' => a = o ∧ s' = s)
    (Triple.ask fun s' hs' => ⟨o, hs' ▸ ho, rfl, hs'⟩) fun a => Triple.of_forall ?_
  rintro s' ⟨rfl, rfl⟩
  refine Triple.bind (Q := fun _ s' => Represents sizeofT A s' ∧ s'.plan s'.calls = true)
    (Triple.assert (fun _ _ => Nat.le_of_eq hsame) fun s' hs' => hs' ▸ ⟨hs, hplan⟩) fun _ => ?_
  rw [if_pos hsame]
  exact Triple.bind (bufConstruct_refused (by omega)) fun _ _ h => h.elim

/-! ## Programs -/

/-- **What an operation does to lists**: what it yields, and what the vectors
stand for after it. -/
inductive Effect (A : Meaning T) : Op T → Reply T → Meaning T → Prop
  | construct {sz : ℕ} {v : Addr} (hv : A v = none) :
    Effect A (.construct sz) (.vector v) (Function.update A v (some ⟨[], sz⟩))
  | copy {rhs v : Addr} {c : Contents T} (hc : A rhs = some c) (hv : A v = none) :
    Effect A (.copy rhs) (.vector v) (Function.update A v (some ⟨c.elems, c.elems.length⟩))
  /-- The list is moved out of `rhs`. -/
  | move {rhs v : Addr} {c : Contents T} (hc : A rhs = some c) (hv : A v = none) :
    Effect A (.move rhs) (.vector v)
      (Function.update (Function.update A rhs (some ⟨[], 0⟩)) v (some c))
  | copyAssign {v rhs : Addr} {c : Contents T} (hc : A rhs = some c) :
    Effect A (.copyAssign v rhs) .none
      (Function.update A v (some ⟨c.elems, c.elems.length⟩))
  /-- The lists are exchanged. -/
  | moveAssign {v rhs : Addr} {c d : Contents T} (hc : A v = some c) (hd : A rhs = some d) :
    Effect A (.moveAssign v rhs) .none
      (Function.update (Function.update A v (some d)) rhs (some c))
  | push {v : Addr} {t : T} {c : Contents T} (hc : A v = some c) :
    Effect A (.push v t) .none (Function.update A v (some ⟨c.elems ++ [t],
      if c.elems.length = c.capacity then c.capacity * 2 + 1 else c.capacity⟩))
  | pop {v : Addr} {c : Contents T} (hc : A v = some c) (hne : c.elems ≠ []) :
    Effect A (.pop v) .none (Function.update A v (some ⟨c.elems.dropLast, c.capacity⟩))
  | top {v : Addr} {t : T} {c : Contents T} (hc : A v = some c)
    (ht : c.elems.getLast? = some t) : Effect A (.top v) (.value t) A
  | destruct {v : Addr} : Effect A (.destruct v) .none (Function.update A v none)

/-- **The sizes an operation asks memory for are values of `size_t`**, or
memory is refused. Elements that are copied have their place in memory
already, so this is about sized constructions and about calls of `push` on
full vectors. -/
def Op.Fits (sizeofT : ℕ) : Op T → World T → Prop
  | .construct sz, s => sizeofT * sz < 2 ^ 64 ∨ s.plan s.calls = true
  | .push v _, s => ∀ o, s.vecs.read v = some o → o.used = o.size →
    sizeofT * (o.size * 2 + 1) < 2 ^ 64 ∨ s.plan s.calls = true
  | _, _ => True

/-- **Every operation does what it does to lists or nothing.** -/
theorem step_spec {depth : ℕ} (hsizeof : 0 < sizeofT) (hdepth : 2 ≤ depth) {s : World T} {op : Op T}
    (h : Represents sizeofT A s) (hlegal : op.Legal s) (hfits : op.Fits sizeofT s) :
    Triple (· = s) (step sizeofT depth op)
      (fun r s' => ∃ A', Effect A op r A' ∧ Represents sizeofT A' s')
      fun _ => Represents sizeofT A := by
  obtain ⟨depth, rfl⟩ := Nat.exists_eq_add_of_le' hdepth
  have hmeaning : ∀ v ∈ op.subjects, ∃ c, A v = some c := fun v hv => h.meaning (hlegal v hv)
  have hpre : ∀ s', s' = s → Represents sizeofT A s' := fun s' hs' => hs' ▸ h
  cases op with
  | construct sz =>
    refine Triple.bind (Q := fun v s' => ∃ A', Effect A (.construct sz) (.vector v) A'
      ∧ Represents sizeofT A' s') ?_ fun v => Triple.pure fun _ => id
    rcases hfits with hlt | hplan
    · exact (bufConstruct_spec hlt).conseq hpre (fun v s' hs' => ⟨_, .construct hs'.1, hs'.2⟩)
        fun _ _ => id
    · by_cases hsz : sz = 0
      · exact (bufConstruct_spec (hsz ▸ Nat.two_pow_pos 64)).conseq hpre
          (fun v s' hs' => ⟨_, .construct hs'.1, hs'.2⟩) fun _ _ => id
      · exact (bufConstruct_refused hsz).conseq (fun s' hs' => hs' ▸ ⟨h, hplan⟩)
          (fun _ _ h => h.elim) fun _ _ => id
  | copy rhs =>
    obtain ⟨c, hc⟩ := hmeaning rhs (List.mem_singleton_self _)
    exact Triple.bind ((copyConstruct_spec hc).pre hpre) fun v =>
      Triple.pure fun s' hs' => ⟨_, .copy hc hs'.1, hs'.2⟩
  | move rhs =>
    obtain ⟨c, hc⟩ := hmeaning rhs (List.mem_singleton_self _)
    obtain ⟨u, s', hs', hu, h'⟩ := moveConstruct_spec h (w := rhs) (by rw [hc]; rfl)
    have hne := ne_of_none hc hu
    rintro _ rfl
    refine ⟨(.ok (.vector u), s'), ?_, _, .move hc hu, ?_⟩
    · show (moveConstruct rhs _).map _ = _
      rw [hs', Option.map_some]
    · rwa [Equiv.comp_swap_eq_update, Function.update_self, Function.update_of_ne hne, hc,
        Function.update_comm hne, Function.update_idem, Function.update_comm hne.symm] at h'
  | copyAssign v rhs =>
    obtain ⟨c, hc⟩ := hmeaning rhs (List.mem_cons_of_mem _ (List.mem_singleton_self _))
    obtain ⟨d, hd⟩ := hmeaning v List.mem_cons_self
    exact Triple.bind ((copyAssign_spec hd hc).pre hpre) fun _ =>
      Triple.pure fun s' hs' => ⟨_, .copyAssign hc, hs'⟩
  | moveAssign v rhs =>
    obtain ⟨c, hc⟩ := hmeaning v List.mem_cons_self
    obtain ⟨d, hd⟩ := hmeaning rhs (List.mem_cons_of_mem _ (List.mem_singleton_self _))
    refine Triple.bind (Q := fun _ => Represents sizeofT (A ∘ Equiv.swap v rhs))
      (Triple.update fun s' hs' => moveAssign_spec (hpre s' hs') (by rw [hc]; rfl)
        (by rw [hd]; rfl)) fun _ => Triple.pure fun s' hs' => ⟨_, .moveAssign hc hd, ?_⟩
    rwa [Equiv.swap_comm, Equiv.comp_swap_eq_update, hc, hd] at hs'
  | push v t =>
    obtain ⟨c, hc⟩ := hmeaning v (List.mem_singleton_self _)
    refine Triple.bind (Q := fun _ => Represents sizeofT (Function.update A v
      (some ⟨c.elems ++ [t], if c.elems.length = c.capacity then c.capacity * 2 + 1
        else c.capacity⟩))) ?_ fun _ => Triple.pure fun s' hs' => ⟨_, .push hc, hs'⟩
    obtain ⟨o, ho, hholds⟩ := h.holds hc
    -- only a full vector asks for memory
    by_cases hfull : c.elems.length = c.capacity
    · rw [if_pos hfull]
      rcases hfits o ho (by rw [hholds.used, hholds.size, hfull]) with hlt | hplan
      · exact (push_full depth hsizeof hc hfull (hholds.size ▸ hlt) t).pre hpre
      · exact (push_refused _ hc hfull t).pre fun s' hs' => hs' ▸ ⟨h, hplan⟩
    · rw [if_neg hfull]
      exact (push_room (depth + 1) hc (Nat.lt_of_le_of_ne hholds.room hfull) t).pre hpre
  | pop v =>
    obtain ⟨c, hc⟩ := hmeaning v (List.mem_singleton_self _)
    exact Triple.bind ((pop_spec hc).pre hpre) fun _ =>
      Triple.pure fun s' hs' => ⟨_, .pop hc hs'.1, hs'.2⟩
  | top v =>
    obtain ⟨c, hc⟩ := hmeaning v (List.mem_singleton_self _)
    exact Triple.bind ((top_spec hc).pre hpre) fun t =>
      Triple.pure fun s' hs' => ⟨_, .top hc hs'.1, hs'.2⟩
  | destruct v =>
    obtain ⟨c, hc⟩ := hmeaning v (List.mem_singleton_self _)
    exact Triple.bind (Triple.update fun s' hs' => bufDestruct_spec (hpre s' hs') hc) fun _ =>
      Triple.pure fun s' hs' => ⟨_, .destruct, hs'⟩

/-- The memory represents lists in every state reached. -/
theorem Reachable.represents {depth : ℕ} (hsizeof : 0 < sizeofT) (hdepth : 2 ≤ depth) {s : World T}
    (h : Reachable sizeofT depth (Op.Fits sizeofT) s) : Represents sizeofT s.contents s := by
  have hex : ∃ A, Represents sizeofT A s := by
    induction h with
    | start plan => exact ⟨_, represents_start sizeofT plan⟩
    | @step op s s' r _ hlegal hfits hstep ih =>
      obtain ⟨A, hA⟩ := ih
      have hend := (step_spec hsizeof hdepth hA hlegal hfits).ends rfl hstep
      match r, hend with
      | .ok a, ⟨A', _, hA'⟩ => exact ⟨A', hA'⟩
      | .error e, hA' => exact ⟨A, hA'⟩
  obtain ⟨A, hA⟩ := hex
  exact hA.contents_eq ▸ hA

/-- **The strong guarantee of myvec-3**: in every run whose requests for
memory fit `size_t`, whichever of the calls that may throw do, every further
such operation has a result; if it throws, the vectors have the contents they
had, and otherwise the contents are what the operation makes of lists. When
no vector is left, every element that was constructed was destroyed exactly
once. -/
theorem reachable_strong {depth : ℕ} (hsizeof : 0 < sizeofT) (hdepth : 2 ≤ depth) {s : World T}
    (h : Reachable sizeofT depth (Op.Fits sizeofT) s) :
    (∀ op : Op T, op.Legal s → op.Fits sizeofT s →
      ∃ r s', step sizeofT depth op s = some (r, s') ∧
        match r with
        | .ok reply => Effect s.contents op reply s'.contents
        | .error _ => s'.contents = s.contents)
    ∧ ((∀ v, s.vecs.read v = none) → s.storage.dead.Perm (List.range s.storage.born)) := by
  have hs := h.represents hsizeof hdepth
  refine ⟨fun op hlegal hfits => ?_, hs.perm_range⟩
  obtain ⟨⟨r, s'⟩, hstep, hend⟩ := step_spec hsizeof hdepth hs hlegal hfits s rfl
  refine ⟨r, s', hstep, ?_⟩
  match r, hend with
  | .ok a, ⟨A', heffect, hA'⟩ => exact hA'.contents_eq ▸ heffect
  | .error e, hA' => exact hA'.contents_eq

/-- A full vector is pushed to and the second copy of an element throws. -/
theorem reachable_strong_full : ∃ (s s' : World ℕ) (e : Exc),
    s.contents 0 = some ⟨[7], 1⟩ ∧ step 8 2 (.push 0 9) s = some (.error e, s')
      ∧ s'.contents = s.contents := by
  have h₁ := @Reachable.step ℕ 8 2 (Op.Fits 8) (.construct 1) _ _ _
    (.start fun n => n = 4) nofun (Or.inl (by decide)) rfl
  have h₂ := @Reachable.step ℕ 8 2 (Op.Fits 8) (.push 0 7) _ _ _ h₁
    (fun v hv => by cases hv with | head => rfl | tail _ h => nomatch h)
    (fun o ho hfull => by cases ho; cases hfull) rfl
  obtain ⟨s, h₂, hread, hcontents, hthrows⟩ : ∃ s : World ℕ, Reachable 8 2 (Op.Fits 8) s
      ∧ s.vecs.read 0 = some ⟨some 0, 1, 1⟩ ∧ s.contents 0 = some ⟨[7], 1⟩
      ∧ (step 8 2 (.push 0 9) s).map (fun p => p.1.isOk) = some false :=
    ⟨_, h₂, rfl, rfl, by decide +kernel⟩
  obtain ⟨r, s', hstep, hend⟩ := (reachable_strong (by decide) (Nat.le_refl 2) h₂).1 (.push 0 9)
    (fun v hv => by rw [List.mem_singleton.mp hv, hread]; rfl)
    (fun o ho _ => by rw [hread] at ho; cases ho; exact Or.inl (by decide))
  rw [hstep] at hthrows
  match r, hstep, hend with
  | .ok _, _, _ => cases hthrows
  | .error e, hstep, hend => exact ⟨s, s', e, hcontents, hstep, hend⟩

/-- **A request that wraps around**: the vector has room for `2 ^ 61` elements
of eight bytes by its capacity, and no memory. -/
theorem not_reachable_isSome : ¬ ∀ s : World ℕ, Reachable 8 2 (fun _ _ => True) s →
    ∀ op : Op ℕ, op.Legal s → (MyVec3.step 8 2 op s).isSome := by
  intro h
  have h₁ := @Reachable.step ℕ 8 2 (fun _ _ => True) (.construct (2 ^ 61)) _ _ _
    (.start fun _ => false) nofun trivial rfl
  have h₂ := h _ h₁ (.push 0 5)
    (fun v hv => by cases hv with | head => rfl | tail _ h => nomatch h)
  cases h₂

end MyVec3
