import CppGraduate.Containers.Vector
import CppGraduate.MyVecDemo.Strong

/-!
# What `containers::Vector` guarantees

The vectors stand for lists as those of myvec-3 do, and what was shown there
about a change of one vector, about vectors that begin or cease to live and
about vectors that change places is used here.

An element is constructed first and counted afterwards, so there is a moment
at which it is in memory and not yet an element (`Counted`). Should the
construction of the next one throw, `size_` says how many there are to
destroy; that is all the loops rely on, and `fillTo_spec` says it for all of
them. `realloc` moves only what cannot throw, after the memory has been
allocated.
-/

namespace Containers

open Prog
open MyVec3 (Addr World MyVectorBuf Contents Meaning ne_of_none update_none given length_given
  getElem_given given_succ given_zero)

variable {T : Type} {E : ElementType T} {A B : Meaning T} {v u : Addr} {c : Contents T}

/-- The vectors stand for `A`. -/
abbrev Represents (E : ElementType T) (A : Meaning T) : World T → Prop :=
  MyVec3.Represents E.sizeofT A

/-! ## The parts of the operations -/

/-- **A program that begins with the members of a vector.** -/
theorem members_bind {β : Type} (hv : A v = some c) {f : VectorStorage → Prog (World T) Exc β}
    {Q : β → World T → Prop} {R : Exc → World T → Prop}
    (h : ∀ o : VectorStorage, o.allocated_ = c.capacity → o.size_ = c.elems.length →
      Triple (fun s => Represents E A s ∧ s.vecs.read v = some o.rep) (f o) Q R) :
    Triple (Represents E A) (members v >>= f) Q R := by
  refine Triple.of_forall fun s hs => ?_
  obtain ⟨o, ho, hholds⟩ := hs.holds hv
  refine Triple.bind (Q := fun a s' => a = VectorStorage.ofRep o ∧ s' = s)
    (Triple.ask fun s' hs' => ⟨_, by rw [hs', ho, Option.map_some], rfl, hs'⟩) fun a =>
    Triple.of_forall fun s' hs' => ?_
  rw [hs'.1, hs'.2]
  exact (h (.ofRep o) hholds.size hholds.used).conseq (fun _ hs'' => hs'' ▸ ⟨hs, ho⟩)
    (fun _ _ => id) fun _ _ => id

/-- **`operator new`** allocates, or throws and is counted. -/
theorem operatorNew_spec (s : World T) (bytes : ℕ) :
    Triple (· = s) (operatorNew bytes)
      (fun b s' => b = s.storage.buffers.bound
        ∧ s' = { s with storage := (s.storage.allocate bytes).2, calls := s.calls + 1 })
      fun _ s' => s' = { s with calls := s.calls + 1 } := by
  unfold operatorNew
  refine Triple.bind (Q := fun _ s' => s' = { s with calls := s.calls + 1 })
    (fun s' hs' => ⟨_, rfl, by subst hs'; rfl⟩) fun r => ?_
  split_ifs
  · exact Triple.raise fun s' hs' => hs'
  · rintro s' rfl
    exact ⟨_, rfl, rfl, rfl⟩

/-- **A new storage**, without elements, or nothing happens. -/
theorem storageConstruct_spec {sz : ℕ} (hfits : E.sizeofT * sz < 2 ^ 64) :
    Triple (Represents E A) (storageConstruct E sz)
      (fun v s => A v = none ∧ Represents E (Function.update A v (some ⟨[], sz⟩)) s)
      fun _ => Represents E A := by
  refine Triple.of_forall fun s hs => ?_
  have hnone : A s.vecs.bound = none := hs.none_of_read (Heap.read_bound _)
  unfold storageConstruct
  rw [Nat.mod_eq_of_lt hfits]
  refine Triple.bind ((operatorNew_spec s _).error fun _ s' hs' => hs' ▸ hs.call _) fun b => ?_
  rintro s' ⟨rfl, rfl⟩
  exact ⟨_, rfl, hnone, (hs.call (s.calls + 1)).allocate hfits⟩

/-- Memory that is refused. -/
theorem storageConstruct_refused {sz : ℕ} :
    Triple (fun s => Represents E A s ∧ s.plan s.calls = true) (storageConstruct E sz)
      (fun _ _ => False) fun _ => Represents E A := by
  refine Triple.bind (Q := fun _ _ => False) ?_ fun _ _ h => h.elim
  refine Triple.bind (Q := fun r s => r = true ∧ Represents E A s)
    (fun s hs => ⟨_, rfl, hs.2, hs.1.call _⟩) fun r => Triple.of_forall fun s hs => ?_
  rw [hs.1]
  exact Triple.raise fun s' hs' => hs' ▸ hs.2

/-- A vector without memory. -/
theorem create_null_spec {R : Exc → World T → Prop} :
    Triple (Represents E A) (create ⟨0, 0, none⟩)
      (fun v s => A v = none ∧ Represents E (Function.update A v (some ⟨[], 0⟩)) s) R := by
  intro s hs
  exact ⟨_, rfl, hs.none_of_read (Heap.read_bound _),
    hs.create (MyVec3.holds_null _) nofun (fun _ _ => rfl) hs.ledger⟩

/-- **What the vectors stand for once an element is counted** that has been
constructed. -/
def Counted (E : ElementType T) (A : Meaning T) (v : Addr) (s : World T) : Prop :=
  ∃ o : VectorStorage, s.vecs.read v = some o.rep ∧
    Represents E A
      { s with vecs := s.vecs.mapAt v fun _ => { o with size_ := o.size_ + 1 }.rep }

/-- It is counted. -/
theorem increment_spec {R : Exc → World T → Prop} :
    Triple (Counted E A v) (increment v) (fun _ => Represents E A) R := by
  rintro s ⟨o, ho, hs⟩
  have hask : (members v : Prog (World T) Exc VectorStorage) s = some (.ok o, s) :=
    ask_of_some (by rw [ho]; rfl)
  exact ⟨_, (bind_of_ok hask).trans (update_of_some (MyVec3.setMembers_eq ho _)), hs⟩

/-- **An element is constructed in the next place**, or nothing happens. -/
theorem placeNew_spec {o : VectorStorage} {nothrow : Bool} (hv : A v = some c)
    (hroom : c.elems.length < c.capacity) (t : T) :
    Triple (fun s => Represents E A s ∧ s.vecs.read v = some o.rep)
      (placeNew E nothrow o.data_ o.size_ t)
      (fun _ => Counted E (Function.update A v (some ⟨c.elems ++ [t], c.capacity⟩)) v)
      fun _ s => nothrow = false ∧ Represents E A s := by
  refine Triple.of_forall fun s ⟨hs, ho⟩ => ?_
  unfold placeNew
  refine Triple.bind (Q := fun r s' => (r = true → nothrow = false)
    ∧ ∃ n, s' = { s with calls := n }) ?_ fun r => Triple.of_forall ?_
  · rintro s' rfl
    cases nothrow with
    | false => exact ⟨_, rfl, fun _ => rfl, _, rfl⟩
    | true => exact ⟨_, rfl, nofun, _, rfl⟩
  · rintro _ ⟨hr, n, rfl⟩
    split_ifs with hthrow
    · exact Triple.raise fun s' hs' => ⟨hr hthrow, hs' ▸ hs.call n⟩
    · obtain ⟨b, st, harr, hst, hnew⟩ := (hs.call n).emplace hv ho hroom t
      refine Triple.update fun s' hs' => ⟨{ s with storage := st, calls := n }, ?_, o, ho, hnew⟩
      rw [hs']
      exact MyVec3.inStorage_eq (s := { s with calls := n }) harr hst

/-! ## Loops -/

/-- **The loops over `size_`.** What the vectors stand for after `k` passes is
`M k`; a pass constructs the next element or throws. -/
theorem fillTo_spec {n : ℕ} (M : ℕ → Meaning T) {put : ℕ → Prog (World T) Exc Unit}
    {R : Exc → World T → Prop}
    (hM : ∀ k ≤ n, ∃ c : Contents T, M k u = some c ∧ c.elems.length = k)
    (hput : ∀ k < n, Triple (Represents E (M k)) (put k) (fun _ => Counted E (M (k + 1)) u) R)
    (passes k : ℕ) (hk : k + passes = n) :
    Triple (Represents E (M k)) (fillTo u n put passes) (fun _ => Represents E (M n)) R := by
  induction passes generalizing k with
  | zero =>
    obtain rfl : k = n := hk
    obtain ⟨c, hc, hlen⟩ := hM k (Nat.le_refl k)
    refine members_bind hc fun o _ hsize => Triple.assert (fun _ _ => ?_) fun _ hs => hs.1
    rw [hsize, hlen]
    exact Nat.lt_irrefl k
  | succ passes ih =>
    have hlt : k < n := by omega
    obtain ⟨c, hc, hlen⟩ := hM k (Nat.le_of_lt hlt)
    refine members_bind hc fun o _ hsize => ?_
    rw [hsize, hlen, if_pos hlt]
    exact Triple.bind ((hput k hlt).pre fun _ hs => hs.1) fun _ =>
      Triple.bind increment_spec fun _ => ih (k + 1) (by omega)

/-- The next of the elements of a vector that is being filled. -/
theorem placeNew_next {l : List T} {cap : ℕ} (hl : l.length < cap) (o : VectorStorage)
    (nothrow : Bool) (t : T) :
    Triple (fun s => Represents E (Function.update A u (some ⟨l, cap⟩)) s
        ∧ s.vecs.read u = some o.rep)
      (placeNew E nothrow o.data_ o.size_ t)
      (fun _ => Counted E (Function.update A u (some ⟨l ++ [t], cap⟩)) u)
      fun _ s => nothrow = false ∧ Represents E (Function.update A u (some ⟨l, cap⟩)) s := by
  have h := @placeNew_spec T E _ u ⟨l, cap⟩ o nothrow (Function.update_self u (some ⟨l, cap⟩) A) hl t
  rwa [Function.update_idem] at h

/-- Something is left of a vector that is being filled. -/
abbrev Partial (E : ElementType T) (A : Meaning T) (u : Addr) (s : World T) : Prop :=
  ∃ x, Represents E (Function.update A u (some x)) s

/-- The next element of a vector that is being filled, or something is left
of it. -/
theorem placeNew_filling {l : List T} {cap : ℕ} (hl : l.length < cap) (o : VectorStorage) (t : T) :
    Triple (fun s => Represents E (Function.update A u (some ⟨l, cap⟩)) s
        ∧ s.vecs.read u = some o.rep)
      (placeNew E false o.data_ o.size_ t)
      (fun _ => Counted E (Function.update A u (some ⟨l ++ [t], cap⟩)) u)
      fun _ => Partial E A u :=
  (placeNew_next hl o false t).error fun _ _ hs => ⟨_, hs.2⟩

/-- **A vector that is filled with the elements of a list**, one copy after
the other. -/
theorem fillTo_list {l : List T} {cap : ℕ} {put : ℕ → Prog (World T) Exc Unit}
    (hput : ∀ k, ∀ h : k < l.length,
      Triple (Represents E (Function.update A u (some ⟨l.take k, cap⟩))) (put k)
        (fun _ => Counted E (Function.update A u (some ⟨l.take k ++ [l[k]], cap⟩)) u)
        fun _ => Partial E A u) :
    Triple (Represents E (Function.update A u (some ⟨[], cap⟩)))
      (fillTo u l.length put l.length)
      (fun _ => Represents E (Function.update A u (some ⟨l, cap⟩)))
      fun _ => Partial E A u := by
  have h := @fillTo_spec T E u l.length (fun k => Function.update A u (some ⟨l.take k, cap⟩)) put
    (fun _ => Partial E A u)
    (fun k hk => ⟨_, Function.update_self .., List.length_take_of_le hk⟩)
    (fun k hk => List.take_append_getElem hk ▸ hput k hk) l.length 0 (Nat.zero_add _)
  rwa [List.take_zero, List.take_length] at h

/-- The loop over an `initializer_list`. -/
theorem fillList_spec {cap : ℕ} (l₀ l : List T) (hcap : (l₀ ++ l).length ≤ cap) :
    Triple (Represents E (Function.update A u (some ⟨l₀, cap⟩))) (fillList E u l)
      (fun _ => Represents E (Function.update A u (some ⟨l₀ ++ l, cap⟩)))
      fun _ => Partial E A u := by
  induction l generalizing l₀ with
  | nil =>
    rw [List.append_nil]
    exact Triple.pure fun _ => id
  | cons t l ih =>
    rw [List.length_append, List.length_cons] at hcap
    have hrest := ih (l₀ ++ [t]) (by simp only [List.length_append, List.length_singleton]; omega)
    rw [List.append_assoc, List.singleton_append] at hrest
    have hlt : l₀.length < cap := by omega
    refine members_bind (Function.update_self ..) fun o _ _ => ?_
    exact Triple.bind (placeNew_filling hlt o t) fun _ =>
      Triple.bind increment_spec fun _ => hrest

/-! ## Constructors -/

/-- **A constructor of `Vector`**: its body fills a new storage, and the base
class cleans up. -/
theorem construct_spec {sz : ℕ} {l : List T} {body : Addr → Prog (World T) Exc Unit}
    (hfits : E.sizeofT * sz < 2 ^ 64)
    (hbody : ∀ u, A u = none → Triple (Represents E (Function.update A u (some ⟨[], sz⟩))) (body u)
      (fun _ => Represents E (Function.update A u (some ⟨l, sz⟩))) fun _ => Partial E A u) :
    Triple (Represents E A)
      (do
        let v ← storageConstruct E sz
        onThrow (body v) (storageDestruct v)
        return v)
      (fun u s => A u = none ∧ Represents E (Function.update A u (some ⟨l, sz⟩)) s)
      fun _ => Represents E A := by
  refine Triple.bind (storageConstruct_spec hfits) fun u => Triple.of_forall fun s ⟨hu, hs⟩ => ?_
  refine Triple.bind (((hbody u hu).pre fun s' (hs' : s' = s) => hs' ▸ hs).onThrow
    fun e s' ⟨x, hx⟩ => ?_) fun _ => Triple.pure fun s' hs' => ⟨hu, hs'⟩
  exact MyVec3.bufDestruct_temporary hx hu

/-- A pass that constructs the next element of a list. -/
theorem placeAt_spec {l : List T} {cap k : ℕ} (hk : k < l.length) (hcap : l.length ≤ cap) :
    Triple (Represents E (Function.update A u (some ⟨l.take k, cap⟩))) (placeAt E u k l[k])
      (fun _ => Counted E (Function.update A u (some ⟨l.take k ++ [l[k]], cap⟩)) u)
      fun _ => Partial E A u := by
  have hlen : (l.take k).length = k := List.length_take_of_le (Nat.le_of_lt hk)
  have hroom : (l.take k).length < cap := by omega
  refine members_bind (Function.update_self ..) fun o _ hsize => ?_
  have hnext := @placeNew_filling T E A u _ _ hroom o l[k]
  rwa [hsize, hlen] at hnext

/-- **The copy constructor**: a vector with the same list, or nothing. -/
theorem copyConstruct_spec {sd : Addr} (hv : A sd = some c) :
    Triple (Represents E A) (copyConstruct E sd)
      (fun u s => A u = none
        ∧ Represents E (Function.update A u (some ⟨c.elems, c.elems.length⟩)) s)
      fun _ => Represents E A := by
  refine members_bind hv fun r _ hsize => Triple.of_forall fun s ⟨hs, hr⟩ => ?_
  rw [hsize]
  refine (construct_spec (hs.fits hv) fun u hu => fillTo_list fun k hk => ?_).pre
    fun s' (hs' : s' = s) => hs' ▸ hs
  have hsd : Function.update A u (some ⟨c.elems.take k, c.elems.length⟩) sd = some c := by
    rw [Function.update_of_ne (ne_of_none hv hu), hv]
  refine members_bind hsd fun r _ _ => ?_
  refine Triple.bind (Q := fun t s => t = c.elems[k]
    ∧ Represents E (Function.update A u (some ⟨c.elems.take k, c.elems.length⟩)) s)
    (Triple.ask fun s hs => ⟨_, (hs.1.element_eq hsd hs.2 k).trans (List.getElem?_eq_getElem hk),
      rfl, hs.1⟩) fun t => Triple.of_forall ?_
  rintro s' ⟨rfl, hs'⟩
  exact (placeAt_spec hk (Nat.le_refl _)).pre fun _ h => h ▸ hs'

/-- **The constructor from an `initializer_list`.** -/
theorem listConstruct_spec {l : List T} (hfits : E.sizeofT * l.length < 2 ^ 64) :
    Triple (Represents E A) (listConstruct E l)
      (fun u s => A u = none ∧ Represents E (Function.update A u (some ⟨l, l.length⟩)) s)
      fun _ => Represents E A :=
  construct_spec hfits fun _ _ => fillList_spec [] l (Nat.le_refl _)

/-- **The constructors of `size` equal elements.** -/
theorem fillConstruct_spec {size : ℕ} {t : T} (hfits : E.sizeofT * size < 2 ^ 64) :
    Triple (Represents E A) (fillConstruct E size t)
      (fun u s => A u = none
        ∧ Represents E (Function.update A u (some ⟨List.replicate size t, size⟩)) s)
      fun _ => Represents E A := by
  refine construct_spec hfits fun u _ => ?_
  have hfill := @fillTo_list T E A u (List.replicate size t) size (fun i => placeAt E u i t)
    fun k hk => by
      have hplace := @placeAt_spec T E A u _ size k hk (List.length_replicate ..).le
      rwa [List.getElem_replicate] at hplace ⊢
  rwa [List.length_replicate] at hfill

/-- A constructor that is refused memory. -/
theorem fillConstruct_refused {size : ℕ} {t : T} {Q : Addr → World T → Prop} :
    Triple (fun s => Represents E A s ∧ s.plan s.calls = true) (fillConstruct E size t) Q
      fun _ => Represents E A :=
  Triple.bind storageConstruct_refused fun _ _ h => h.elim

/-- **The move constructor**: the list is moved out of the argument. -/
theorem moveConstruct_spec {w : Addr} (hw : A w = some c) :
    Triple (Represents E A) (moveConstruct w)
      (fun u s => A u = none
        ∧ Represents E (Function.update (Function.update A w (some ⟨[], 0⟩)) u (some c)) s)
      fun _ _ => False := by
  refine Triple.bind create_null_spec fun u => Triple.of_forall fun s ⟨hu, hs⟩ => ?_
  have hne := ne_of_none hw hu
  have hw' : Function.update A u (some ⟨[], 0⟩) w = some c := by
    rw [Function.update_of_ne hne, hw]
  refine Triple.bind (Q := fun _ s' => Represents E
    (Function.update A u (some ⟨[], 0⟩) ∘ Equiv.swap u w) s')
    (Triple.update fun s' hs' => MyVec3.moveAssign_spec (hs' ▸ hs) ?_ ?_) fun _ =>
    Triple.pure fun s' hs' => ⟨hu, ?_⟩
  · rw [Function.update_self]
    rfl
  · rw [hw']
    rfl
  · rwa [Equiv.comp_swap_eq_update, Function.update_self, hw', Function.update_comm hne,
      Function.update_idem, Function.update_comm hne.symm] at hs'

/-- **The move assignment** and `swap`: the lists are exchanged. -/
theorem moveAssign_spec {P : World T → Prop} {w : Addr} {d : Contents T}
    {R : Exc → World T → Prop} (hP : ∀ s, P s → Represents E A s) (hv : A v = some c)
    (hw : A w = some d) :
    Triple P (update (moveAssign v w))
      (fun _ => Represents E (Function.update (Function.update A v (some d)) w (some c))) R := by
  refine Triple.update fun s hs => ?_
  obtain ⟨s', hs', h'⟩ := MyVec3.moveAssign_spec (v := v) (w := w) (hP s hs) (by rw [hv]; rfl)
    (by rw [hw]; rfl)
  exact ⟨s', hs', by rwa [Equiv.swap_comm, Equiv.comp_swap_eq_update, hv, hw] at h'⟩

/-- **The copy assignment.** -/
theorem copyAssign_spec {sd : Addr} {d : Contents T} (hv : A v = some d) (hr : A sd = some c) :
    Triple (Represents E A) (copyAssign E v sd)
      (fun _ => Represents E (Function.update A v (some ⟨c.elems, c.elems.length⟩)))
      fun _ => Represents E A := by
  refine Triple.bind (copyConstruct_spec hr) fun u => Triple.of_forall fun s ⟨hu, hs⟩ => ?_
  have hvu := ne_of_none hv hu
  refine Triple.leaving (R := fun _ _ => False) (Triple.update fun s' hs' =>
    MyVec3.moveAssign_spec (hs' ▸ hs) (by rw [Function.update_of_ne hvu, hv]; rfl)
      (by rw [Function.update_self]; rfl))
    (fun _ s' hs' => MyVec3.bufDestruct_swap hs' hv hu) fun _ _ h => h.elim

/-! ## Reallocation -/

/-- A program that begins with the members of a vector in a known state. -/
theorem members_of_read {β : Type} {s : World T} {o : VectorStorage}
    (ho : s.vecs.read v = some o.rep) {f : VectorStorage → Prog (World T) Exc β}
    {Q : β → World T → Prop} {R : Exc → World T → Prop} (h : Triple (· = s) (f o) Q R) :
    Triple (· = s) (members v >>= f) Q R := by
  refine Triple.bind (Q := fun a s' => a = o ∧ s' = s)
    (Triple.ask fun s' hs' => ⟨o, by rw [hs', ho]; rfl, rfl, hs'⟩) fun a =>
    Triple.of_forall fun s' hs' => ?_
  rw [hs'.1, hs'.2]
  exact h

/-- The members of a living vector. -/
theorem exists_members {s : World T} (h : Represents E A s) (hv : A v = some c) :
    ∃ o : VectorStorage, s.vecs.read v = some o.rep ∧ o.size_ = c.elems.length := by
  obtain ⟨o, ho, hholds⟩ := h.holds hv
  exact ⟨.ofRep o, ho, hholds.used⟩

/-- A pass that copies an element of the old vector. -/
theorem copyOld_spec (hE : E.nothrowMove = false) (hv : A v = some c) (hu : A u = none) {cap k : ℕ}
    (hk : k < c.elems.length) (hcap : c.elems.length ≤ cap) :
    Triple (Represents E (Function.update A u (some ⟨c.elems.take k, cap⟩)))
      (moveOrCopyAt E u v k)
      (fun _ => Counted E (Function.update A u (some ⟨c.elems.take k ++ [c.elems[k]], cap⟩)) u)
      fun _ => Partial E A u := by
  refine Triple.of_forall fun s hs => ?_
  have hv' : Function.update A u (some ⟨c.elems.take k, cap⟩) v = some c := by
    rw [Function.update_of_ne (ne_of_none hv hu), hv]
  obtain ⟨n, hn, hsize⟩ := exists_members hs (Function.update_self ..)
  obtain ⟨o, ho, -⟩ := exists_members hs hv'
  have hlen : (c.elems.take k).length = k := List.length_take_of_le (Nat.le_of_lt hk)
  have hroom : (c.elems.take k).length < cap := by omega
  refine members_of_read hn (members_of_read ho ?_)
  refine Triple.bind (Q := fun t s' => t = c.elems[k] ∧ s' = s) (Triple.ask fun s' hs' =>
    ⟨_, hs' ▸ (hs.element_eq hv' ho k).trans (List.getElem?_eq_getElem hk), rfl, hs'⟩) fun t =>
    Triple.of_forall ?_
  rintro s ⟨rfl, rfl⟩
  rw [hE]
  have hnext := (@placeNew_filling T E A u _ _ hroom n c.elems[k]).pre
    fun s' (h : s' = s) => h ▸ ⟨hs, hn⟩
  rwa [hsize, hlen] at hnext

/-- What the old and the new vector stand for when `k` elements have been
moved. -/
def moving (E : ElementType T) (A : Meaning T) (v u : Addr) (c : Contents T) (cap k : ℕ) :
    Meaning T :=
  Function.update (Function.update A v (some ⟨given E.moved c.elems k, c.capacity⟩)) u
    (some ⟨c.elems.take k, cap⟩)

/-- A pass that moves an element of the old vector does not throw. -/
theorem moveOld_spec (hE : E.nothrowMove = true) (hvu : v ≠ u) {cap k : ℕ}
    (hk : k < c.elems.length) (hcap : c.elems.length ≤ cap) :
    Triple (Represents E (moving E A v u c cap k)) (moveOrCopyAt E u v k)
      (fun _ => Counted E (moving E A v u c cap (k + 1)) u) fun _ _ => False := by
  refine Triple.of_forall fun s hs => ?_
  have hv' : moving E A v u c cap k v = some ⟨given E.moved c.elems k, c.capacity⟩ := by
    rw [moving, Function.update_of_ne hvu, Function.update_self]
  have hkg : k < (given E.moved c.elems k).length := by rw [length_given]; exact hk
  obtain ⟨n, hn, hsize⟩ := exists_members hs (Function.update_self ..)
  obtain ⟨o, ho, -⟩ := exists_members hs hv'
  have helem : MyVec3.element o.data_ k s = some c.elems[k] := by
    rw [← getElem_given hk hkg]
    exact (hs.element_eq hv' ho k).trans (List.getElem?_eq_getElem hkg)
  obtain ⟨b, st, harr, hst, hs₁⟩ := hs.assignElement hv' ho hkg (E.moved c.elems[k])
  rw [given_succ _ hk, moving, Function.update_comm hvu.symm, Function.update_idem] at hs₁
  have hlen : (c.elems.take k).length = k := List.length_take_of_le (Nat.le_of_lt hk)
  have hroom : (c.elems.take k).length < cap := by omega
  refine members_of_read hn (members_of_read ho ?_)
  refine Triple.bind (Q := fun t s' => t = c.elems[k] ∧ s' = s)
    (Triple.ask fun s' hs' => ⟨_, hs' ▸ helem, rfl, hs'⟩) fun t => Triple.of_forall ?_
  rintro s ⟨rfl, rfl⟩
  rw [if_pos hE]
  refine Triple.bind (Q := fun _ s' => s' = { s with storage := st })
    (Triple.update fun s' (hs' : s' = s) => ⟨_, hs'.symm ▸ MyVec3.inStorage_eq harr hst, rfl⟩)
    fun _ => ?_
  have hnext := (placeNew_next (E := E)
    (A := Function.update A v (some ⟨given E.moved c.elems (k + 1), c.capacity⟩)) (u := u) hroom n
    true c.elems[k]).conseq (fun s' (h : s' = { s with storage := st }) => h ▸ ⟨hs₁, hn⟩)
    (fun _ _ => id) fun _ _ h => (Bool.noConfusion h.1 : False)
  rw [hsize, hlen, List.take_append_getElem] at hnext
  exact hnext

/-- **The loop of `realloc`** ends with the whole list in the new vector; only
copies can throw, and then the old vector is as it was. -/
theorem fillNew_spec (hv : A v = some c) (hu : A u = none) {cap : ℕ} (hcap : c.elems.length ≤ cap) :
    Triple (Represents E (Function.update A u (some ⟨[], cap⟩)))
      (fillTo u c.elems.length (moveOrCopyAt E u v) c.elems.length)
      (fun _ s => ∃ d, Represents E
        (Function.update (Function.update A v (some d)) u (some ⟨c.elems, cap⟩)) s)
      fun _ => Partial E A u := by
  have hvu := ne_of_none hv hu
  cases hE : E.nothrowMove with
  | false =>
    refine (fillTo_list fun k hk => copyOld_spec hE hv hu hk hcap).conseq (fun _ => id)
      (fun _ s hs => ⟨c, ?_⟩) fun _ _ => id
    rwa [← hv, Function.update_eq_self]
  | true =>
    have hfill := @fillTo_spec T E u c.elems.length (moving E A v u c cap) (moveOrCopyAt E u v)
      (fun _ _ => False) (fun k hk => ⟨_, Function.update_self .., List.length_take_of_le hk⟩)
      (fun k hk => moveOld_spec hE hvu hk hcap) c.elems.length 0 (Nat.zero_add _)
    rw [moving, given_zero, List.take_zero, ← hv, Function.update_eq_self, moving,
      List.take_length] at hfill
    exact hfill.conseq (fun _ => id) (fun _ _ hs => ⟨_, hs⟩) fun _ _ h => h.elim

/-- **`realloc`** of a vector to a capacity that is enough: the list stays, or
nothing happens. -/
theorem realloc_spec (hv : A v = some c) {cap : ℕ} (hcap : c.elems.length ≤ cap)
    (hfits : E.sizeofT * cap < 2 ^ 64) :
    Triple (Represents E A) (realloc E v cap)
      (fun _ => Represents E (Function.update A v (some ⟨c.elems, cap⟩)))
      fun _ => Represents E A := by
  refine members_bind hv fun o _ hsize => ?_
  rw [hsize, Nat.min_eq_right hcap]
  refine Triple.bind ((storageConstruct_spec hfits).pre fun _ hs => hs.1) fun u =>
    Triple.of_forall fun s ⟨hu, hs⟩ => ?_
  have hvu := ne_of_none hv hu
  have hbody : Triple (· = s) (do
      fillTo u c.elems.length (moveOrCopyAt E u v) c.elems.length
      update (moveAssign v u))
      (fun _ s => ∃ d, Represents E
        (Function.update (Function.update A v (some d)) u (some ⟨c.elems, cap⟩) ∘ Equiv.swap v u) s)
      fun _ => Partial E A u := by
    refine Triple.bind ((fillNew_spec hv hu hcap).pre fun _ hs' => hs' ▸ hs) fun _ =>
      Triple.update fun s' ⟨d, hd⟩ => ?_
    obtain ⟨s'', hs'', h''⟩ := MyVec3.moveAssign_spec (v := v) (w := u) hd
      (by rw [Function.update_of_ne hvu, Function.update_self]; rfl)
      (by rw [Function.update_self]; rfl)
    exact ⟨s'', hs'', d, h''⟩
  -- the storage the list was in is destroyed, or the one it was not yet in
  refine hbody.leaving (fun _ s' ⟨d, hd⟩ => ?_) fun _ s' ⟨x, hx⟩ => MyVec3.bufDestruct_temporary hx hu
  obtain ⟨s'', hs'', h''⟩ := MyVec3.bufDestruct_swap hd (Function.update_self ..)
    (by rw [Function.update_of_ne hvu.symm, hu])
  exact ⟨s'', hs'', by rwa [Function.update_idem] at h''⟩

/-- `realloc` that is refused memory. -/
theorem realloc_refused (hv : A v = some c) {cap : ℕ} {Q : Unit → World T → Prop} :
    Triple (fun s => Represents E A s ∧ s.plan s.calls = true) (realloc E v cap) Q
      fun _ => Represents E A := by
  refine Triple.of_forall fun s ⟨hs, hplan⟩ => ?_
  obtain ⟨o, ho, -⟩ := exists_members hs hv
  refine members_of_read ho (Triple.bind (Q := fun _ _ => False) ?_ fun _ _ h => h.elim)
  exact storageConstruct_refused.pre fun s' hs' => hs' ▸ ⟨hs, hplan⟩

/-! ## push and pop -/

/-- The capacity after `push`. -/
def grownCapacity (c : Contents T) : ℕ :=
  if c.elems.length = c.capacity then 2 * c.capacity + 1 else c.capacity

/-- **Room for one more element** is made, or nothing happens. -/
theorem grow_spec {s : World T} (hs : Represents E A s) (hv : A v = some c)
    (hfits : c.elems.length = c.capacity →
      E.sizeofT * (2 * c.capacity + 1) < 2 ^ 64 ∨ s.plan s.calls = true) :
    Triple (· = s) (grow E v)
      (fun _ => Represents E (Function.update A v (some ⟨c.elems, grownCapacity c⟩)))
      fun _ => Represents E A := by
  obtain ⟨o, ho, hholds⟩ := hs.holds hv
  refine members_of_read (o := .ofRep o) ho ?_
  have hsize : (VectorStorage.ofRep o).size_ = c.elems.length := hholds.used
  have hallocated : (VectorStorage.ofRep o).allocated_ = c.capacity := hholds.size
  rw [hsize, hallocated]
  unfold grownCapacity
  by_cases hfull : c.elems.length = c.capacity
  · rw [if_pos hfull, if_pos hfull]
    rcases hfits hfull with hlt | hplan
    · have hmod : (2 * c.capacity + 1) % 2 ^ 64 = 2 * c.capacity + 1 :=
        Nat.mod_eq_of_lt (Nat.lt_of_le_of_lt (Nat.le_mul_of_pos_left _ E.sizeofT_pos) hlt)
      rw [hmod]
      exact (realloc_spec hv (by omega) hlt).pre fun _ hs' => hs' ▸ hs
    · exact (realloc_refused hv).pre fun _ hs' => hs' ▸ ⟨hs, hplan⟩
  · rw [if_neg hfull, if_neg hfull, ← hv, Function.update_eq_self]
    exact Triple.pure fun _ hs' => hs' ▸ hs

/-- **`push`**: an element more, or the same elements, in a larger storage
maybe. -/
theorem push_spec {s : World T} (hs : Represents E A s) (hv : A v = some c)
    (hfits : c.elems.length = c.capacity →
      E.sizeofT * (2 * c.capacity + 1) < 2 ^ 64 ∨ s.plan s.calls = true)
    (t : T) (nothrow : Bool) :
    Triple (· = s) (push E v t nothrow)
      (fun _ => Represents E (Function.update A v (some ⟨c.elems ++ [t], grownCapacity c⟩)))
      fun _ s' => ∃ cap, Represents E (Function.update A v (some ⟨c.elems, cap⟩)) s' := by
  have hsame : Function.update A v (some ⟨c.elems, c.capacity⟩) = A := by
    rw [← hv, Function.update_eq_self]
  have hroom : c.elems.length < grownCapacity c := by
    obtain ⟨o, -, hholds⟩ := hs.holds hv
    have := hholds.room
    unfold grownCapacity
    split_ifs <;> omega
  refine Triple.bind ((grow_spec hs hv hfits).error
    fun _ s' hs' => ⟨c.capacity, hsame.symm ▸ hs'⟩) fun _ => ?_
  refine members_bind (Function.update_self ..) fun o _ _ => ?_
  exact Triple.bind ((placeNew_next hroom o nothrow t).error fun _ s' hs' => ⟨_, hs'.2⟩)
    fun _ => increment_spec

/-- **`pop`** destroys the last element; where there is none it throws and
does nothing. -/
theorem pop_spec (hv : A v = some c) :
    Triple (Represents E A) (pop v)
      (fun _ s => c.elems ≠ []
        ∧ Represents E (Function.update A v (some ⟨c.elems.dropLast, c.capacity⟩)) s)
      fun _ s => c.elems = [] ∧ Represents E A s := by
  refine members_bind hv fun o _ hsize => ?_
  split_ifs with hempty
  · exact Triple.raise fun _ hs =>
      ⟨List.eq_nil_of_length_eq_zero (hsize.symm.trans hempty), hs.1⟩
  · have hne : c.elems ≠ [] := by
      rintro hnil
      exact hempty (by rw [hsize, hnil, List.length_nil])
    refine Triple.of_forall fun s ⟨hs, ho⟩ => ?_
    obtain ⟨b, st, harr, hst, hnew⟩ := hs.destroyLast hv ho hne
    -- the count goes down after the object is destroyed
    refine Triple.bind (Q := fun _ s' => s' = { s with storage := st })
      (Triple.update fun s' (hs' : s' = s) => ⟨_, hs'.symm ▸ MyVec3.inStorage_eq harr hst, rfl⟩)
      fun _ => Triple.update fun s' hs' => ⟨_, ?_, hne, hnew⟩
    rw [hs']
    exact MyVec3.setMembers_eq (s := { s with storage := st }) ho _

/-! ## Programs -/

/-- **What an operation does to lists**: what it yields, and what the vectors
stand for after it. -/
inductive Effect (E : ElementType T) (A : Meaning T) : Op T → Reply → Meaning T → Prop
  | default {v : Addr} (hv : A v = none) :
    Effect E A .default (.vector v) (Function.update A v (some ⟨[], 0⟩))
  | copy {sd v : Addr} {c : Contents T} (hc : A sd = some c) (hv : A v = none) :
    Effect E A (.copy sd) (.vector v) (Function.update A v (some ⟨c.elems, c.elems.length⟩))
  /-- The list is moved out of the argument. -/
  | move {toMove v : Addr} {c : Contents T} (hc : A toMove = some c) (hv : A v = none) :
    Effect E A (.move toMove) (.vector v)
      (Function.update (Function.update A toMove (some ⟨[], 0⟩)) v (some c))
  | list {l : List T} {v : Addr} (hv : A v = none) :
    Effect E A (.list l) (.vector v) (Function.update A v (some ⟨l, l.length⟩))
  | fill {size : ℕ} {t : T} {v : Addr} (hv : A v = none) :
    Effect E A (.fill size t) (.vector v)
      (Function.update A v (some ⟨List.replicate size t, size⟩))
  | fillDefault {size : ℕ} {t : T} {v : Addr} (ht : E.default = some t) (hv : A v = none) :
    Effect E A (.fillDefault size) (.vector v)
      (Function.update A v (some ⟨List.replicate size t, size⟩))
  | copyAssign {v sd : Addr} {c : Contents T} (hc : A sd = some c) :
    Effect E A (.copyAssign v sd) .none (Function.update A v (some ⟨c.elems, c.elems.length⟩))
  /-- The lists are exchanged. -/
  | moveAssign {v toMove : Addr} {c d : Contents T} (hc : A v = some c) (hd : A toMove = some d) :
    Effect E A (.moveAssign v toMove) .none
      (Function.update (Function.update A v (some d)) toMove (some c))
  | swap {ft sd : Addr} {c d : Contents T} (hc : A ft = some c) (hd : A sd = some d) :
    Effect E A (.swap ft sd) .none
      (Function.update (Function.update A ft (some d)) sd (some c))
  | push {v : Addr} {t : T} {nothrow : Bool} {c : Contents T} (hc : A v = some c) :
    Effect E A (.push v t nothrow) .none
      (Function.update A v (some ⟨c.elems ++ [t], grownCapacity c⟩))
  | pop {v : Addr} {c : Contents T} (hc : A v = some c) (hne : c.elems ≠ []) :
    Effect E A (.pop v) .none (Function.update A v (some ⟨c.elems.dropLast, c.capacity⟩))
  | destruct {v : Addr} : Effect E A (.destruct v) .none (Function.update A v none)

/-- **What an operation that throws leaves**: what there was, save that `push`
may have moved the elements to a larger storage before. -/
inductive Kept (A : Meaning T) : Op T → Meaning T → Prop
  | same {op : Op T} : Kept A op A
  | grown {v : Addr} {t : T} {nothrow : Bool} {c : Contents T} {cap : ℕ} (hc : A v = some c) :
    Kept A (.push v t nothrow) (Function.update A v (some ⟨c.elems, cap⟩))

/-- The elements and their order are what they were. -/
theorem Kept.elems {op : Op T} (h : Kept A op B) (w : Addr) :
    (B w).map Contents.elems = (A w).map Contents.elems := by
  cases h with
  | same => rfl
  | @grown v _ _ c cap hc =>
    rcases eq_or_ne w v with rfl | hne
    · rw [Function.update_self, hc]
      rfl
    · rw [Function.update_of_ne hne]

/-- **The sizes an operation asks memory for are values of `size_t`**, or
memory is refused. Elements that are copied have their place in memory
already. -/
def Op.Fits (E : ElementType T) : Op T → World T → Prop
  | .fill size _, s | .fillDefault size, s =>
    E.sizeofT * size < 2 ^ 64 ∨ s.plan s.calls = true
  | .push v _ _, s => ∀ o, s.vecs.read v = some o → o.used = o.size →
    E.sizeofT * (2 * o.size + 1) < 2 ^ 64 ∨ s.plan s.calls = true
  | _, _ => True

/-- A constructor of equal elements, whether memory is refused or not. -/
theorem fill_step_spec {s : World T} (hs : Represents E A s) {size : ℕ} {t : T}
    (hfits : E.sizeofT * size < 2 ^ 64 ∨ s.plan s.calls = true) :
    Triple (· = s) (fillConstruct E size t)
      (fun u s => A u = none
        ∧ Represents E (Function.update A u (some ⟨List.replicate size t, size⟩)) s)
      fun _ => Represents E A := by
  rcases hfits with hlt | hplan
  · exact (fillConstruct_spec hlt).pre fun _ hs' => hs' ▸ hs
  · exact fillConstruct_refused.pre fun _ hs' => hs' ▸ ⟨hs, hplan⟩

/-- **Every operation does what it does to lists or nothing.** -/
theorem step_spec {s : World T} {op : Op T} (h : Represents E A s) (hlegal : op.Legal E s)
    (hfits : op.Fits E s) :
    Triple (· = s) (step E op)
      (fun r s' => ∃ A', Effect E A op r A' ∧ Represents E A' s')
      fun _ s' => ∃ A', Kept A op A' ∧ Represents E A' s' := by
  have hmeaning : ∀ v ∈ op.subjects, ∃ c, A v = some c := fun v hv => h.meaning (hlegal.2 v hv)
  have hpre : ∀ s', s' = s → Represents E A s' := fun s' hs' => hs' ▸ h
  have hkept : ∀ (e : Exc) s', Represents E A s' → ∃ A', Kept A op A' ∧ Represents E A' s' :=
    fun _ _ hs' => ⟨A, .same, hs'⟩
  cases op with
  | default =>
    exact Triple.bind ((create_null_spec (R := fun _ => Represents E A)).conseq hpre
      (fun _ _ => id) hkept) fun v => Triple.pure fun s' hs' => ⟨_, .default hs'.1, hs'.2⟩
  | copy sd =>
    obtain ⟨c, hc⟩ := hmeaning sd (List.mem_singleton_self _)
    exact Triple.bind ((copyConstruct_spec hc).conseq hpre (fun _ _ => id) hkept) fun v =>
      Triple.pure fun s' hs' => ⟨_, .copy hc hs'.1, hs'.2⟩
  | move toMove =>
    obtain ⟨c, hc⟩ := hmeaning toMove (List.mem_singleton_self _)
    exact Triple.bind ((moveConstruct_spec hc).conseq hpre (fun _ _ => id) fun _ _ h => h.elim)
      fun v => Triple.pure fun s' hs' => ⟨_, .move hc hs'.1, hs'.2⟩
  | list l =>
    exact Triple.bind ((listConstruct_spec hlegal.1.2).conseq hpre (fun _ _ => id) hkept) fun v =>
      Triple.pure fun s' hs' => ⟨_, .list hs'.1, hs'.2⟩
  | fill size t =>
    exact Triple.bind ((fill_step_spec h hfits).error hkept) fun v =>
      Triple.pure fun s' hs' => ⟨_, .fill hs'.1, hs'.2⟩
  | fillDefault size =>
    obtain ⟨t, ht⟩ := Option.isSome_iff_exists.mp hlegal.1
    refine Triple.bind (Q := fun a s' => a = t ∧ s' = s)
      (Triple.ask fun s' hs' => ⟨t, ht, rfl, hs'⟩) fun a => Triple.of_forall ?_
    rintro s' ⟨rfl, rfl⟩
    exact Triple.bind ((fill_step_spec h hfits).error hkept) fun v =>
      Triple.pure fun s' hs' => ⟨_, .fillDefault ht hs'.1, hs'.2⟩
  | copyAssign v sd =>
    obtain ⟨c, hc⟩ := hmeaning sd (List.mem_cons_of_mem _ (List.mem_singleton_self _))
    obtain ⟨d, hd⟩ := hmeaning v List.mem_cons_self
    exact Triple.bind ((copyAssign_spec hd hc).conseq hpre (fun _ _ => id) hkept) fun _ =>
      Triple.pure fun s' hs' => ⟨_, .copyAssign hc, hs'⟩
  | moveAssign v toMove =>
    obtain ⟨c, hc⟩ := hmeaning v List.mem_cons_self
    obtain ⟨d, hd⟩ := hmeaning toMove (List.mem_cons_of_mem _ (List.mem_singleton_self _))
    exact Triple.bind (moveAssign_spec hpre hc hd) fun _ =>
      Triple.pure fun s' hs' => ⟨_, .moveAssign hc hd, hs'⟩
  | swap ft sd =>
    obtain ⟨c, hc⟩ := hmeaning ft List.mem_cons_self
    obtain ⟨d, hd⟩ := hmeaning sd (List.mem_cons_of_mem _ (List.mem_singleton_self _))
    exact Triple.bind (moveAssign_spec hpre hc hd) fun _ =>
      Triple.pure fun s' hs' => ⟨_, .swap hc hd, hs'⟩
  | push v t nothrow =>
    obtain ⟨c, hc⟩ := hmeaning v (List.mem_singleton_self _)
    obtain ⟨o, ho, hholds⟩ := h.holds hc
    have hpush := push_spec h hc (fun hfull => hholds.size ▸ hfits o ho
      (by rw [hholds.used, hholds.size, hfull])) t nothrow
    exact Triple.bind (hpush.error fun _ s' ⟨cap, hs'⟩ => ⟨_, .grown hc, hs'⟩) fun _ =>
      Triple.pure fun s' hs' => ⟨_, .push hc, hs'⟩
  | pop v =>
    obtain ⟨c, hc⟩ := hmeaning v (List.mem_singleton_self _)
    exact Triple.bind ((pop_spec hc).conseq hpre (fun _ _ => id) fun e s' hs' => hkept e s' hs'.2)
      fun _ => Triple.pure fun s' hs' => ⟨_, .pop hc hs'.1, hs'.2⟩
  | destruct v =>
    obtain ⟨c, hc⟩ := hmeaning v (List.mem_singleton_self _)
    refine Triple.bind (Q := fun _ => Represents E (Function.update A v none))
      (Triple.update fun s' hs' => MyVec3.bufDestruct_spec (hpre s' hs') hc) fun _ =>
      Triple.pure fun s' hs' => ⟨_, .destruct, hs'⟩

/-- The memory represents lists in every state reached. -/
theorem Reachable.represents {s : World T} (h : Reachable E (Op.Fits E) s) :
    Represents E s.contents s := by
  have hex : ∃ A, Represents E A s := by
    induction h with
    | start plan => exact ⟨_, MyVec3.represents_start E.sizeofT plan⟩
    | @step op s s' r _ hlegal hfits hstep ih =>
      obtain ⟨A, hA⟩ := ih
      have hend := (step_spec hA hlegal hfits).ends rfl hstep
      match r, hend with
      | .ok a, ⟨A', _, hA'⟩ => exact ⟨A', hA'⟩
      | .error e, ⟨A', _, hA'⟩ => exact ⟨A', hA'⟩
  obtain ⟨A, hA⟩ := hex
  exact hA.contents_eq ▸ hA

/-- **The guarantee of `containers::Vector`**: in every run whose requests for
memory fit `size_t`, whichever of the calls that may throw do, no vector has
more elements than places, and every further such operation has a result; if
it throws, all vectors have the elements they had, in the same order, and
otherwise the contents are what the operation makes of lists. When no vector
is left, every element that was constructed was destroyed exactly once. -/
theorem reachable_vector {s : World T} (h : Reachable E (Op.Fits E) s) :
    (∀ v o, s.vecs.read v = some (VectorStorage.rep o) → o.size_ ≤ o.allocated_)
    ∧ (∀ op : Op T, op.Legal E s → op.Fits E s →
      ∃ r s', step E op s = some (r, s') ∧
        match r with
        | .ok reply => Effect E s.contents op reply s'.contents
        | .error _ => Kept s.contents op s'.contents
          ∧ ∀ w, (s'.contents w).map Contents.elems = (s.contents w).map Contents.elems)
    ∧ ((∀ v, s.vecs.read v = none) → s.storage.dead.Perm (List.range s.storage.born)) := by
  have hs := h.represents
  refine ⟨fun v o ho => ?_, fun op hlegal hfits => ?_, hs.perm_range⟩
  · obtain ⟨c, hc⟩ := hs.meaning (v := v) (by rw [ho]; rfl)
    obtain ⟨o', ho', hholds⟩ := hs.holds hc
    cases ho.symm.trans ho'
    have hsize : o.size_ = c.elems.length := hholds.used
    have hallocated : o.allocated_ = c.capacity := hholds.size
    rw [hsize, hallocated]
    exact hholds.room
  · obtain ⟨⟨r, s'⟩, hstep, hend⟩ := step_spec hs hlegal hfits s rfl
    refine ⟨r, s', hstep, ?_⟩
    match r, hend with
    | .ok a, ⟨A', heffect, hA'⟩ => exact hA'.contents_eq ▸ heffect
    | .error e, ⟨A', hkept, hA'⟩ =>
      rw [hA'.contents_eq]
      exact ⟨hkept, hkept.elems⟩

/-- Numbers of eight bytes whose copies may throw and whose moves are
copies. -/
def word : ElementType ℕ where
  sizeofT := 8
  sizeofT_pos := by decide
  nothrowMove := false
  copyable := true
  static_assert := Or.inr rfl
  moved := id
  default := some 0

/-- A full vector is reallocated and the copy of its element throws. -/
theorem reachable_vector_full : ∃ (s s' : World ℕ) (e : Exc),
    s.contents 0 = some ⟨[7], 1⟩ ∧ step word (.push 0 9 false) s = some (.error e, s')
      ∧ Kept s.contents (.push 0 9 false) s'.contents
      ∧ ∀ w, (s'.contents w).map Contents.elems = (s.contents w).map Contents.elems := by
  have h₁ := @Reachable.step ℕ word (Op.Fits word) (.list [7]) _ _ _ (.start fun n => n = 3)
    ⟨⟨rfl, by decide⟩, nofun⟩ trivial rfl
  obtain ⟨s, h₁, hread, hcontents, hthrows⟩ : ∃ s : World ℕ, Reachable word (Op.Fits word) s
      ∧ s.vecs.read 0 = some ⟨some 0, 1, 1⟩ ∧ s.contents 0 = some ⟨[7], 1⟩
      ∧ (step word (.push 0 9 false) s).map (fun p => p.1.isOk) = some false :=
    ⟨_, h₁, rfl, rfl, by decide +kernel⟩
  obtain ⟨r, s', hstep, hend⟩ := (reachable_vector h₁).2.1 (.push 0 9 false)
    ⟨trivial, fun v hv => by rw [List.mem_singleton.mp hv, hread]; rfl⟩
    (fun o ho _ => by rw [hread] at ho; cases ho; exact Or.inl (by decide))
  rw [hstep] at hthrows
  match r, hstep, hend with
  | .ok _, _, _ => cases hthrows
  | .error e, hstep, hend => exact ⟨s, s', e, hcontents, hstep, hend⟩

/-- **A request that wraps around**: the first of `2 ^ 61` elements of eight
bytes has no place. -/
theorem not_reachable_defined : ¬ ∀ s : World ℕ, Reachable word (fun _ _ => True) s →
    ∀ op : Op ℕ, op.Legal word s → (Containers.step word op s).isSome := by
  intro h
  have h₁ := h _ (.start fun _ => false) (.fill (2 ^ 61) 5) ⟨rfl, nofun⟩
  cases h₁

end Containers
