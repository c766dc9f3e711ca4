import CppGraduate.Containers.Guarantee

/-!
# Pushing an element of the vector itself

`v.push(v[i])` hands `push` a reference into the buffer of `v`. The reference is
kept as the place it refers to, and read where the source reads it: at the
construction of the new element, after the vector has grown. A full vector has
moved its elements to another buffer by then and freed this one, and reading
there has no result.

What is to be shown is that a run has no result, whether or not the new buffer
is large enough. For that nothing needs to be known of the elements, only that
nobody touches the members of `v` until they are exchanged for the new ones
(`Untouched`).

**Main result** (`pushOwn_iff`): the push is right exactly where the vector is
not full.
-/

namespace Containers

open Prog
open MyVec3 (Addr World Contents Meaning)

variable {T α : Type} {E : ElementType T} {A : Meaning T} {v u : Addr} {c : Contents T}

/-! ## References -/

/-- A `T &`: a place in a buffer. -/
structure Ref where
  data : Option Addr
  index : ℕ

/-- `operator[](id)` -/
def elementRef (v : Addr) (id : ℕ) : Prog (World T) Exc Ref := do
  let o ← members v
  return ⟨o.data_, id⟩

/-- **`push(value)`** with a `T &`, of which `T{std::forward<Arg>(value)}` is a
copy. -/
def pushRef (E : ElementType T) (v : Addr) (value : Ref) (nothrow : Bool) :
    Prog (World T) Exc Unit := do
  grow E v
  let o ← members v
  let t ← ask (MyVec3.element value.data value.index)
  placeNew E nothrow o.data_ o.size_ t
  increment v

/-- `v.push(v[i])` -/
def pushOwn (E : ElementType T) (v : Addr) (i : ℕ) (nothrow : Bool) : Prog (World T) Exc Unit := do
  let value ← elementRef v i
  pushRef E v value nothrow

/-- **What is expected of pushing `t`**: it has a result, and then the vector
holds `t` after its elements, or something threw and it holds its elements. -/
def Appends (E : ElementType T) (A : Meaning T) (v : Addr) (c : Contents T) (t : T)
    (m : Prog (World T) Exc Unit) (s : World T) : Prop :=
  ∃ r, m s = some r ∧ Ends
    (fun _ s' => ∃ cap, Represents E (Function.update A v (some ⟨c.elems ++ [t], cap⟩)) s')
    (fun _ s' => ∃ cap, Represents E (Function.update A v (some ⟨c.elems, cap⟩)) s') r

/-! ## Where there is room -/

/-- **The element is there when it is read**: the vector has not moved. -/
theorem pushOwn_of_room {s : World T} (hs : Represents E A s) (hv : A v = some c)
    (hroom : c.elems.length < c.capacity) {i : ℕ} {t : T} (ht : c.elems[i]? = some t)
    (nothrow : Bool) : pushOwn E v i nothrow s = push E v t nothrow s := by
  obtain ⟨o, ho, hholds⟩ := hs.holds hv
  have hmembers : (members v : Prog (World T) Exc VectorStorage) s = some (.ok (.ofRep o), s) :=
    ask_of_some (by rw [ho]; rfl)
  have hgrow : grow E v s = some (.ok (), s) := by
    have hne : (VectorStorage.ofRep o).size_ ≠ (VectorStorage.ofRep o).allocated_ := by
      show o.used ≠ o.size
      rw [hholds.used, hholds.size]
      exact Nat.ne_of_lt hroom
    unfold grow
    rw [bind_of_ok hmembers, if_neg hne]
    rfl
  have hread : (ask (MyVec3.element o.arr i) : Prog (World T) Exc T) s = some (.ok t, s) :=
    ask_of_some ((hs.element_eq hv ho i).trans ht)
  have href : (elementRef v i : Prog (World T) Exc Ref) s = some (.ok ⟨o.arr, i⟩, s) :=
    bind_of_ok hmembers
  rw [pushOwn, bind_of_ok href, pushRef, push, bind_of_ok hgrow, bind_of_ok hgrow,
    bind_of_ok hmembers, bind_of_ok hmembers, bind_of_ok hread]

/-! ## Where there is none -/

/-- **The members of a vector are untouched**, and nothing throws. -/
structure Untouched (v : Addr) (o : VectorStorage) (s : World T) : Prop where
  members : s.vecs.read v = some o.rep
  calm : ∀ n, s.plan n = false

/-- A program that leaves the members of a vector alone, if it has a result, and
does not throw. -/
abbrev Spares (v : Addr) (o : VectorStorage) (m : Prog (World T) Exc α) : Prop :=
  PartialTriple (Untouched v o) m (fun _ => Untouched v o) fun _ _ => False

variable {o : VectorStorage}

/-- Looking something up. -/
theorem spares_ask (f : World T → Option α) : Spares v o (ask f) :=
  .ask fun _ hs _ _ => hs

/-- Something done to the storage. -/
theorem spares_inStorage (arr : Option Addr) (f : Addr → Storage T → Option (Storage T)) :
    Spares v o (update fun s => arr.bind fun b => MyVec3.inStorage (f b) s) := by
  refine .update fun s hs s' hs' => ?_
  obtain ⟨b, -, hb⟩ := Option.bind_eq_some_iff.mp hs'
  obtain ⟨st, -, rfl⟩ := Option.map_eq_some_iff.mp hb
  exact ⟨hs.members, hs.calm⟩

/-- Counting an element of another vector. -/
theorem spares_increment (hu : u ≠ v) : Spares v o (increment u : Prog (World T) Exc Unit) := by
  refine .bind (spares_ask _) fun r => .update fun s hs s' hs' => ?_
  obtain ⟨vecs, hvecs, rfl⟩ := Option.map_eq_some_iff.mp hs'
  unfold Heap.modify at hvecs
  split_ifs at hvecs
  cases hvecs
  refine ⟨?_, hs.calm⟩
  show (s.vecs.mapAt u _).read v = _
  rw [Heap.read_mapAt, if_neg hu.symm, hs.members]

/-- Whether the next call throws: it does not. -/
theorem throws_calm : PartialTriple (Untouched v o) (throws : Prog (World T) Exc Bool)
    (fun r s => r = false ∧ Untouched v o s) fun _ _ => False := by
  rintro s hs r ⟨⟩
  exact ⟨hs.calm s.calls, hs.members, hs.calm⟩

/-- An element constructed. -/
theorem spares_placeNew (nothrow : Bool) (data : Option Addr) (i : ℕ) (t : T) :
    Spares v o (placeNew E nothrow data i t) := by
  refine .bind (Q := fun r s => r = false ∧ Untouched v o s) ?_ fun r => ?_
  · cases nothrow with
    | false => exact throws_calm
    | true => exact .pure fun s hs => ⟨rfl, hs⟩
  · cases r with
    | false => exact fun s hs => spares_inStorage data _ s hs.2
    | true => exact fun s hs => absurd hs.1 (by simp)

/-- An element moved or copied. -/
theorem spares_moveOrCopyAt (i : ℕ) : Spares v o (moveOrCopyAt E u v i) := by
  refine .bind (spares_ask _) fun n => .bind (spares_ask _) fun r =>
    .bind (spares_ask _) fun t => ?_
  split_ifs
  · exact .bind (spares_inStorage _ _) fun _ => spares_placeNew true _ i t
  · exact spares_placeNew false _ i t

/-- The loop that does so. -/
theorem spares_fillTo (hu : u ≠ v) (n passes : ℕ) :
    Spares v o (fillTo u n (moveOrCopyAt E u v) passes) := by
  induction passes with
  | zero =>
    refine .bind (spares_ask _) fun r => ?_
    unfold Prog.assert
    split_ifs
    · rintro s - r ⟨⟩
    · exact .pure fun _ hs => hs
  | succ passes ih =>
    refine .bind (spares_ask _) fun r => ?_
    split_ifs
    · exact .bind (spares_moveOrCopyAt _) fun _ => .bind (spares_increment hu) fun _ => ih
    · exact .pure fun _ hs => hs

/-- A new storage, which is not that of the vector. -/
theorem storageConstruct_other (sz : ℕ) :
    PartialTriple (Untouched v o) (storageConstruct E sz)
      (fun u s => u ≠ v ∧ Untouched v o s) fun _ _ => False := by
  refine .bind (Q := fun _ => Untouched v o) (.bind throws_calm fun r => ?_) fun data => ?_
  · cases r with
    | false =>
      rintro s ⟨-, hs⟩ r ⟨⟩
      exact ⟨hs.members, hs.calm⟩
    | true => exact fun s hs => absurd hs.1 (by simp)
  · rintro s hs r ⟨⟩
    have hne := Heap.ne_bound_of_read hs.members
    refine ⟨hne.symm, ?_, hs.calm⟩
    show (s.vecs.alloc _).2.read v = _
    rw [Heap.read_alloc, if_neg hne, hs.members]

/-- The members that were written. -/
theorem read_of_setMembers {s s' : World T} {r : MyVec3.MyVectorBuf}
    (h : MyVec3.setMembers u r s = some s') : s'.vecs.read u = some r := by
  obtain ⟨vecs, hvecs, rfl⟩ := Option.map_eq_some_iff.mp h
  unfold Heap.modify at hvecs
  split_ifs at hvecs with hsome
  cases hvecs
  obtain ⟨x, hx⟩ := Option.isSome_iff_exists.mp hsome
  show (s.vecs.mapAt u _).read u = _
  rw [Heap.read_mapAt_const hx, if_pos rfl]

/-- **The members are exchanged**: those of the vector are the other's then. -/
theorem moveAssign_members {s s' : World T} (hs : s.vecs.read v = some o.rep)
    (h : moveAssign v u s = some s') : s'.vecs.read u = some o.rep := by
  obtain ⟨o', ho', h⟩ := Option.bind_eq_some_iff.mp h
  obtain ⟨r, -, h⟩ := Option.bind_eq_some_iff.mp h
  obtain ⟨s₁, -, h⟩ := Option.bind_eq_some_iff.mp h
  obtain rfl := Option.some.inj (hs.symm.trans ho')
  exact read_of_setMembers h

/-- **The buffer of a vector is freed** when the vector dies. -/
theorem storageDestruct_frees {s s' : World T} {b : Addr} (hb : o.data_ = some b)
    (hu : s.vecs.read u = some o.rep) (h : storageDestruct u s = some s') :
    s'.storage.buffers.read b = none := by
  obtain ⟨r, hr, h⟩ := Option.bind_eq_some_iff.mp h
  obtain rfl := Option.some.inj (hu.symm.trans hr)
  obtain ⟨s₁, -, h⟩ := Option.bind_eq_some_iff.mp h
  obtain ⟨s₂, hdelete, h⟩ := Option.bind_eq_some_iff.mp h
  obtain ⟨vecs, -, rfl⟩ := Option.map_eq_some_iff.mp h
  have hdata : o.rep.arr = some b := hb
  rw [hdata] at hdelete
  obtain ⟨st, hst, rfl⟩ := Option.map_eq_some_iff.mp hdelete
  obtain ⟨buffers, hbuffers, rfl⟩ := Option.map_eq_some_iff.mp hst
  unfold Heap.free at hbuffers
  split_ifs at hbuffers
  cases hbuffers
  show (s₁.storage.buffers.erase b).read b = none
  rw [Heap.read_erase, if_pos rfl]

/-- **`realloc` frees the buffer of the vector**, if it has a result. -/
theorem realloc_frees {b : Addr} (hb : o.data_ = some b) (sz : ℕ) :
    PartialTriple (Untouched v o) (realloc E v sz)
      (fun _ s => s.storage.buffers.read b = none) fun _ _ => False := by
  refine .bind (spares_ask _) fun r => .bind (storageConstruct_other sz) fun u => ?_
  rintro s ⟨hu, hs⟩
  refine PartialTriple.leaving (P := Untouched v o) (Q := fun _ s => s.vecs.read u = some o.rep)
    (.bind (spares_fillTo hu _ _) fun _ => .update fun s hs s' hs' =>
      moveAssign_members hs.members hs') (fun _ s hs s' hs' => storageDestruct_frees hb hs hs')
    (fun _ _ h => h.elim) s hs

/-- **A full vector** frees the buffer the reference is into, and there is
nothing to read. -/
theorem pushOwn_full {s : World T} (ho : s.vecs.read v = some o.rep) (hcalm : ∀ n, s.plan n = false)
    {b : Addr} (hb : o.data_ = some b) (hfull : o.size_ = o.allocated_) (i : ℕ) (nothrow : Bool) :
    pushOwn E v i nothrow s = none := by
  have hmembers : (members v : Prog (World T) Exc VectorStorage) s = some (.ok o, s) :=
    ask_of_some (by rw [ho]; rfl)
  have href : (elementRef v i : Prog (World T) Exc Ref) s = some (.ok ⟨some b, i⟩, s) := by
    rw [elementRef, bind_of_ok hmembers, hb]
    rfl
  have hgrow : grow E v s = realloc E v ((2 * o.allocated_ + 1) % 2 ^ 64) s := by
    unfold grow
    rw [bind_of_ok hmembers, if_pos hfull]
  have hpush : PartialTriple (· = s) (pushRef E v ⟨some b, i⟩ nothrow) (fun _ _ => False)
      fun _ _ => False := by
    refine .bind (Q := fun _ s' => s'.storage.buffers.read b = none) ?_ fun _ =>
      .bind (Q := fun _ s' => s'.storage.buffers.read b = none) (.ask fun _ hs _ _ => hs) fun r =>
      .bind (Q := fun _ _ => False) (.ask fun s' hs t ht => ?_) fun _ s' h => h.elim
    · rintro s' rfl
      rw [hgrow]
      exact realloc_frees hb _ _ ⟨ho, hcalm⟩
    · -- the buffer was freed, so there is no element to read
      obtain ⟨x, hx, -⟩ := Option.map_eq_some_iff.mp ht
      rw [Storage.object, hs] at hx
      cases hx
  rw [pushOwn, bind_of_ok href]
  cases hres : pushRef E v ⟨some b, i⟩ nothrow s with
  | none => rfl
  | some r =>
    have hend := hpush s rfl r hres
    match r, hend with
    | (.ok _, _), hend => exact hend.elim
    | (.error _, _), hend => exact hend.elim

/-! ## The contract -/

/-- **Main result: `v.push(v[i])` is right exactly where `v` is not full.**
There it appends the element whatever throws, and on a full vector it reads a
buffer it has freed as soon as nothing throws before. -/
theorem pushOwn_iff {s : World T} (hs : Represents E A s) (hv : A v = some c) {i : ℕ} {t : T}
    (ht : c.elems[i]? = some t) (nothrow : Bool) :
    (∀ plan, Appends E A v c t (pushOwn E v i nothrow) { s with plan := plan })
      ↔ c.elems.length < c.capacity := by
  obtain ⟨o, ho, hholds⟩ := hs.holds hv
  have hplan : ∀ plan, Represents E A { s with plan := plan } := fun plan =>
    ⟨hs.vec, hs.separate, hs.owned, hs.ledger⟩
  constructor
  · intro h
    refine Nat.lt_of_le_of_ne hholds.room fun hfull => ?_
    obtain ⟨b, hb⟩ : ∃ b, o.arr = some b := by
      rcases hholds.buffer with ⟨-, hcap⟩ | ⟨b, -, hb, -⟩
      · have hi := (List.getElem?_eq_some_iff.mp ht).1
        rw [hfull, hcap] at hi
        exact absurd hi (Nat.not_lt_zero i)
      · exact ⟨b, hb⟩
    have hstuck : pushOwn E v i nothrow { s with plan := fun _ => false } = none :=
      pushOwn_full (s := { s with plan := fun _ => false }) (o := .ofRep o) ho (fun _ => rfl) hb
        ((hholds.used.trans hfull).trans hholds.size.symm) i nothrow
    obtain ⟨r, hr, -⟩ := h fun _ => false
    cases hstuck.symm.trans hr
  · intro hroom plan
    rw [Appends, pushOwn_of_room (hplan plan) hv hroom ht]
    obtain ⟨r, hr, hend⟩ := push_spec (hplan plan) hv
      (fun hfull => absurd hfull (Nat.ne_of_lt hroom)) t nothrow _ rfl
    refine ⟨r, hr, ?_⟩
    match r, hend with
    | (.ok _, s'), hend => exact ⟨_, hend⟩
    | (.error _, s'), hend => exact hend

/-- A vector of one element in two places. -/
theorem pushOwn_iff_popped : ∃ s : World ℕ, s.contents 0 = some ⟨[7], 2⟩ ∧
    ∀ plan, Appends word s.contents 0 ⟨[7], 2⟩ 7 (pushOwn word 0 0 false)
      { s with plan := plan } := by
  have h₁ := @Reachable.step ℕ word (Op.Fits word) (.list [7, 9]) _ _ _ (.start fun _ => false)
    ⟨⟨rfl, by decide⟩, nofun⟩ trivial rfl
  have h₂ := @Reachable.step ℕ word (Op.Fits word) (.pop 0) _ _ _ h₁
    ⟨trivial, fun v hv => by rw [List.mem_singleton.mp hv]; rfl⟩ trivial rfl
  exact ⟨_, rfl, (pushOwn_iff h₂.represents rfl (i := 0) rfl false).mpr (by decide)⟩

/-- **The only element of a full vector**: nothing throws, and the push has no
result. -/
theorem pushOwn_counterexample : ∃ s : World ℕ,
    listConstruct word [7] (.start fun _ => false) = some (.ok 0, s) ∧
      s.contents 0 = some ⟨[7], 1⟩ ∧ pushOwn word 0 0 false s = none ∧
      ¬ Appends word s.contents 0 ⟨[7], 1⟩ 7 (pushOwn word 0 0 false) s := by
  obtain ⟨s, hs, hcontents, hread, hcalm⟩ : ∃ s : World ℕ,
      listConstruct word [7] (.start fun _ => false) = some (.ok 0, s) ∧
        s.contents 0 = some ⟨[7], 1⟩ ∧
        s.vecs.read 0 = some (VectorStorage.rep ⟨1, 1, some 0⟩) ∧ ∀ n, s.plan n = false :=
    ⟨_, rfl, rfl, rfl, fun _ => rfl⟩
  have hstuck := pushOwn_full (E := word) hread hcalm rfl rfl 0 false
  refine ⟨s, hs, hcontents, hstuck, ?_⟩
  rintro ⟨r, hr, -⟩
  cases hstuck.symm.trans hr

end Containers
