import CppGraduate.Lib.Heap
import Mathlib.Data.List.Perm.Basic
import Mathlib.Data.List.Range

/-!
# Raw storage and the objects in it

Buffers of bytes in which objects of one type come into being and cease to
be, one after another in the same place if need be. Objects are numbered in
the order of their construction, so that it can be said which of them were
destroyed. Constructing an object where one lives or beyond the end of the
buffer, destroying or reading one that is not there and freeing a buffer
twice have no result; freeing a buffer with objects in it loses them.

`Ledger` is what keeps objects from being destroyed twice or lost: each one
is either in one place or was destroyed once. All operations keep it, except
the freeing of a buffer that is not empty.
-/

/-- An object: its number in the order of construction, and its value. -/
structure Object (T : Type) where
  serial : ℕ
  value : T

/-- A buffer: its size, and the objects in it by their index. -/
structure Buffer (T : Type) where
  bytes : ℕ
  cells : ℕ → Option (Object T)

/-- **Raw storage.** -/
structure Storage (T : Type) where
  buffers : Heap (Buffer T)
  /-- How many objects were constructed. -/
  born : ℕ
  /-- The numbers of the objects that were destroyed. -/
  dead : List ℕ

namespace Storage

variable {T : Type}

/-- Storage without buffers. -/
def empty : Storage T := ⟨.empty, 0, []⟩

/-- A new buffer, without objects. -/
def allocate (bytes : ℕ) (s : Storage T) : ℕ × Storage T :=
  (s.buffers.bound, { s with buffers := (s.buffers.alloc ⟨bytes, fun _ => none⟩).2 })

/-- A buffer is freed. -/
def deallocate (b : ℕ) (s : Storage T) : Option (Storage T) :=
  (s.buffers.free b).map fun buffers => { s with buffers := buffers }

/-- The object at an index of a buffer. -/
def object (b i : ℕ) (s : Storage T) : Option (Object T) :=
  (s.buffers.read b).bind fun buf => buf.cells i

/-- The storage after the cell of a buffer changed. -/
def setCell (b i : ℕ) (o : Option (Object T)) (s : Storage T) : Storage T :=
  { s with buffers := s.buffers.mapAt b fun buf =>
      { buf with cells := fun j => if j = i then o else buf.cells j } }

/-- Whether the bytes of index `i` are in the buffer. -/
def hasRoom (sizeofT b i : ℕ) (s : Storage T) : Bool :=
  match s.buffers.read b with
  | some buf => decide (sizeofT * (i + 1) ≤ buf.bytes)
  | none => false

/-- **An object is constructed** at an index of a buffer. -/
def construct (sizeofT b i : ℕ) (t : T) (s : Storage T) : Option (Storage T) :=
  if s.hasRoom sizeofT b i ∧ s.object b i = none then
    some { s.setCell b i (some ⟨s.born, t⟩) with born := s.born + 1 }
  else none

/-- **The object at an index of a buffer is destroyed.** -/
def destroy (b i : ℕ) (s : Storage T) : Option (Storage T) :=
  (s.object b i).map fun o => { s.setCell b i none with dead := o.serial :: s.dead }

/-- The object at an index of a buffer gets another value. -/
def assign (b i : ℕ) (t : T) (s : Storage T) : Option (Storage T) :=
  (s.object b i).map fun o => s.setCell b i (some ⟨o.serial, t⟩)

/-! ## What the operations read back -/

section Reading

variable {s : Storage T} {b c i j : ℕ} {o : Option (Object T)}

/-- The buffers after a cell changed. -/
theorem read_setCell : (s.setCell b i o).buffers.read c
    = if c = b then (s.buffers.read c).map fun buf =>
        { buf with cells := fun j => if j = i then o else buf.cells j }
      else s.buffers.read c := Heap.read_mapAt ..

/-- The objects after a cell changed. -/
theorem object_setCell (hb : (s.buffers.read b).isSome) :
    (s.setCell b i o).object c j = if c = b ∧ j = i then o else s.object c j := by
  unfold object
  rw [read_setCell]
  by_cases hc : c = b
  · subst hc
    obtain ⟨buf, hbuf⟩ := Option.isSome_iff_exists.mp hb
    rw [if_pos rfl, hbuf, Option.map_some, Option.bind_some, Option.bind_some]
    show (if j = i then o else buf.cells j) = _
    by_cases hj : j = i
    · rw [if_pos hj, if_pos ⟨rfl, hj⟩]
    · rw [if_neg hj, if_neg fun h => hj h.2]
  · rw [if_neg hc, if_neg fun h => hc h.1]

/-- The buffers after another was allocated. -/
theorem read_allocate (bytes : ℕ) : (s.allocate bytes).2.buffers.read c
    = if c = s.buffers.bound then some ⟨bytes, fun _ => none⟩ else s.buffers.read c :=
  Heap.read_alloc ..

/-- A new buffer has no objects. -/
theorem object_allocate (bytes : ℕ) : (s.allocate bytes).2.object c j = s.object c j := by
  unfold object
  rw [read_allocate]
  split_ifs with hc
  · rw [hc, Heap.read_bound]
    rfl
  · rfl

/-- An object is in a buffer. -/
theorem isSome_of_object {x : Object T} (h : s.object b i = some x) :
    (s.buffers.read b).isSome := by
  obtain ⟨buf, hbuf, -⟩ := Option.bind_eq_some_iff.mp h
  rw [hbuf]
  rfl

end Reading

/-! ## Every object once -/

/-- **Every object is in one place or was destroyed once.** -/
structure Ledger (s : Storage T) : Prop where
  /-- None was destroyed twice. -/
  nodup : s.dead.Nodup
  /-- What was destroyed had been constructed. -/
  dead_lt : ∀ k ∈ s.dead, k < s.born
  /-- What is there was constructed and not destroyed. -/
  living : ∀ b i o, s.object b i = some o → o.serial < s.born ∧ o.serial ∉ s.dead
  /-- Nothing is in two places. -/
  unique : ∀ b i o b' i' o', s.object b i = some o → s.object b' i' = some o' →
    o.serial = o'.serial → b = b' ∧ i = i'
  /-- Nothing was lost. -/
  all : ∀ k < s.born, k ∈ s.dead ∨ ∃ b i o, s.object b i = some o ∧ o.serial = k

/-- Nothing was constructed at first. -/
theorem ledger_empty : (empty : Storage T).Ledger where
  nodup := List.nodup_nil
  dead_lt := nofun
  living _ _ _ h := nomatch h
  unique _ _ _ _ _ _ h := nomatch h
  all k h := absurd h (Nat.not_lt_zero k)

/-- The ledger is about the numbers of the objects. -/
theorem Ledger.congr {s s' : Storage T} (h : s.Ledger) (hborn : s'.born = s.born)
    (hdead : s'.dead = s.dead)
    (hobj : ∀ b i, (s'.object b i).map Object.serial = (s.object b i).map Object.serial) :
    s'.Ledger := by
  -- what is in a place now stands for what was there
  have hold : ∀ b i o, s'.object b i = some o → ∃ o', s.object b i = some o' ∧ o'.serial = o.serial :=
    fun b i o ho => Option.map_eq_some_iff.mp ((hobj b i).symm.trans (by rw [ho]; rfl))
  refine ⟨hdead ▸ h.nodup, hdead ▸ hborn ▸ h.dead_lt, fun b i o ho => ?_,
    fun b i o b' i' o' ho ho' hs => ?_, fun k hk => ?_⟩
  · obtain ⟨x, hx, hserial⟩ := hold b i o ho
    rw [hborn, hdead, ← hserial]
    exact h.living b i x hx
  · obtain ⟨x, hx, hserial⟩ := hold b i o ho
    obtain ⟨x', hx', hserial'⟩ := hold b' i' o' ho'
    exact h.unique b i x b' i' x' hx hx' (hserial.trans (hs.trans hserial'.symm))
  · rw [hborn] at hk
    rw [hdead]
    refine (h.all k hk).imp_right fun ⟨b, i, o, ho, hs⟩ => ?_
    obtain ⟨x, hx, hserial⟩ := Option.map_eq_some_iff.mp ((hobj b i).trans (by rw [ho]; rfl))
    exact ⟨b, i, x, hx, hserial.trans hs⟩

/-- A new buffer is no matter for the ledger. -/
theorem Ledger.allocate {s : Storage T} (h : s.Ledger) (bytes : ℕ) : (s.allocate bytes).2.Ledger :=
  h.congr rfl rfl fun _ _ => congrArg _ (object_allocate bytes)

/-- **Freeing an empty buffer** loses nothing. -/
theorem Ledger.deallocate {s : Storage T} (h : s.Ledger) {b : ℕ}
    (hb : (s.buffers.read b).isSome) (hempty : ∀ i, s.object b i = none) :
    ∃ s', s.deallocate b = some s' ∧ s'.Ledger
      ∧ ∀ c, s'.buffers.read c = if c = b then none else s.buffers.read c := by
  have hfree : s.buffers.free b = some (s.buffers.erase b) := Heap.free_of_isSome hb
  refine ⟨{ s with buffers := s.buffers.erase b }, ?_, h.congr rfl rfl fun c i => ?_,
    fun c => Heap.read_erase ..⟩
  · unfold Storage.deallocate
    rw [hfree, Option.map_some]
  · refine congrArg (Option.map Object.serial) ?_
    show ((s.buffers.erase b).read c).bind _ = s.object c i
    rw [Heap.read_erase]
    split_ifs with hc
    · rw [hc, hempty i]
      rfl
    · rfl

/-- **Constructing an object** where there is room and none lives. -/
theorem Ledger.construct {s : Storage T} (h : s.Ledger) {sizeofT b i : ℕ} {buf : Buffer T}
    (hb : s.buffers.read b = some buf) (hroom : sizeofT * (i + 1) ≤ buf.bytes)
    (hfree : buf.cells i = none) (t : T) :
    ∃ s', s.construct sizeofT b i t = some s' ∧ s'.Ledger
      ∧ ∀ c, s'.buffers.read c = if c = b then
          some { buf with cells := fun j => if j = i then some ⟨s.born, t⟩ else buf.cells j }
        else s.buffers.read c := by
  have hsome : (s.buffers.read b).isSome := by
    rw [hb]
    rfl
  have hnone : s.object b i = none := by
    unfold object
    rw [hb, Option.bind_some, hfree]
  have hobj : ∀ c j, (s.setCell b i (some ⟨s.born, t⟩)).object c j
      = if c = b ∧ j = i then some ⟨s.born, t⟩ else s.object c j := fun c j =>
    object_setCell hsome
  -- the new object is the only one with its number
  have hold : ∀ c j o, (s.setCell b i (some ⟨s.born, t⟩)).object c j = some o →
      (c = b ∧ j = i ∧ o.serial = s.born) ∨ s.object c j = some o := by
    intro c j o ho
    rw [hobj] at ho
    split_ifs at ho with hc
    · exact Or.inl ⟨hc.1, hc.2, (Option.some.inj ho) ▸ rfl⟩
    · exact Or.inr ho
  refine ⟨{ s.setCell b i (some ⟨s.born, t⟩) with born := s.born + 1 }, ?_,
    ⟨h.nodup, fun k hk => Nat.lt_succ_of_lt (h.dead_lt k hk), fun c j o ho => ?_,
      fun c j o c' j' o' ho ho' hs => ?_, fun k hk => ?_⟩, fun c => ?_⟩
  · unfold Storage.construct hasRoom
    rw [hb, if_pos ⟨decide_eq_true hroom, hnone⟩]
  · rcases hold c j o ho with ⟨-, -, hs⟩ | ho
    · rw [hs]
      exact ⟨Nat.lt_succ_self _, fun hmem => Nat.lt_irrefl _ (h.dead_lt _ hmem)⟩
    · exact ⟨Nat.lt_succ_of_lt (h.living c j o ho).1, (h.living c j o ho).2⟩
  · rcases hold c j o ho with ⟨hc, hj, hn⟩ | ho <;> rcases hold c' j' o' ho' with ⟨hc', hj', hn'⟩ | ho'
    · exact ⟨hc.trans hc'.symm, hj.trans hj'.symm⟩
    · exact absurd (h.living c' j' o' ho').1 (by rw [← hs, hn]; exact Nat.lt_irrefl _)
    · exact absurd (h.living c j o ho).1 (by rw [hs, hn']; exact Nat.lt_irrefl _)
    · exact h.unique c j o c' j' o' ho ho' hs
  · rcases Nat.lt_succ_iff_lt_or_eq.mp hk with hk | rfl
    · refine (h.all k hk).imp_right fun ⟨c, j, o, ho, hs⟩ => ⟨c, j, o, ?_, hs⟩
      refine (hobj c j).trans ((if_neg ?_).trans ho)
      rintro ⟨rfl, rfl⟩
      rw [hnone] at ho
      cases ho
    · exact Or.inr ⟨b, i, _, (hobj b i).trans (if_pos ⟨rfl, rfl⟩), rfl⟩
  · refine read_setCell.trans ?_
    split_ifs with hc
    · rw [hc, hb, Option.map_some]
    · rfl

/-- **Destroying an object.** -/
theorem Ledger.destroy {s : Storage T} (h : s.Ledger) {b i : ℕ} {buf : Buffer T} {x : Object T}
    (hb : s.buffers.read b = some buf) (hx : buf.cells i = some x) :
    ∃ s', s.destroy b i = some s' ∧ s'.Ledger
      ∧ ∀ c, s'.buffers.read c = if c = b then
          some { buf with cells := fun j => if j = i then none else buf.cells j }
        else s.buffers.read c := by
  have hobject : s.object b i = some x := by
    unfold object
    rw [hb, Option.bind_some, hx]
  have hobj : ∀ c j, (s.setCell b i none).object c j
      = if c = b ∧ j = i then none else s.object c j := fun c j =>
    object_setCell (isSome_of_object hobject)
  have hold : ∀ c j o, (s.setCell b i none).object c j = some o →
      ¬ (c = b ∧ j = i) ∧ s.object c j = some o := by
    intro c j o ho
    rw [hobj] at ho
    split_ifs at ho with hc
    exact ⟨hc, ho⟩
  -- the object was living, so its number is not among the dead
  obtain ⟨hlt, hnot⟩ := h.living b i x hobject
  refine ⟨{ s.setCell b i none with dead := x.serial :: s.dead }, ?_,
    ⟨List.nodup_cons.mpr ⟨hnot, h.nodup⟩, fun k hk => ?_, fun c j o ho => ?_,
      fun c j o c' j' o' ho ho' hs => ?_, fun k hk => ?_⟩, fun c => ?_⟩
  · unfold Storage.destroy
    rw [hobject, Option.map_some]
  · rcases List.mem_cons.mp hk with rfl | hk
    · exact hlt
    · exact h.dead_lt k hk
  · obtain ⟨hne, ho⟩ := hold c j o ho
    refine ⟨(h.living c j o ho).1, fun hmem => ?_⟩
    rcases List.mem_cons.mp hmem with hs | hmem
    · exact hne (h.unique c j o b i x ho hobject hs)
    · exact (h.living c j o ho).2 hmem
  · exact h.unique c j o c' j' o' (hold c j o ho).2 (hold c' j' o' ho').2 hs
  · by_cases hkx : k = x.serial
    · exact Or.inl (List.mem_cons.mpr (Or.inl hkx))
    · refine (h.all k hk).imp (List.mem_cons_of_mem _) fun ⟨c, j, o, ho, hs⟩ => ⟨c, j, o, ?_, hs⟩
      refine (hobj c j).trans ((if_neg ?_).trans ho)
      rintro ⟨rfl, rfl⟩
      rw [hobject] at ho
      exact hkx (hs.symm.trans (Option.some.inj ho ▸ rfl))
  · refine read_setCell.trans ?_
    split_ifs with hc
    · rw [hc, hb, Option.map_some]
    · rfl

/-- **An object gets another value** and stays the same object. -/
theorem Ledger.assign {s : Storage T} (h : s.Ledger) {b i : ℕ} {buf : Buffer T} {x : Object T}
    (hb : s.buffers.read b = some buf) (hx : buf.cells i = some x) (t : T) :
    ∃ s', s.assign b i t = some s' ∧ s'.Ledger
      ∧ ∀ c, s'.buffers.read c = if c = b then
          some { buf with cells := fun j => if j = i then some ⟨x.serial, t⟩ else buf.cells j }
        else s.buffers.read c := by
  have hobject : s.object b i = some x := by
    unfold object
    rw [hb, Option.bind_some, hx]
  refine ⟨s.setCell b i (some ⟨x.serial, t⟩), ?_, h.congr rfl rfl fun c j => ?_, fun c => ?_⟩
  · unfold Storage.assign
    rw [hobject, Option.map_some]
  · rw [object_setCell (isSome_of_object hobject)]
    split_ifs with hc
    · rw [hc.1, hc.2, hobject]
      rfl
    · rfl
  · refine read_setCell.trans ?_
    split_ifs with hc
    · rw [hc, hb, Option.map_some]
    · rfl

/-- **When no object is left**, every one that was constructed was destroyed
exactly once. -/
theorem Ledger.perm_range {s : Storage T} (h : s.Ledger) (hempty : ∀ b i, s.object b i = none) :
    s.dead.Perm (List.range s.born) := by
  refine (List.perm_ext_iff_of_nodup h.nodup List.nodup_range).mpr fun k => ?_
  rw [List.mem_range]
  refine ⟨h.dead_lt k, fun hk => (h.all k hk).resolve_right ?_⟩
  rintro ⟨b, i, o, ho, -⟩
  rw [hempty] at ho
  cases ho

/-! ## The sizes of the buffers -/

/-- **Every buffer has fewer than `N` bytes.** -/
def Below (N : ℕ) (s : Storage T) : Prop := ∀ b buf, s.buffers.read b = some buf → buf.bytes < N

section

variable {N : ℕ} {s s' : Storage T} {b i : ℕ}

/-- A new buffer. -/
theorem Below.allocate (h : s.Below N) {bytes : ℕ} (hlt : bytes < N) :
    (s.allocate bytes).2.Below N := by
  intro c buf hc
  rw [read_allocate] at hc
  split at hc
  · cases hc
    exact hlt
  · exact h c buf hc

/-- The objects in a buffer are no matter for its size. -/
theorem Below.setCell (h : s.Below N) (o : Option (Object T)) : (s.setCell b i o).Below N := by
  intro c buf hc
  rw [read_setCell] at hc
  split at hc
  · obtain ⟨buf', hbuf', rfl⟩ := Option.map_eq_some_iff.mp hc
    exact h c buf' hbuf'
  · exact h c buf hc

/-- A buffer that is freed has no size. -/
theorem Below.deallocate (h : s.Below N) (hs : s.deallocate b = some s') : s'.Below N := by
  obtain ⟨buffers, hfree, rfl⟩ := Option.map_eq_some_iff.mp hs
  unfold Heap.free at hfree
  split at hfree
  · cases hfree
    intro c buf hc
    have hread : (s.buffers.erase b).read c = some buf := hc
    rw [Heap.read_erase] at hread
    split at hread
    · cases hread
    · exact h c buf hread
  · cases hfree

/-- An object that is constructed. -/
theorem Below.construct (h : s.Below N) {sizeofT : ℕ} {t : T}
    (hs : s.construct sizeofT b i t = some s') : s'.Below N := by
  unfold Storage.construct at hs
  split at hs
  · cases hs
    exact h.setCell _
  · cases hs

/-- An object that is destroyed. -/
theorem Below.destroy (h : s.Below N) (hs : s.destroy b i = some s') : s'.Below N := by
  obtain ⟨o, -, rfl⟩ := Option.map_eq_some_iff.mp hs
  exact h.setCell _

/-- An object that gets another value. -/
theorem Below.assign (h : s.Below N) {t : T} (hs : s.assign b i t = some s') : s'.Below N := by
  obtain ⟨o, -, rfl⟩ := Option.map_eq_some_iff.mp hs
  exact h.setCell _

end

end Storage
