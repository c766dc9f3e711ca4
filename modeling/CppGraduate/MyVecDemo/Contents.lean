import CppGraduate.MyVecDemo.MyVec3
import Mathlib.Data.List.Basic
import Mathlib.Logic.Equiv.Basic

/-!
# What a myvec-3 vector holds

A vector stands for a list and a capacity. The memory represents an
assignment of lists and capacities to vectors when each vector's buffer has
the elements of its list in its first places, and nothing else, with enough
bytes for the capacity; no two vectors share a buffer, no buffer belongs to
none, and every object is in one place or was destroyed once.

Each part of the operations is stated by the assignments before and after
it.
-/

namespace MyVec3

open Prog

variable {T : Type} {sizeofT : ℕ}

/-! ## Contents -/

/-- What a vector stands for. -/
structure Contents (T : Type) where
  elems : List T
  capacity : ℕ

/-- What the living vectors stand for. -/
abbrev Meaning (T : Type) : Type := Addr → Option (Contents T)

/-- **A vector holds a list** in the first places of its buffer. -/
structure Holds (sizeofT : ℕ) (st : Storage T) (o : MyVectorBuf) (c : Contents T) : Prop where
  size : o.size = c.capacity
  used : o.used = c.elems.length
  room : c.elems.length ≤ c.capacity
  buffer : o.arr = none ∧ c.capacity = 0
    ∨ ∃ b buf, o.arr = some b ∧ st.buffers.read b = some buf ∧ sizeofT * c.capacity ≤ buf.bytes
      ∧ buf.bytes < 2 ^ 64 ∧ ∀ i, (buf.cells i).map Object.value = c.elems[i]?

/-- **What the memory represents.** -/
structure Represents (sizeofT : ℕ) (A : Meaning T) (s : World T) : Prop where
  /-- Every vector holds its list. -/
  vec : ∀ v, Option.Rel (Holds sizeofT s.storage) (s.vecs.read v) (A v)
  /-- No two vectors share a buffer. -/
  separate : ∀ v w o o' b, s.vecs.read v = some o → s.vecs.read w = some o' → o.arr = some b →
    o'.arr = some b → v = w
  /-- Every buffer is a vector's. -/
  owned : ∀ b, (s.storage.buffers.read b).isSome →
    ∃ v o, s.vecs.read v = some o ∧ o.arr = some b
  /-- Every object is in one place or was destroyed once. -/
  ledger : s.storage.Ledger

/-- Nothing lives at first. -/
theorem represents_start (sizeofT : ℕ) (plan : ℕ → Bool) :
    Represents sizeofT (fun _ => none) (World.start plan : World T) where
  vec _ := .none
  separate _ _ _ _ _ h := nomatch h
  owned _ h := nomatch h
  ledger := Storage.ledger_empty

/-- **What a program can see of the vectors**: `size()`, `capacity()` and the
elements that many places have. -/
def World.contents (s : World T) : Meaning T := fun v =>
  (s.vecs.read v).map fun o =>
    ⟨(List.range o.used).filterMap fun i => element o.arr i s, o.size⟩

variable {A : Meaning T} {s : World T} {v : Addr} {c : Contents T}

/-- The members of a living vector. -/
theorem Represents.holds (h : Represents sizeofT A s) (hv : A v = some c) :
    ∃ o, s.vecs.read v = some o ∧ Holds sizeofT s.storage o c := by
  have hrel := h.vec v
  rw [hv] at hrel
  cases hread : s.vecs.read v with
  | none =>
    rw [hread] at hrel
    cases hrel
  | some o =>
    rw [hread] at hrel
    cases hrel with
    | some hholds => exact ⟨o, rfl, hholds⟩

/-- A living vector stands for something. -/
theorem Represents.meaning (h : Represents sizeofT A s) (hv : (s.vecs.read v).isSome) :
    ∃ c, A v = some c := by
  obtain ⟨o, ho⟩ := Option.isSome_iff_exists.mp hv
  have hrel := h.vec v
  rw [ho] at hrel
  cases hA : A v with
  | none =>
    rw [hA] at hrel
    cases hrel
  | some c => exact ⟨c, rfl⟩

/-- An address where no vector lives. -/
theorem Represents.none_of_read (h : Represents sizeofT A s) (hv : s.vecs.read v = none) :
    A v = none := by
  have hrel := h.vec v
  rw [hv] at hrel
  cases hA : A v with
  | none => rfl
  | some c =>
    rw [hA] at hrel
    cases hrel

/-- What an index of a vector has. -/
theorem Represents.element_eq (h : Represents sizeofT A s) {o : MyVectorBuf} (hv : A v = some c)
    (ho : s.vecs.read v = some o) (i : ℕ) : element o.arr i s = c.elems[i]? := by
  obtain ⟨o', ho', hholds⟩ := h.holds hv
  cases ho.symm.trans ho'
  rcases hholds.buffer with ⟨harr, hcap⟩ | ⟨b, buf, harr, hread, -, -, hcells⟩
  · have hnil : c.elems = [] := List.eq_nil_of_length_eq_zero (Nat.le_zero.mp (hcap ▸ hholds.room))
    rw [harr, hnil]
    rfl
  · rw [harr]
    show ((s.storage.buffers.read b).bind _).map _ = _
    rw [hread, ← hcells]
    rfl

/-- The elements of a list by their indices. -/
theorem filterMap_getElem? (l : List T) : (List.range l.length).filterMap (fun i => l[i]?) = l := by
  induction l with
  | nil => rfl
  | cons a l ih =>
    rw [List.length_cons, List.range_succ_eq_map, List.filterMap_cons, List.filterMap_map]
    exact congrArg (a :: ·) ih

/-- **The memory represents what can be seen**, if anything. -/
theorem Represents.contents_eq (h : Represents sizeofT A s) : s.contents = A := by
  funext v
  show (s.vecs.read v).map _ = A v
  cases ho : s.vecs.read v with
  | none => exact (h.none_of_read ho).symm
  | some o =>
    obtain ⟨c, hv⟩ := h.meaning (v := v) (by rw [ho]; rfl)
    obtain ⟨o', ho', hholds⟩ := h.holds hv
    cases ho.symm.trans ho'
    rw [hv, Option.map_some, hholds.used, hholds.size,
      List.filterMap_congr fun i _ => h.element_eq hv ho i, filterMap_getElem?]

/-- **When no vector is left** every object was destroyed exactly once. -/
theorem Represents.perm_range (h : Represents sizeofT A s) (hnone : ∀ v, s.vecs.read v = none) :
    s.storage.dead.Perm (List.range s.storage.born) := by
  refine h.ledger.perm_range fun b i => ?_
  -- a buffer would be a vector's
  show (s.storage.buffers.read b).bind _ = none
  cases hread : s.storage.buffers.read b with
  | none => rfl
  | some buf =>
    obtain ⟨v, o, hv, -⟩ := h.owned b (by rw [hread]; rfl)
    rw [hnone v] at hv
    cases hv

/-- What the memory represents does not depend on how many calls there were. -/
theorem Represents.call (h : Represents sizeofT A s) (n : ℕ) :
    Represents sizeofT A { s with calls := n } :=
  ⟨h.vec, h.separate, h.owned, h.ledger⟩

/-- A call that may throw. -/
theorem throws_spec {R : Exc → World T → Prop} :
    Triple (Represents sizeofT A) throws (fun _ => Represents sizeofT A) R :=
  fun s hs => ⟨_, rfl, hs.call (s.calls + 1)⟩

/-- **A program that begins with the members of a vector.** -/
theorem members_bind {β : Type} (hv : A v = some c) {f : MyVectorBuf → Prog (World T) Exc β}
    {Q : β → World T → Prop} {R : Exc → World T → Prop}
    (h : ∀ o, o.size = c.capacity → o.used = c.elems.length →
      Triple (fun s => Represents sizeofT A s ∧ s.vecs.read v = some o) (f o) Q R) :
    Triple (Represents sizeofT A) (members v >>= f) Q R := by
  refine Triple.of_forall fun s hs => ?_
  obtain ⟨o, ho, hholds⟩ := hs.holds hv
  refine Triple.bind (Q := fun a s' => a = o ∧ s' = s)
    (Triple.ask fun s' hs' => ⟨o, hs' ▸ ho, rfl, hs'⟩) fun a => Triple.of_forall fun s' hs' => ?_
  rw [hs'.1, hs'.2]
  exact (h o hholds.size hholds.used).conseq (fun _ hs'' => hs'' ▸ ⟨hs, ho⟩) (fun _ _ => id)
    fun _ _ => id

/-! ## Changes of one vector -/

/-- A vector whose buffer is as it was. -/
theorem Holds.congr {st st' : Storage T} {o : MyVectorBuf} (h : Holds sizeofT st o c)
    (hb : ∀ b, o.arr = some b → st'.buffers.read b = st.buffers.read b) :
    Holds sizeofT st' o c :=
  ⟨h.size, h.used, h.room, h.buffer.imp_right fun ⟨b, buf, harr, hread, hrest⟩ =>
    ⟨b, buf, harr, (hb b harr).trans hread, hrest⟩⟩

/-- A buffer of a vector is there. -/
theorem Holds.read_ne_none {st : Storage T} {o : MyVectorBuf} (h : Holds sizeofT st o c) {b : Addr}
    (hb : o.arr = some b) : st.buffers.read b ≠ none := by
  rcases h.buffer with ⟨hnull, -⟩ | ⟨b', buf, harr, hread, -⟩
  · rw [hnull] at hb
    cases hb
  · rw [harr] at hb
    cases hb
    rw [hread]
    exact Option.some_ne_none _

/-- A vector that holds its list still does, whatever else it may be. -/
theorem rel_congr {st st' : Storage T} {o : Option MyVectorBuf} {d : Option (Contents T)}
    (h : Option.Rel (Holds sizeofT st) o d)
    (hst : ∀ a e, o = some a → Holds sizeofT st a e → Holds sizeofT st' a e) :
    Option.Rel (Holds sizeofT st') o d := by
  cases h with
  | none => exact .none
  | some hd => exact .some (hst _ _ rfl hd)

/-- The members of a living vector change. -/
theorem setMembers_eq {o : MyVectorBuf} (hv : s.vecs.read v = some o) (o' : MyVectorBuf) :
    setMembers v o' s = some { s with vecs := s.vecs.mapAt v fun _ => o' } := by
  unfold setMembers
  rw [Heap.modify_of_isSome (by rw [hv]; rfl), Option.map_some]

/-- Something is done to a buffer. -/
theorem inStorage_eq {f : Addr → Storage T → Option (Storage T)} {arr : Option Addr} {b : Addr}
    {st : Storage T} (harr : arr = some b) (hst : f b s.storage = some st) :
    (arr.bind fun b => inStorage (f b) s) = some { s with storage := st } := by
  rw [harr]
  show (f b s.storage).map _ = _
  rw [hst, Option.map_some]

/-- A list in memory is not longer than memory. -/
theorem Represents.fits (h : Represents sizeofT A s) (hv : A v = some c) :
    sizeofT * c.elems.length < 2 ^ 64 := by
  obtain ⟨o, -, hholds⟩ := h.holds hv
  rcases hholds.buffer with ⟨-, hcap⟩ | ⟨b, buf, -, -, hbytes, hlt, -⟩
  · have hnil : c.elems.length = 0 := Nat.le_zero.mp (hcap ▸ hholds.room)
    rw [hnil, Nat.mul_zero]
    decide
  · exact Nat.lt_of_le_of_lt (Nat.le_trans (Nat.mul_le_mul_left _ hholds.room) hbytes) hlt

/-- **A vector changes in its own buffer.** -/
theorem Represents.change (h : Represents sizeofT A s) {o o' : MyVectorBuf} {st : Storage T}
    {c' : Contents T} (hv : s.vecs.read v = some o) (harr : o'.arr = o.arr)
    (hholds : Holds sizeofT st o' c')
    (hother : ∀ b, o.arr ≠ some b → st.buffers.read b = s.storage.buffers.read b)
    (hown : ∀ b, o.arr = some b → (s.storage.buffers.read b).isSome) (hledger : st.Ledger) :
    Represents sizeofT (Function.update A v (some c'))
      { s with storage := st, vecs := s.vecs.mapAt v fun _ => o' } := by
  have hback : ∀ w a, (s.vecs.mapAt v fun _ => o').read w = some a →
      ∃ a', s.vecs.read w = some a' ∧ a'.arr = a.arr := by
    intro w a hw
    rw [Heap.read_mapAt_const hv] at hw
    split_ifs at hw with hwv
    · cases hw
      exact ⟨o, hwv ▸ hv, harr.symm⟩
    · exact ⟨a, hw, rfl⟩
  refine ⟨fun w => ?_, fun w x a a' b hw hx ha ha' => ?_, fun b hb => ?_, hledger⟩
  · show Option.Rel _ ((s.vecs.mapAt v fun _ => o').read w) _
    rw [Heap.read_mapAt_const hv, Function.update_apply]
    by_cases hwv : w = v
    · rw [if_pos hwv, if_pos hwv]
      exact .some hholds
    · rw [if_neg hwv, if_neg hwv]
      exact rel_congr (h.vec w) fun a d ha hd => hd.congr fun b hb => hother b fun ho =>
        hwv (h.separate w v a o b ha hv hb ho)
  · obtain ⟨d, hd, hda⟩ := hback w a hw
    obtain ⟨d', hd', hda'⟩ := hback x a' hx
    exact h.separate w x d d' b hd hd' (hda.trans ha) (hda'.trans ha')
  · have hold : (s.storage.buffers.read b).isSome := by
      by_cases ho : o.arr = some b
      · exact hown b ho
      · rw [← hother b ho]
        exact hb
    obtain ⟨w, a, hw, ha⟩ := h.owned b hold
    by_cases hwv : w = v
    · subst hwv
      rw [hv] at hw
      refine ⟨w, o', (Heap.read_mapAt_const hv o' w).trans (if_pos rfl), harr.trans ?_⟩
      rw [Option.some.inj hw, ha]
    · exact ⟨w, a, (Heap.read_mapAt_const hv o' w).trans ((if_neg hwv).trans hw), ha⟩

/-- The list with an element more, once there is an object in the next
place. -/
theorem map_cells_push {cells : ℕ → Option (Object T)} {l : List T}
    (h : ∀ i, (cells i).map Object.value = l[i]?) (serial : ℕ) (t : T) (i : ℕ) :
    (if i = l.length then some (Object.mk serial t) else cells i).map Object.value
      = (l ++ [t])[i]? := by
  split_ifs with hi
  · rw [hi, List.getElem?_concat_length]
    rfl
  · rw [h i, List.getElem?_append]
    split_ifs with hlt
    · rfl
    · rw [List.getElem?_eq_none (Nat.le_of_not_lt hlt), List.getElem?_eq_none]
      simp only [List.length_singleton]
      omega

/-- **An object in the next place of a vector with room**, and the count of
its elements with it. -/
theorem Represents.emplace (h : Represents sizeofT A s) {o : MyVectorBuf} (hv : A v = some c)
    (ho : s.vecs.read v = some o) (hroom : c.elems.length < c.capacity) (t : T) :
    ∃ b st, o.arr = some b ∧ Storage.construct sizeofT b o.used t s.storage = some st ∧
      Represents sizeofT (Function.update A v (some ⟨c.elems ++ [t], c.capacity⟩))
        { s with storage := st, vecs := s.vecs.mapAt v fun _ => { o with used := o.used + 1 } } := by
  obtain ⟨o', ho', hholds⟩ := h.holds hv
  cases ho.symm.trans ho'
  obtain ⟨b, buf, harr, hread, hbytes, hlt, hcells⟩ := hholds.buffer.resolve_left fun h => by
    rw [h.2] at hroom
    exact Nat.not_lt_zero _ hroom
  have hused := hholds.used
  -- the place after the last element is free and inside the buffer
  have hfree : buf.cells o.used = none := by
    have := hcells o.used
    rwa [hused, List.getElem?_eq_none (Nat.le_refl _), Option.map_eq_none_iff, ← hused] at this
  have hfits : sizeofT * (o.used + 1) ≤ buf.bytes :=
    Nat.le_trans (Nat.mul_le_mul_left _ (by rw [hused]; exact hroom)) hbytes
  obtain ⟨st, hst, hledger, hbuffers⟩ := h.ledger.construct hread hfits hfree t
  refine ⟨b, st, harr, hst, h.change ho rfl ⟨hholds.size, ?_, ?_, Or.inr ⟨b, _, harr,
    (hbuffers b).trans (if_pos rfl), hbytes, hlt, fun i => ?_⟩⟩ (fun b' hb' => ?_)
    (fun b' hb' => ?_) hledger⟩
  · rw [List.length_append, ← hused]
    rfl
  · rw [List.length_append]
    exact hroom
  · rw [hused]
    exact map_cells_push hcells s.storage.born t i
  · refine (hbuffers b').trans (if_neg ?_)
    rintro rfl
    exact hb' harr
  · rw [harr] at hb'
    rw [← Option.some.inj hb', hread]
    rfl

/-- **An element is put in the next place**, or nothing happens. -/
theorem emplace_spec (hv : A v = some c) (hroom : c.elems.length < c.capacity) (t : T) :
    Triple (Represents sizeofT A) (emplace sizeofT v t)
      (fun _ => Represents sizeofT (Function.update A v (some ⟨c.elems ++ [t], c.capacity⟩)))
      fun _ => Represents sizeofT A := by
  refine members_bind hv fun o _ _ => Triple.of_forall fun s ⟨hs, ho⟩ => ?_
  obtain ⟨b, st, harr, hst, hnew⟩ := hs.emplace hv ho hroom t
  -- the element and the count of elements come one after the other
  refine Triple.bind (Q := fun _ s' => ∃ n, s' = { s with storage := st, calls := n }) ?_
    fun _ => Triple.update fun s' ⟨n, hs'⟩ => ?_
  · refine Triple.bind (Q := fun _ s' => s' = { s with calls := s.calls + 1 })
      (fun s' hs' => ⟨_, rfl, by subst hs'; rfl⟩) fun r => ?_
    split_ifs
    · refine Triple.raise fun s' hs' => ?_
      rw [hs']
      exact hs.call _
    · refine Triple.update fun s' hs' => ⟨{ s with storage := st, calls := s.calls + 1 }, ?_,
        s.calls + 1, rfl⟩
      subst hs'
      rw [harr]
      show (Storage.construct sizeofT b o.used t s.storage).map _ = _
      rw [hst, Option.map_some]
  · subst hs'
    exact ⟨_, setMembers_eq (s := { s with storage := st, calls := n }) ho _, hnew.call n⟩

/-- The list without its last element, once there is no object in the last
place. -/
theorem map_cells_pop {cells : ℕ → Option (Object T)} {l : List T}
    (h : ∀ i, (cells i).map Object.value = l[i]?) (i : ℕ) :
    (if i = l.length - 1 then none else cells i).map Object.value = l.dropLast[i]? := by
  rw [List.getElem?_dropLast]
  split_ifs with hi hlt hlt
  · omega
  · rfl
  · exact h i
  · rw [h i, List.getElem?_eq_none]
    omega

/-- The elements of a vector that has some are in a buffer. -/
theorem Holds.exists_buffer {st : Storage T} {o : MyVectorBuf} (h : Holds sizeofT st o c)
    (hne : c.elems ≠ []) :
    ∃ b buf, o.arr = some b ∧ st.buffers.read b = some buf ∧ sizeofT * c.capacity ≤ buf.bytes
      ∧ buf.bytes < 2 ^ 64 ∧ ∀ i, (buf.cells i).map Object.value = c.elems[i]? := by
  refine h.buffer.resolve_left fun hnull => hne (List.eq_nil_of_length_eq_zero ?_)
  exact Nat.le_zero.mp (hnull.2 ▸ h.room)

/-- The object of an element. -/
theorem exists_object {cells : ℕ → Option (Object T)} {l : List T}
    (h : ∀ i, (cells i).map Object.value = l[i]?) {i : ℕ} (hi : i < l.length) :
    ∃ x, cells i = some x := by
  rw [← Option.isSome_iff_exists, ← Option.isSome_map (f := Object.value), h,
    List.getElem?_eq_getElem hi]
  rfl

/-- **The last object of a vector ceases to be**, and the count of its
elements goes down with it. -/
theorem Represents.destroyLast (h : Represents sizeofT A s) {o : MyVectorBuf} (hv : A v = some c)
    (ho : s.vecs.read v = some o) (hne : c.elems ≠ []) :
    ∃ b st, o.arr = some b ∧ Storage.destroy b (o.used - 1) s.storage = some st ∧
      Represents sizeofT (Function.update A v (some ⟨c.elems.dropLast, c.capacity⟩))
        { s with storage := st, vecs := s.vecs.mapAt v fun _ => { o with used := o.used - 1 } } := by
  obtain ⟨o', ho', hholds⟩ := h.holds hv
  cases ho.symm.trans ho'
  obtain ⟨b, buf, harr, hread, hbytes, hlt, hcells⟩ := hholds.exists_buffer hne
  have hused := hholds.used
  have hpos := List.length_pos_of_ne_nil hne
  obtain ⟨x, hx⟩ := exists_object hcells (i := o.used - 1) (by omega)
  obtain ⟨st, hst, hledger, hbuffers⟩ := h.ledger.destroy hread hx
  refine ⟨b, st, harr, hst, h.change ho rfl ⟨hholds.size, ?_, ?_, Or.inr ⟨b, _, harr,
    (hbuffers b).trans (if_pos rfl), hbytes, hlt, fun i => ?_⟩⟩ (fun b' hb' => ?_)
    (fun b' hb' => ?_) hledger⟩
  · rw [List.length_dropLast, ← hused]
  · rw [List.length_dropLast]
    exact Nat.le_trans (Nat.sub_le _ _) hholds.room
  · rw [hused]
    exact map_cells_pop hcells i
  · refine (hbuffers b').trans (if_neg ?_)
    rintro rfl
    exact hb' harr
  · rw [harr] at hb'
    rw [← Option.some.inj hb', hread]
    rfl

/-- The list with another value in one place. -/
theorem map_cells_set {cells : ℕ → Option (Object T)} {l : List T}
    (h : ∀ i, (cells i).map Object.value = l[i]?) {k : ℕ} (hk : k < l.length) (serial : ℕ) (t : T)
    (i : ℕ) :
    (if i = k then some (Object.mk serial t) else cells i).map Object.value = (l.set k t)[i]? := by
  rcases eq_or_ne i k with rfl | hik
  · rw [if_pos rfl, List.getElem?_set_self hk]
    rfl
  · rw [if_neg hik, List.getElem?_set_ne hik.symm, h i]

/-- **Vectors change places.** -/
theorem Represents.permute (h : Represents sizeofT A s) {vecs : Heap MyVectorBuf}
    (σ : Equiv.Perm Addr) (hread : ∀ x, vecs.read x = s.vecs.read (σ x)) :
    Represents sizeofT (A ∘ σ) { s with vecs := vecs } where
  vec x := by
    show Option.Rel _ (vecs.read x) (A (σ x))
    rw [hread]
    exact h.vec (σ x)
  separate x y a a' b hx hy ha ha' :=
    σ.injective (h.separate (σ x) (σ y) a a' b (hread x ▸ hx) (hread y ▸ hy) ha ha')
  owned b hb := by
    obtain ⟨w, a, hw, ha⟩ := h.owned b hb
    refine ⟨σ.symm w, a, ?_, ha⟩
    show vecs.read (σ.symm w) = some a
    rw [hread, Equiv.apply_symm_apply, hw]
  ledger := h.ledger

/-- **An element gets another value** in its place. -/
theorem Represents.assignElement (h : Represents sizeofT A s) {o : MyVectorBuf} (hv : A v = some c)
    (ho : s.vecs.read v = some o) {i : ℕ} (hi : i < c.elems.length) (t : T) :
    ∃ b st, o.arr = some b ∧ Storage.assign b i t s.storage = some st ∧
      Represents sizeofT (Function.update A v (some ⟨c.elems.set i t, c.capacity⟩))
        { s with storage := st } := by
  obtain ⟨o', ho', hholds⟩ := h.holds hv
  cases ho.symm.trans ho'
  obtain ⟨b, buf, harr, hread, hbytes, hlt, hcells⟩ :=
    hholds.exists_buffer (List.ne_nil_of_length_pos (Nat.zero_lt_of_lt hi))
  obtain ⟨x, hx⟩ := exists_object hcells hi
  obtain ⟨st, hst, hledger, hbuffers⟩ := h.ledger.assign hread hx t
  have hnew : Represents sizeofT (Function.update A v (some ⟨c.elems.set i t, c.capacity⟩))
      { s with storage := st, vecs := s.vecs.mapAt v fun _ => o } := by
    refine h.change ho rfl ⟨hholds.size, ?_, ?_, Or.inr ⟨b, _, harr,
      (hbuffers b).trans (if_pos rfl), hbytes, hlt, fun j => ?_⟩⟩ (fun b' hb' => ?_)
      (fun b' hb' => ?_) hledger
    · rw [List.length_set]
      exact hholds.used
    · rw [List.length_set]
      exact hholds.room
    · exact map_cells_set hcells hi x.serial t j
    · refine (hbuffers b').trans (if_neg ?_)
      rintro rfl
      exact hb' harr
    · rw [harr] at hb'
      rw [← Option.some.inj hb', hread]
      rfl
  -- the members were written back as they had been
  refine ⟨b, st, harr, hst, hnew.permute (Equiv.refl Addr) fun x => ?_⟩
  rw [Equiv.refl_apply, Heap.read_mapAt_const ho]
  split_ifs with hxv
  · rw [hxv, ho]
  · rfl

/-! ## Elements that are given away -/

/-- The list of a vector that has given the first `k` of its elements away. -/
def given (moved : T → T) (l : List T) (k : ℕ) : List T := (l.take k).map moved ++ l.drop k

theorem length_given (moved : T → T) (l : List T) (k : ℕ) : (given moved l k).length = l.length := by
  simp only [given, List.length_append, List.length_map, List.length_take, List.length_drop]
  omega

theorem given_zero (moved : T → T) (l : List T) : given moved l 0 = l := by
  rw [given, List.take_zero, List.map_nil, List.nil_append, List.drop_zero]

/-- The next element to give away is as it was. -/
theorem getElem_given {moved : T → T} {l : List T} {k : ℕ} (hk : k < l.length)
    (h : k < (given moved l k).length) :
    (given moved l k)[k] = l[k] := by
  simp [given, Nat.min_eq_left (Nat.le_of_lt hk)]

theorem given_succ (moved : T → T) {l : List T} {k : ℕ} (hk : k < l.length) :
    (given moved l k).set k (moved l[k]) = given moved l (k + 1) := by
  have htake : l.take (k + 1) = l.take k ++ [l[k]] := by rw [List.take_append_getElem]
  have hdrop : l.drop k = l[k] :: l.drop (k + 1) := List.drop_eq_getElem_cons hk
  have hlen : ((l.take k).map moved).length = k := by simp [Nat.le_of_lt hk]
  unfold given
  rw [htake, hdrop, List.map_append, List.append_assoc, List.set_append_right k _ hlen.le, hlen,
    Nat.sub_self]
  rfl

/-! ## Construction and destruction -/

/-- **A vector begins to live**, its buffer with it. -/
theorem Represents.create (h : Represents sizeofT A s) {o : MyVectorBuf} {st : Storage T}
    (hholds : Holds sizeofT st o c) (hnew : ∀ b, o.arr = some b → s.storage.buffers.read b = none)
    (hother : ∀ b, o.arr ≠ some b → st.buffers.read b = s.storage.buffers.read b)
    (hledger : st.Ledger) :
    Represents sizeofT (Function.update A s.vecs.bound (some c))
      { s with storage := st, vecs := (s.vecs.alloc o).2 } := by
  have hapart : ∀ v a b, s.vecs.read v = some a → a.arr = some b → o.arr ≠ some b := by
    intro v a b hv ha ho
    obtain ⟨d, hd⟩ := h.meaning (v := v) (by rw [hv]; rfl)
    obtain ⟨a', hv', hholds'⟩ := h.holds hd
    cases hv.symm.trans hv'
    exact hholds'.read_ne_none ha (hnew b ho)
  refine ⟨fun v => ?_, fun v w a a' b hv hw ha ha' => ?_, fun b hb => ?_, hledger⟩
  · show Option.Rel _ ((s.vecs.alloc o).2.read v) _
    rw [Heap.read_alloc, Function.update_apply]
    split_ifs with hbound
    · exact .some hholds
    · exact rel_congr (h.vec v) fun a d ha hd =>
        hd.congr fun b hb => hother b (hapart v a b ha hb)
  · rw [Heap.read_alloc] at hv hw
    split_ifs at hv hw with hv' hw' hw'
    · exact hv'.trans hw'.symm
    · cases hv
      exact absurd ha (hapart w a' b hw ha')
    · cases hw
      exact absurd ha' (hapart v a b hv ha)
    · exact h.separate v w a a' b hv hw ha ha'
  · by_cases ho : o.arr = some b
    · exact ⟨s.vecs.bound, o, (Heap.read_alloc ..).trans (if_pos rfl), ho⟩
    · rw [hother b ho] at hb
      obtain ⟨v, a, hv, ha⟩ := h.owned b hb
      exact ⟨v, a, (Heap.read_alloc ..).trans ((if_neg (Heap.ne_bound_of_read hv)).trans hv), ha⟩

/-- An empty vector without a buffer. -/
theorem holds_null (st : Storage T) : Holds sizeofT st ⟨none, 0, 0⟩ ⟨[], 0⟩ :=
  ⟨rfl, rfl, Nat.le_refl _, Or.inl ⟨rfl, rfl⟩⟩

/-- **A new vector with a new buffer.** -/
theorem Represents.allocate (h : Represents sizeofT A s) {sz : ℕ} (hfits : sizeofT * sz < 2 ^ 64) :
    Represents sizeofT (Function.update A s.vecs.bound (some ⟨[], sz⟩))
      { s with
        storage := (s.storage.allocate (sizeofT * sz)).2
        vecs := (s.vecs.alloc ⟨some s.storage.buffers.bound, sz, 0⟩).2 } := by
  have hread := fun b => Storage.read_allocate (s := s.storage) (c := b) (sizeofT * sz)
  refine h.create ?_ (fun b hb => ?_) (fun b hb => ?_) (h.ledger.allocate _)
  · exact ⟨rfl, rfl, Nat.zero_le _, Or.inr ⟨_, _, rfl, (hread _).trans (if_pos rfl),
      Nat.le_refl _, hfits, fun _ => rfl⟩⟩
  · rw [← Option.some.inj hb]
    exact Heap.read_bound _
  · exact (hread b).trans (if_neg fun he => hb (congrArg some he.symm))

/-- **`operator new`** allocates, or throws and is counted. -/
theorem operatorNew_spec (s : World T) (bytes : ℕ) :
    Triple (· = s) (operatorNew bytes)
      (fun b s' => b = s.storage.buffers.bound
        ∧ s' = { s with storage := (s.storage.allocate bytes).2, calls := s.calls + 1 })
      fun _ s' => s' = { s with calls := s.calls + 1 } := by
  unfold operatorNew
  refine Triple.bind (Q := fun _ s' => s' = { s with calls := s.calls + 1 })
    (fun s' hs' => ⟨_, rfl, by subst hs'; rfl⟩) fun r => ?_
  split_ifs
  · exact Triple.raise fun s' hs' => hs'
  · rintro s' rfl
    exact ⟨_, rfl, rfl, rfl⟩

/-- **A new vector**, without elements, or nothing happens. The number of
bytes is a value of `size_t`. -/
theorem bufConstruct_spec {sz : ℕ} (hfits : sizeofT * sz < 2 ^ 64) :
    Triple (Represents sizeofT A) (bufConstruct sizeofT sz)
      (fun v s => A v = none ∧ Represents sizeofT (Function.update A v (some ⟨[], sz⟩)) s)
      fun _ => Represents sizeofT A := by
  refine Triple.of_forall fun s hs => ?_
  have hnone : A s.vecs.bound = none := hs.none_of_read (Heap.read_bound _)
  unfold bufConstruct memoryFor
  split_ifs with hsz
  · subst hsz
    rintro s' rfl
    exact ⟨_, rfl, hnone, hs.create (holds_null _) nofun (fun _ _ => rfl) hs.ledger⟩
  · rw [Nat.mod_eq_of_lt hfits]
    refine Triple.bind (Q := fun arr s' => arr = some s.storage.buffers.bound ∧ s' =
      { s with storage := (s.storage.allocate (sizeofT * sz)).2, calls := s.calls + 1 }) ?_
      fun arr => ?_
    · exact Triple.bind ((operatorNew_spec s _).error fun _ s' hs' => hs' ▸ hs.call _) fun b =>
        Triple.pure fun s' hs' => ⟨congrArg some hs'.1, hs'.2⟩
    · rintro s' ⟨rfl, rfl⟩
      exact ⟨_, rfl, hnone, (hs.call (s.calls + 1)).allocate hfits⟩

/-- The elements of a part of a buffer are destroyed. -/
theorem destroyRange_spec {b i n : ℕ} {buf : Buffer T} (s : World T) (hledger : s.storage.Ledger)
    (hb : s.storage.buffers.read b = some buf)
    (hcells : ∀ j, i ≤ j → j < i + n → (buf.cells j).isSome) :
    ∃ st, destroyRange (some b) i n s = some { s with storage := st } ∧ st.Ledger
      ∧ (∀ c, c ≠ b → st.buffers.read c = s.storage.buffers.read c)
      ∧ ∃ buf', st.buffers.read b = some buf'
        ∧ ∀ j, buf'.cells j = if i ≤ j ∧ j < i + n then none else buf.cells j := by
  induction n generalizing i buf s with
  | zero =>
    refine ⟨s.storage, rfl, hledger, fun _ _ => rfl, buf, hb, fun j => ?_⟩
    rw [if_neg fun h => Nat.lt_irrefl _ (Nat.lt_of_le_of_lt h.1 h.2)]
  | succ n ih =>
    obtain ⟨x, hx⟩ := Option.isSome_iff_exists.mp
      (hcells i (Nat.le_refl i) (Nat.lt_add_of_pos_right (Nat.succ_pos n)))
    obtain ⟨st₁, hst₁, hledger₁, hread₁⟩ := hledger.destroy hb hx
    have hb₁ := (hread₁ b).trans (if_pos rfl)
    obtain ⟨st, hst, hledger', hother, buf', hb', hcells'⟩ :=
      ih (i := i + 1) { s with storage := st₁ } hledger₁ hb₁ fun j hij hj => by
        have hne : j ≠ i := by omega
        show (if j = i then none else buf.cells j).isSome
        rw [if_neg hne]
        exact hcells j (by omega) (by omega)
    refine ⟨st, ?_, hledger', fun c hc => ?_, buf', hb', fun j => ?_⟩
    · have hone : destroy (some b) i s = some { s with storage := st₁ } := by
        show (s.storage.destroy b i).map _ = _
        rw [hst₁, Option.map_some]
      rw [destroyRange, hone, Option.bind_some, hst]
    · rw [hother c hc, hread₁, if_neg hc]
    · rw [hcells']
      show (if _ then none else if j = i then none else buf.cells j) = _
      split_ifs <;> first | rfl | omega

/-- **A vector ceases to live** with its buffer. -/
theorem Represents.erase (h : Represents sizeofT A s) {o : MyVectorBuf} {st : Storage T}
    (hv : s.vecs.read v = some o) (hgone : ∀ b, o.arr = some b → st.buffers.read b = none)
    (hother : ∀ b, o.arr ≠ some b → st.buffers.read b = s.storage.buffers.read b)
    (hledger : st.Ledger) :
    Represents sizeofT (Function.update A v none)
      { s with storage := st, vecs := s.vecs.erase v } := by
  have hback : ∀ w a, (s.vecs.erase v).read w = some a → w ≠ v ∧ s.vecs.read w = some a := by
    intro w a hw
    rw [Heap.read_erase] at hw
    split_ifs at hw with hwv
    exact ⟨hwv, hw⟩
  refine ⟨fun w => ?_, fun w x a a' b hw hx ha ha' => ?_, fun b hb => ?_, hledger⟩
  · show Option.Rel _ ((s.vecs.erase v).read w) _
    rw [Heap.read_erase, Function.update_apply]
    split_ifs with hwv
    · exact .none
    · exact rel_congr (h.vec w) fun a d ha hd => hd.congr fun b hb => hother b fun ho =>
        hwv (h.separate w v a o b ha hv hb ho)
  · exact h.separate w x a a' b (hback w a hw).2 (hback x a' hx).2 ha ha'
  · have hne : o.arr ≠ some b := by
      intro ho
      rw [hgone b ho] at hb
      cases hb
    rw [hother b hne] at hb
    obtain ⟨w, a, hw, ha⟩ := h.owned b hb
    refine ⟨w, a, (Heap.read_erase ..).trans ((if_neg ?_).trans hw), ha⟩
    rintro rfl
    rw [hv] at hw
    cases hw
    exact hne ha

/-- **The destructor** does not fail. -/
theorem bufDestruct_spec (h : Represents sizeofT A s) (hv : A v = some c) :
    ∃ s', bufDestruct v s = some s' ∧ Represents sizeofT (Function.update A v none) s' := by
  obtain ⟨o, ho, hholds⟩ := h.holds hv
  have hvecs : s.vecs.free v = some (s.vecs.erase v) := Heap.free_of_isSome (by rw [ho]; rfl)
  have hrun : bufDestruct v s = (destroyRange o.arr 0 o.used s).bind fun s =>
      (operatorDelete o.arr s).bind (remove v) := by
    unfold bufDestruct
    rw [ho]
    rfl
  rcases hholds.buffer with ⟨harr, hcap⟩ | ⟨b, buf, harr, hread, -, -, hcells⟩
  · have hused : o.used = 0 := by
      rw [hholds.used]
      exact Nat.le_zero.mp (hcap ▸ hholds.room)
    refine ⟨{ s with vecs := s.vecs.erase v }, ?_, h.erase ho ?_ (fun _ _ => rfl) h.ledger⟩
    · rw [hrun, hused, harr]
      show (s.vecs.free v).map _ = _
      rw [hvecs, Option.map_some]
    · rw [harr]
      nofun
  · obtain ⟨st, hst, hledger, hother, buf', hread', hcells'⟩ := destroyRange_spec (i := 0)
      (n := o.used) s h.ledger hread fun j _ hj => by
        rw [← Option.isSome_map (f := Object.value), hcells, List.getElem?_eq_getElem]
        · rfl
        · rw [← hholds.used]
          omega
    obtain ⟨st', hst', hledger', hread''⟩ := hledger.deallocate (b := b) (by rw [hread']; rfl)
      fun i => by
        show (st.buffers.read b).bind _ = none
        rw [hread', Option.bind_some, hcells']
        split_ifs with hi
        · rfl
        · rw [← Option.map_eq_none_iff (f := Object.value), hcells, List.getElem?_eq_none]
          rw [← hholds.used]
          omega
    refine ⟨{ s with storage := st', vecs := s.vecs.erase v }, ?_,
      h.erase ho (fun c hc => ?_) (fun c hc => ?_) hledger'⟩
    · rw [hrun, harr, hst, Option.bind_some]
      show ((st.deallocate b).map _).bind _ = _
      rw [hst', Option.map_some, Option.bind_some]
      show (s.vecs.free v).map _ = _
      rw [hvecs, Option.map_some]
    · rw [harr] at hc
      exact (hread'' c).trans (if_pos (Option.some.inj hc).symm)
    · have hne : c ≠ b := fun he => hc (by rw [he, harr])
      rw [hread'' c, if_neg hne, hother c hne]

/-! ## Moves -/

/-- **The move assignment** exchanges two vectors. -/
theorem moveAssign_spec {w : Addr} (h : Represents sizeofT A s) (hv : (A v).isSome)
    (hw : (A w).isSome) :
    ∃ s', moveAssign v w s = some s' ∧ Represents sizeofT (A ∘ Equiv.swap v w) s' := by
  obtain ⟨c, hc⟩ := Option.isSome_iff_exists.mp hv
  obtain ⟨d, hd⟩ := Option.isSome_iff_exists.mp hw
  obtain ⟨o, ho, -⟩ := h.holds hc
  obtain ⟨r, hr, -⟩ := h.holds hd
  have hmid := Heap.read_mapAt_const ho r
  -- the second write finds a vector, also where both are one
  have hmidw : ∃ r', (s.vecs.mapAt v fun _ => r).read w = some r' := by
    rw [hmid]
    split_ifs
    · exact ⟨r, rfl⟩
    · exact ⟨r, hr⟩
  obtain ⟨r', hr'⟩ := hmidw
  refine ⟨{ s with vecs := (s.vecs.mapAt v fun _ => r).mapAt w fun _ => o }, ?_,
    h.permute (Equiv.swap v w) fun x => ?_⟩
  · unfold moveAssign
    rw [ho, hr]
    show (setMembers v r s).bind _ = _
    rw [setMembers_eq ho, Option.bind_some]
    exact setMembers_eq (s := { s with vecs := s.vecs.mapAt v fun _ => r }) hr' o
  · rw [Heap.read_mapAt_const hr', hmid]
    split_ifs with hxw hxv
    · rw [hxw, Equiv.swap_apply_right, ho]
    · rw [hxv, Equiv.swap_apply_left, hr]
    · rw [Equiv.swap_apply_of_ne_of_ne hxv hxw]

/-- **The move constructor** exchanges an empty vector with its argument. -/
theorem moveConstruct_spec {w : Addr} (h : Represents sizeofT A s) (hw : (A w).isSome) :
    ∃ u s', moveConstruct w s = some (u, s') ∧ A u = none
      ∧ Represents sizeofT (Function.update A u (some ⟨[], 0⟩) ∘ Equiv.swap u w) s' := by
  obtain ⟨d, hd⟩ := Option.isSome_iff_exists.mp hw
  obtain ⟨o, ho, -⟩ := h.holds hd
  have hne : w ≠ s.vecs.bound := Heap.ne_bound_of_read ho
  have hread := Heap.read_mapAt_const ho ⟨none, 0, 0⟩
  refine ⟨s.vecs.bound, { s with vecs := ((s.vecs.mapAt w fun _ => ⟨none, 0, 0⟩).alloc o).2 }, ?_,
    h.none_of_read (Heap.read_bound _),
    (h.create (holds_null s.storage) nofun (fun _ _ => rfl) h.ledger).permute
      (Equiv.swap s.vecs.bound w) fun x => ?_⟩
  · unfold moveConstruct
    rw [ho]
    show (setMembers w ⟨none, 0, 0⟩ s).bind _ = _
    rw [setMembers_eq ho]
    rfl
  · rw [Heap.read_alloc, hread, Heap.read_alloc]
    show (if x = s.vecs.bound then _ else _) = _
    by_cases hx : x = s.vecs.bound
    · rw [if_pos hx, hx, Equiv.swap_apply_left, if_neg hne, ho]
    · rw [if_neg hx]
      by_cases hxw : x = w
      · rw [if_pos hxw, hxw, Equiv.swap_apply_right, if_pos rfl]
      · rw [if_neg hxw, Equiv.swap_apply_of_ne_of_ne hx hxw, if_neg hx]

/-- **`std::swap`** exchanges two vectors, by way of a third. -/
theorem swap_spec {a b : Addr} (h : Represents sizeofT A s) (ha : (A a).isSome)
    (hb : (A b).isSome) :
    ∃ s', swap a b s = some s' ∧ Represents sizeofT (A ∘ Equiv.swap a b) s' := by
  obtain ⟨u, s₁, hs₁, hu, h₁⟩ := moveConstruct_spec h ha
  have hau : a ≠ u := by
    rintro rfl
    rw [hu] at ha
    cases ha
  have hbu : b ≠ u := by
    rintro rfl
    rw [hu] at hb
    cases hb
  -- what the vectors stand for once `a` has moved into the third
  set A₁ := Function.update A u (some ⟨[], 0⟩) ∘ Equiv.swap u a with hA₁
  have h₁u : A₁ u = A a := by
    rw [hA₁, Function.comp_apply, Equiv.swap_apply_left, Function.update_of_ne hau]
  have h₁a : A₁ a = some ⟨[], 0⟩ := by
    rw [hA₁, Function.comp_apply, Equiv.swap_apply_right, Function.update_self]
  have h₁x : ∀ x, x ≠ u → x ≠ a → A₁ x = A x := fun x hxu hxa => by
    rw [hA₁, Function.comp_apply, Equiv.swap_apply_of_ne_of_ne hxu hxa, Function.update_of_ne hxu]
  have h₁b : (A₁ b).isSome := by
    by_cases hba : b = a
    · rw [hba, h₁a]
      rfl
    · rw [h₁x b hbu hba]
      exact hb
  -- the two assignments, and the end of the third vector, empty again
  obtain ⟨s₂, hs₂, h₂⟩ := moveAssign_spec h₁ (by rw [h₁a]; rfl) h₁b
  obtain ⟨s₃, hs₃, h₃⟩ := moveAssign_spec (v := b) (w := u) h₂
    (by rw [Function.comp_apply, Equiv.swap_apply_right, h₁a]; rfl)
    (by rw [Function.comp_apply, Equiv.swap_apply_of_ne_of_ne hau.symm hbu.symm, h₁u]; exact ha)
  obtain ⟨s₄, hs₄, h₄⟩ := bufDestruct_spec (v := u) (c := ⟨[], 0⟩) h₃ (by
    rw [Function.comp_apply, Equiv.swap_apply_right, Function.comp_apply, Equiv.swap_apply_right,
      h₁a])
  refine ⟨s₄, ?_, ?_⟩
  · unfold swap
    rw [hs₁]
    show (moveAssign a b s₁).bind _ = _
    rw [hs₂, Option.bind_some]
    show (moveAssign b u s₂).bind _ = _
    rw [hs₃, Option.bind_some, hs₄]
  · convert h₄ using 1
    funext x
    by_cases hxu : x = u
    · rw [hxu, Function.update_self, Function.comp_apply,
        Equiv.swap_apply_of_ne_of_ne hau.symm hbu.symm, hu]
    · rw [Function.update_of_ne hxu, Function.comp_apply, Function.comp_apply, Function.comp_apply]
      by_cases hxb : x = b
      · rw [hxb, Equiv.swap_apply_right, Equiv.swap_apply_left,
          Equiv.swap_apply_of_ne_of_ne hau.symm hbu.symm, h₁u]
      · rw [Equiv.swap_apply_of_ne_of_ne hxb hxu]
        by_cases hxa : x = a
        · rw [hxa, Equiv.swap_apply_left]
          exact (h₁x b hbu fun hba => hxb (hxa.trans hba.symm)).symm
        · rw [Equiv.swap_apply_of_ne_of_ne hxa hxb, h₁x x hxu hxa]

end MyVec3
