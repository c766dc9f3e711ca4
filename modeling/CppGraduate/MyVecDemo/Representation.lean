import CppGraduate.MyVecDemo.MyVec2
import Mathlib.Data.List.Basic

/-!
# The representation of the myvec-2 vector

What `MyVector` relies on: its array has `size_` elements and `used_` is no
more than that. Each operation keeps this, whether or not it throws, with
one exception. The copy constructor makes an array of `used_` elements and
records the capacity of the original.
-/

namespace MyVec2

open Prog

variable {T : Type} {sizeofT : ℕ}

/-! ## The invariant -/

/-- **The array of a vector has `size_` elements**, and `used_` is no more
than that. -/
structure Sound (arrays : Heap (List T)) (o : MyVector) : Prop where
  used_le : o.used ≤ o.size
  array : o.arr = none ∧ o.size = 0
    ∨ ∃ p l, o.arr = some p ∧ arrays.read p = some l ∧ l.length = o.size

/-- **Every living vector is sound.** -/
def World.Sound (s : World T) : Prop := ∀ v o, s.vecs.read v = some o → MyVec2.Sound s.arrays o

/-- **The invariant**: besides, no array is larger than arrays can be and no
two vectors share one. -/
structure Inv (sizeofT : ℕ) (s : World T) : Prop where
  sound : s.Sound
  size_le : ∀ v o, s.vecs.read v = some o → o.size ≤ maxElements sizeofT
  separate : ∀ v w o o' p, s.vecs.read v = some o → s.vecs.read w = some o' → o.arr = some p →
    o'.arr = some p → v = w

/-- Nothing lives at first. -/
theorem inv_start (sizeofT : ℕ) (plan : ℕ → Option T) : Inv sizeofT (World.start plan) where
  sound _ _ h := nomatch h
  size_le _ _ h := nomatch h
  separate _ _ _ _ _ h := nomatch h

/-- **What a step keeps that touches no vector**: the vectors, and every
array there was. -/
structure Keeps (s₀ s : World T) : Prop where
  vecs : s.vecs = s₀.vecs
  arrays : ∀ p l, s₀.arrays.read p = some l → s.arrays.read p = some l

/-- Arrays that are kept keep a vector sound. -/
theorem Sound.mono {arrays arrays' : Heap (List T)} {o : MyVector} (h : Sound arrays o)
    (hk : ∀ p l, o.arr = some p → arrays.read p = some l → arrays'.read p = some l) :
    Sound arrays' o :=
  ⟨h.used_le, h.array.imp id fun ⟨p, l, hp, hl, hlen⟩ => ⟨p, l, hp, hk p l hp hl, hlen⟩⟩

/-- What touches no vector keeps the invariant. -/
theorem Inv.keep {s₀ s : World T} (h : Inv sizeofT s₀) (hk : Keeps s₀ s) : Inv sizeofT s where
  sound v o hv := (h.sound v o (hk.vecs ▸ hv)).mono fun p l _ => hk.arrays p l
  size_le v o hv := h.size_le v o (hk.vecs ▸ hv)
  separate v w o o' p hv hw := h.separate v w o o' p (hk.vecs ▸ hv) (hk.vecs ▸ hw)

/-- **A new array of `n` elements**, with everything else as it was. -/
structure Fresh (s₀ : World T) (p : Addr) (n : ℕ) (s : World T) : Prop where
  keeps : Keeps s₀ s
  new : s₀.arrays.read p = none
  array : ∃ l, s.arrays.read p = some l ∧ l.length = n

/-! ## Arrays -/

/-- A call that may throw is counted and changes nothing else. -/
theorem fate_spec {P : World T → Prop} {R : Exc → World T → Prop}
    (hP : ∀ s, P s → P { s with calls := s.calls + 1 }) :
    Triple P (fate (T := T)) (fun _ => P) R :=
  fun s hs => ⟨_, rfl, hP s hs⟩

/-- What is kept is kept when a call is counted. -/
theorem Keeps.call {s₀ s : World T} (h : Keeps s₀ s) :
    Keeps s₀ { s with calls := s.calls + 1 } := ⟨h.vecs, h.arrays⟩

/-- So is a new array. -/
theorem Fresh.call {s₀ s : World T} {p n : ℕ} (h : Fresh s₀ p n s) :
    Fresh s₀ p n { s with calls := s.calls + 1 } := ⟨h.keeps.call, h.new, h.array⟩

/-- **`new T[n]`** -/
theorem newArray_spec [Inhabited T] (sizeofT n : ℕ) (s₀ : World T) :
    Triple (· = s₀) (newArray sizeofT n)
      (fun p s => Fresh s₀ p n s ∧ n ≤ maxElements sizeofT) fun _ => Keeps s₀ := by
  have hrefl : Keeps s₀ s₀ := ⟨rfl, fun _ _ => id⟩
  unfold newArray
  split_ifs with hn
  · refine Triple.raise fun s hs => ?_
    rw [hs]
    exact hrefl
  refine Triple.bind (Q := fun _ s => s = { s₀ with calls := s₀.calls + 1 })
    (fun s hs => ⟨_, rfl, ?_⟩) fun r => ?_
  · subst hs
    rfl
  · cases r with
    | some left =>
      refine Triple.raise fun s hs => ?_
      rw [hs]
      exact hrefl.call
    | none =>
      intro s hs
      refine ⟨_, rfl, ⟨⟨?_, fun p l hl => ?_⟩, ?_, ?_⟩, Nat.le_of_not_lt hn⟩
      · rw [hs]
      · have hne := Heap.ne_bound_of_read hl
        show (s.arrays.alloc _).2.read p = some l
        rw [Heap.read_alloc, hs, if_neg hne, hl]
      · rw [hs]
        exact Heap.read_bound _
      · refine ⟨List.replicate n default, ?_, List.length_replicate⟩
        show (s.arrays.alloc _).2.read s.arrays.bound = _
        rw [Heap.read_alloc, if_pos rfl]

/-- **`delete[]`** of a new array. -/
theorem Fresh.delete {s₀ s : World T} {p n : ℕ} (h : Fresh s₀ p n s) :
    ∃ s', deleteArray (some p) s = some s' ∧ Keeps s₀ s' := by
  obtain ⟨l, hl, -⟩ := h.array
  have hfree : s.arrays.free p = some (s.arrays.erase p) := Heap.free_of_isSome (by rw [hl]; rfl)
  refine ⟨{ s with arrays := s.arrays.erase p }, ?_, h.keeps.vecs, fun q l' hq => ?_⟩
  · show (s.arrays.free p).map _ = _
    rw [hfree, Option.map_some]
  · show (s.arrays.erase p).read q = some l'
    have hne : q ≠ p := by
      rintro rfl
      rw [h.new] at hq
      cases hq
    rw [Heap.read_erase, if_neg hne]
    exact h.keeps.arrays q l' hq

/-- Writing inside an array. -/
theorem store_eq {s : World T} {p idx : ℕ} {l : List T} (hl : s.arrays.read p = some l)
    (hidx : idx < l.length) (v : T) :
    store (some p) idx v s
      = some { s with arrays := s.arrays.mapAt p fun l => l.set idx v } := by
  unfold store
  simp only [hl, if_pos hidx]

/-- A write keeps the length of the array. -/
theorem read_store (arrays : Heap (List T)) (p idx : ℕ) (v : T) (q : ℕ) :
    (arrays.mapAt p fun l => l.set idx v).read q
      = if q = p then (arrays.read q).map fun l => l.set idx v else arrays.read q :=
  Heap.read_mapAt ..

/-- **Assigning an element of an array**, for everything that does not depend
on the elements. -/
theorem assign_spec {P : World T → Prop} {arr : Option Addr} {idx : ℕ} (v : T)
    (hcall : ∀ s, P s → P { s with calls := s.calls + 1 })
    (hstore : ∀ s, P s → ∀ v, ∃ s', store arr idx v s = some s' ∧ P s') :
    Triple P (assign arr idx v) (fun _ => P) fun _ => P := by
  unfold assign
  refine Triple.bind (fate_spec hcall) fun r => ?_
  cases r with
  | none => exact Triple.update fun s hs => hstore s hs v
  | some left =>
    refine Triple.bind (Q := fun _ => P) (Triple.update fun s hs => hstore s hs left) fun _ => ?_
    exact Triple.raise fun s hs => hs

/-- Writing in a new array. -/
theorem Fresh.store {s₀ s : World T} {p n idx : ℕ} (h : Fresh s₀ p n s) (hidx : idx < n) (v : T) :
    ∃ s', store (some p) idx v s = some s' ∧ Fresh s₀ p n s' := by
  obtain ⟨l, hl, hlen⟩ := h.array
  refine ⟨_, store_eq hl (hlen ▸ hidx) v, ⟨h.keeps.vecs, fun q l' hq => ?_⟩, h.new, ?_⟩
  · have hne : q ≠ p := by
      rintro rfl
      rw [h.new] at hq
      cases hq
    show (s.arrays.mapAt p fun l => l.set idx v).read q = some l'
    rw [read_store, if_neg hne]
    exact h.keeps.arrays q l' hq
  · refine ⟨l.set idx v, ?_, ?_⟩
    · show (s.arrays.mapAt p fun l => l.set idx v).read p = _
      rw [read_store, if_pos rfl, hl, Option.map_some]
    · rw [List.length_set, hlen]

/-- The first `n` elements can be read. -/
def Readable (arr : Option Addr) (n : ℕ) (s : World T) : Prop :=
  ∀ idx < n, ∃ v, element arr idx s = some v

/-- What is kept can be read. -/
theorem Keeps.readable {s₀ s : World T} (h : Keeps s₀ s) {arr : Option Addr} {n : ℕ}
    (hr : Readable arr n s₀) : Readable arr n s := by
  intro idx hidx
  obtain ⟨v, hv⟩ := hr idx hidx
  refine ⟨v, ?_⟩
  unfold element at hv ⊢
  obtain ⟨p, hp, hv⟩ := Option.bind_eq_some_iff.mp hv
  obtain ⟨l, hl, hv⟩ := Option.bind_eq_some_iff.mp hv
  rw [hp, Option.bind_eq_bind, Option.bind_some, h.arrays p l hl, Option.bind_eq_bind,
    Option.bind_some, hv]

/-- A sound vector can be read up to its capacity. -/
theorem Sound.readable {s : World T} {o : MyVector} (h : Sound s.arrays o) :
    Readable o.arr o.size s := by
  intro idx hidx
  rcases h.array with ⟨-, hzero⟩ | ⟨p, l, hp, hl, hlen⟩
  · rw [hzero] at hidx
    cases hidx
  · refine ⟨l.get ⟨idx, hlen ▸ hidx⟩, ?_⟩
    unfold element
    rw [hp, Option.bind_eq_bind, Option.bind_some, hl, Option.bind_eq_bind, Option.bind_some]
    exact List.getElem?_eq_getElem _

/-- **The loop of `safe_copy`** stays inside both arrays. -/
theorem copyLoop_spec {s₀ : World T} {src : Option Addr} {p n idx k : ℕ}
    (hsrc : Readable src (idx + k) s₀) (hdest : idx + k ≤ n) :
    Triple (Fresh s₀ p n) (copyLoop (some p) src idx k) (fun _ => Fresh s₀ p n)
      fun _ => Fresh s₀ p n := by
  induction k generalizing idx with
  | zero => exact Triple.pure fun s hs => hs
  | succ k ih =>
    have hidx : idx < idx + (k + 1) := Nat.lt_add_of_pos_right (Nat.succ_pos k)
    have hnext : idx + 1 + k = idx + (k + 1) := by omega
    refine Triple.bind (Q := fun _ => Fresh s₀ p n) (Triple.ask fun s hs => ?_) fun v => ?_
    · obtain ⟨v, hv⟩ := hs.keeps.readable hsrc idx hidx
      exact ⟨v, hv, hs⟩
    refine Triple.bind (assign_spec v (fun s hs => hs.call)
      fun s hs w => hs.store (Nat.lt_of_lt_of_le hidx hdest) w) fun _ => ?_
    exact ih (hnext.symm ▸ hsrc) (hnext.symm ▸ hdest)

/-- **`safe_copy`**: a new array, or nothing. -/
theorem safeCopy_spec [Inhabited T] (sizeofT : ℕ) {s₀ : World T} {src : Option Addr}
    {srcsize dstsize : ℕ} (hsrc : Readable src srcsize s₀) (hle : srcsize ≤ dstsize) :
    Triple (· = s₀) (safeCopy sizeofT src srcsize dstsize)
      (fun p s => Fresh s₀ p dstsize s ∧ dstsize ≤ maxElements sizeofT) fun _ => Keeps s₀ := by
  refine Triple.bind (Q := fun _ s => s = s₀) (Triple.assert (fun _ _ => hle) fun s hs => hs)
    fun _ => ?_
  refine Triple.bind (newArray_spec sizeofT dstsize s₀) fun p => ?_
  have hsrc' : Readable src (0 + srcsize) s₀ := (Nat.zero_add srcsize).symm ▸ hsrc
  have hdest : 0 + srcsize ≤ dstsize := (Nat.zero_add srcsize).symm ▸ hle
  have hcopy := (copyLoop_spec (p := p) hsrc' hdest).onThrow fun _ s hs => hs.delete
  refine Triple.of_forall fun s₁ h₁ => ?_
  refine Triple.bind (Q := fun _ s => Fresh s₀ p dstsize s)
    (hcopy.pre fun s hs => hs ▸ h₁.1) fun _ => ?_
  exact Triple.pure fun s hs => ⟨hs, h₁.2⟩

/-! ## Vectors -/

section Vectors

variable {s : World T} {v : Addr} {o o' : MyVector}

/-- No other vector has a certain array. -/
def Unshared (s : World T) (v : Addr) (arr : Option Addr) : Prop :=
  ∀ w o' p, s.vecs.read w = some o' → arr = some p → o'.arr = some p → w = v

/-- **A vector begins to live.** -/
theorem Inv.create (h : Inv sizeofT s) (hs : MyVec2.Sound s.arrays o)
    (hsize : o.size ≤ maxElements sizeofT)
    (hun : ∀ w o' p, s.vecs.read w = some o' → o.arr = some p → o'.arr ≠ some p) :
    Inv sizeofT { s with vecs := (s.vecs.alloc o).2 } := by
  have hread : ∀ w o', (s.vecs.alloc o).2.read w = some o' →
      w = s.vecs.bound ∧ o' = o ∨ s.vecs.read w = some o' := by
    intro w o' hw
    rw [Heap.read_alloc] at hw
    split_ifs at hw with hb
    · exact Or.inl ⟨hb, (Option.some.inj hw).symm⟩
    · exact Or.inr hw
  refine ⟨fun w o' hw => ?_, fun w o' hw => ?_, fun w x a b p hw hx ha hb => ?_⟩
  · rcases hread w o' hw with ⟨-, rfl⟩ | hw
    · exact hs
    · exact h.sound w o' hw
  · rcases hread w o' hw with ⟨-, rfl⟩ | hw
    · exact hsize
    · exact h.size_le w o' hw
  · rcases hread w a hw with ⟨hwb, hao⟩ | hw' <;> rcases hread x b hx with ⟨hxb, hbo⟩ | hx'
    · exact hwb.trans hxb.symm
    · exact absurd hb (hun x b p hx' (hao ▸ ha))
    · exact absurd ha (hun w a p hw' (hbo ▸ hb))
    · exact h.separate w x a b p hw' hx' ha hb

/-- The members of a living vector change. -/
theorem setMembers_eq (hv : s.vecs.read v = some o) (o' : MyVector) :
    (s.vecs.modify v fun _ => o').map (fun vecs => { s with vecs := vecs })
      = some { s with vecs := s.vecs.mapAt v fun _ => o' } := by
  rw [Heap.modify_of_isSome (by rw [hv]; rfl), Option.map_some]

/-- **A vector changes**, and with it perhaps arrays of its own. -/
theorem Inv.set (h : Inv sizeofT s) (hv : s.vecs.read v = some o) {arrays : Heap (List T)}
    (hs : MyVec2.Sound arrays o') (hsize : o'.size ≤ maxElements sizeofT)
    (hun : Unshared s v o'.arr)
    (hk : ∀ w a, w ≠ v → s.vecs.read w = some a → ∀ p l, a.arr = some p →
      s.arrays.read p = some l → arrays.read p = some l) :
    Inv sizeofT { s with arrays := arrays, vecs := s.vecs.mapAt v fun _ => o' } := by
  refine ⟨fun w a hw => ?_, fun w a hw => ?_, fun w x a b p hw hx ha hb => ?_⟩
  · change (s.vecs.mapAt v fun _ => o').read w = some a at hw
    rw [Heap.read_mapAt_const hv] at hw
    split_ifs at hw with hwv
    · exact Option.some.inj hw ▸ hs
    · exact (h.sound w a hw).mono (hk w a hwv hw)
  · change (s.vecs.mapAt v fun _ => o').read w = some a at hw
    rw [Heap.read_mapAt_const hv] at hw
    split_ifs at hw with hwv
    · exact Option.some.inj hw ▸ hsize
    · exact h.size_le w a hw
  · change (s.vecs.mapAt v fun _ => o').read w = some a at hw
    change (s.vecs.mapAt v fun _ => o').read x = some b at hx
    rw [Heap.read_mapAt_const hv] at hw hx
    split_ifs at hw hx with hwv hxv hxv
    · exact hwv.trans hxv.symm
    · cases hw
      exact hwv.trans (hun x b p hx ha hb).symm
    · cases hx
      exact (hun w a p hw hb ha).trans hxv.symm
    · exact h.separate w x a b p hw hx ha hb

/-- Nothing but a vector's own array is shared with it. -/
theorem Inv.unshared (h : Inv sizeofT s) (hv : s.vecs.read v = some o) : Unshared s v o.arr :=
  fun w o' p hw ha hb => h.separate w v o' o p hw hv hb ha

/-- A new array is in no vector. -/
theorem Inv.unshared_fresh {s₀ : World T} {p n : ℕ} (h : Inv sizeofT s₀) (hf : Fresh s₀ p n s)
    (w : Addr) (o' : MyVector) (hw : s.vecs.read w = some o') : o'.arr ≠ some p := by
  intro hp
  rcases (h.sound w o' (hf.keeps.vecs ▸ hw)).array with ⟨hnone, -⟩ | ⟨q, l, hq, hl, -⟩
  · rw [hnone] at hp
    cases hp
  · rw [hq] at hp
    cases hp
    rw [hf.new] at hl
    cases hl

end Vectors

/-! ## Operations -/

section Operations

variable {s : World T} {v : Addr} {o : MyVector}

/-- **Deleting the array of a vector** leaves those of the others. -/
theorem Inv.delete (h : Inv sizeofT s) (hv : s.vecs.read v = some o) :
    ∃ arrays, deleteArray o.arr s = some { s with arrays := arrays }
      ∧ ∀ p l, o.arr ≠ some p → s.arrays.read p = some l → arrays.read p = some l := by
  rcases (h.sound v o hv).array with ⟨hnone, -⟩ | ⟨p, l, hp, hl, -⟩
  · exact ⟨s.arrays, by rw [hnone]; rfl, fun _ _ _ => id⟩
  · have hfree : s.arrays.free p = some (s.arrays.erase p) :=
      Heap.free_of_isSome (by rw [hl]; rfl)
    refine ⟨s.arrays.erase p, ?_, fun q l' hq hl' => ?_⟩
    · rw [hp]
      show (s.arrays.free p).map _ = _
      rw [hfree, Option.map_some]
    · have hne : q ≠ p := by
        rintro rfl
        exact hq hp
      rw [Heap.read_erase, if_neg hne, hl']

/-- The arrays of the other vectors are not the one of this vector. -/
theorem Inv.others (h : Inv sizeofT s) (hv : s.vecs.read v = some o) {w : Addr} {a : MyVector}
    (hwv : w ≠ v) (hw : s.vecs.read w = some a) {p : Addr} (hp : a.arr = some p) :
    o.arr ≠ some p := fun ho => hwv (h.separate w v a o p hw hv hp ho)

/-- Reading the members of a living vector. -/
theorem members_spec {s₀ : World T} (hv : s₀.vecs.read v = some o) {R : Exc → World T → Prop} :
    Triple (· = s₀) (members v) (fun a s => a = o ∧ s = s₀) R :=
  Triple.ask fun s hs => ⟨o, by rw [hs, hv], rfl, hs⟩

/-- A program that begins with the members of a living vector. -/
theorem members_bind {β : Type} {s₀ : World T} (hv : s₀.vecs.read v = some o)
    {f : MyVector → Prog (World T) Exc β} {Q : β → World T → Prop} {R : Exc → World T → Prop}
    (h : Triple (· = s₀) (f o) Q R) : Triple (· = s₀) (members v >>= f) Q R := by
  refine Triple.bind (members_spec hv) fun a => Triple.of_forall fun s₁ h₁ => ?_
  rw [h₁.1, h₁.2]
  exact h

/-- Arrays are never so large that `push` wraps around. -/
theorem grown_eq (h : Inv sizeofT s) (hv : s.vecs.read v = some o) :
    (o.size * 2 + 1) % 2 ^ 64 = o.size * 2 + 1 := by
  have hmax : maxElements sizeofT ≤ 2 ^ 63 - 1 := Nat.div_le_self _ _
  have hsize := h.size_le v o hv
  exact Nat.mod_eq_of_lt (by omega)

/-- **Growing** makes room for an element, or changes nothing. -/
theorem grow_spec [Inhabited T] {s₀ : World T} (h : Inv sizeofT s₀)
    (hv : s₀.vecs.read v = some o) :
    Triple (· = s₀) (grow sizeofT v)
      (fun _ s => Inv sizeofT s ∧ ∃ o', s.vecs.read v = some o' ∧ o'.used < o'.size)
      fun _ => Inv sizeofT := by
  have hsound := h.sound v o hv
  have hgrown := grown_eq h hv
  refine members_bind hv ?_
  dsimp only
  generalize (o.size * 2 + 1) % 2 ^ 64 = newsz at hgrown ⊢
  have hle : o.size ≤ newsz := by omega
  have hlt : o.used < newsz := by
    have := hsound.used_le
    omega
  -- the copy comes first, so a failure leaves the vector as it was
  have hcopy := safeCopy_spec sizeofT hsound.readable hle
  refine Triple.bind (hcopy.error fun _ s hs => h.keep hs)
    fun p => Triple.of_forall fun s₁ h₁ => ?_
  obtain ⟨hfresh, hmax⟩ := h₁
  have h₁ : Inv sizeofT s₁ := h.keep hfresh.keeps
  have hv₁ : s₁.vecs.read v = some o := hfresh.keeps.vecs ▸ hv
  have hnot : o.arr ≠ some p := h.unshared_fresh hfresh v o hv₁
  -- the old array is no other vector's
  obtain ⟨arrays, hdelete, hkeep⟩ := h₁.delete hv₁
  refine Triple.bind (Q := fun _ s => s = { s₁ with arrays := arrays })
    (Triple.update fun s hs => ⟨_, hs ▸ hdelete, rfl⟩) fun _ => ?_
  obtain ⟨l, hl, hlen⟩ := hfresh.array
  have hinv : Inv sizeofT { s₁ with
      arrays := arrays
      vecs := s₁.vecs.mapAt v fun _ => { o with arr := some p, size := newsz } } := by
    refine h₁.set hv₁ ⟨Nat.le_of_lt hlt, Or.inr ⟨p, l, rfl, hkeep p l hnot hl, hlen⟩⟩ hmax
      (fun w o' q hw hq ho' => ?_) fun w a hwv hw q l' hq => ?_
    · exact absurd (Option.some.inj hq ▸ ho') (h.unshared_fresh hfresh w o' hw)
    · exact hkeep q l' (h₁.others hv₁ hwv hw hq)
  refine Triple.bind (Q := fun _ s => s = { s₁ with
      arrays := arrays
      vecs := s₁.vecs.mapAt v fun _ => { o with arr := some p, size := newsz } })
    (Triple.update fun s hs => ?_) fun _ => Triple.assert (fun _ _ => hlt) fun s hs => ?_
  · subst hs
    exact ⟨_, setMembers_eq (s := { s₁ with arrays := arrays }) hv₁ _, rfl⟩
  · subst hs
    exact ⟨hinv, _, (Heap.read_mapAt_const hv₁ _ v).trans (if_pos rfl), hlt⟩

/-- A write into an array keeps the invariant. -/
theorem Inv.mapAt (h : Inv sizeofT s) (p idx : ℕ) (t : T) :
    Inv sizeofT { s with arrays := s.arrays.mapAt p fun l => l.set idx t } := by
  refine ⟨fun w a hw => ?_, h.size_le, h.separate⟩
  obtain ⟨hused, harray⟩ := h.sound w a hw
  refine ⟨hused, harray.imp id ?_⟩
  rintro ⟨q, l, hq, hl, hlen⟩
  refine ⟨q, if q = p then l.set idx t else l, hq, ?_, ?_⟩
  · show (s.arrays.mapAt p fun l => l.set idx t).read q = _
    rw [read_store, hl]
    split_ifs <;> rfl
  · split_ifs
    · rw [List.length_set, hlen]
    · exact hlen

/-- **The end of `push`** writes inside the array. -/
theorem append_spec (t : T) :
    Triple (fun s => Inv sizeofT s ∧ ∃ o, s.vecs.read v = some o ∧ o.used < o.size) (append v t)
      (fun _ => Inv sizeofT) fun _ => Inv sizeofT := by
  refine Triple.of_forall fun s₀ ⟨h, o, hv, hlt⟩ => members_bind hv ?_
  have hassign : Triple (fun s => Inv sizeofT s ∧ s.vecs.read v = some o) (assign o.arr o.used t)
      (fun _ s => Inv sizeofT s ∧ s.vecs.read v = some o)
      fun _ s => Inv sizeofT s ∧ s.vecs.read v = some o := by
    refine assign_spec t (fun s hs => ⟨⟨hs.1.sound, hs.1.size_le, hs.1.separate⟩, hs.2⟩)
      fun s hs w => ?_
    rcases (hs.1.sound v o hs.2).array with ⟨-, hzero⟩ | ⟨p, l, hp, hl, hlen⟩
    · omega
    · rw [hp]
      exact ⟨_, store_eq hl (hlen ▸ hlt) w, hs.1.mapAt p o.used w, hs.2⟩
  refine Triple.bind (hassign.conseq (fun s hs => hs ▸ ⟨h, hv⟩) (fun _ _ => id)
    fun _ s hs => hs.1) fun _ => Triple.update fun s hs => ?_
  refine ⟨_, setMembers_eq hs.2 _, ?_⟩
  exact hs.1.set hs.2 ⟨hlt, (hs.1.sound v o hs.2).array⟩ (hs.1.size_le v o hs.2)
    (hs.1.unshared (o := o) hs.2) fun _ _ _ _ _ _ _ => id

/-- **`push`** keeps the invariant, whether or not it throws. -/
theorem push_spec [Inhabited T] {s₀ : World T} (h : Inv sizeofT s₀)
    (hv : s₀.vecs.read v = some o) (t : T) :
    Triple (· = s₀) (push sizeofT v t) (fun _ => Inv sizeofT) fun _ => Inv sizeofT := by
  have hle := (h.sound v o hv).used_le
  refine members_bind hv (Triple.bind (Q := fun _ s => s = s₀)
    (Triple.assert (fun _ _ => hle) fun s hs => hs) fun _ => ?_)
  split_ifs with hfull
  · exact Triple.bind (grow_spec h hv) fun _ => append_spec t
  · exact (append_spec t).conseq
      (fun s hs => hs ▸ ⟨h, o, hv, Nat.lt_of_le_of_ne hle hfull⟩) (fun _ _ => id) fun _ _ => id

/-- A new vector with a new array. -/
theorem Inv.create_fresh {s₀ : World T} {p n used : ℕ} (h : Inv sizeofT s₀)
    (hf : Fresh s₀ p n s) (hmax : n ≤ maxElements sizeofT) (hused : used ≤ n) :
    Inv sizeofT { s with vecs := (s.vecs.alloc ⟨some p, n, used⟩).2 } := by
  obtain ⟨l, hl, hlen⟩ := hf.array
  refine (h.keep hf.keeps).create ⟨hused, Or.inr ⟨p, l, rfl, hl, hlen⟩⟩ hmax
    fun w o' q hw hq => ?_
  rw [← Option.some.inj hq]
  exact h.unshared_fresh hf w o' hw

/-- **Construction with a size.** -/
theorem construct_spec [Inhabited T] {s₀ : World T} (h : Inv sizeofT s₀) (sz : ℕ) :
    Triple (· = s₀) (construct sizeofT sz) (fun _ => Inv sizeofT) fun _ => Inv sizeofT := by
  refine Triple.bind ((newArray_spec sizeofT sz s₀).error fun _ s hs => h.keep hs)
    fun p s hs => ⟨_, rfl, ?_⟩
  exact h.create_fresh hs.1 hs.2 (Nat.zero_le sz)

/-- **Copying a full vector.** -/
theorem copyConstruct_spec [Inhabited T] {s₀ : World T} (h : Inv sizeofT s₀)
    (hv : s₀.vecs.read v = some o) (hfull : o.used = o.size) :
    Triple (· = s₀) (copyConstruct sizeofT v) (fun _ => Inv sizeofT) fun _ => Inv sizeofT := by
  have hsrc : Readable o.arr o.used s₀ := hfull ▸ (h.sound v o hv).readable
  refine members_bind hv (Triple.bind ((safeCopy_spec sizeofT hsrc (Nat.le_refl _)).error
    fun _ s hs => h.keep hs) fun p s hs => ⟨_, rfl, ?_⟩)
  rw [← hfull]
  exact h.create_fresh hs.1 hs.2 (Nat.le_refl _)

/-- **Move construction.** -/
theorem moveConstruct_spec {s₀ : World T} (h : Inv sizeofT s₀) (hv : s₀.vecs.read v = some o) :
    Triple (· = s₀) (moveConstruct v) (fun _ => Inv sizeofT) fun _ => Inv sizeofT := by
  refine members_bind hv (Triple.bind (Q := fun _ s =>
    s = { s₀ with vecs := s₀.vecs.mapAt v fun _ => ⟨none, 0, 0⟩ })
    (Triple.update fun s hs => ?_) fun _ s hs => ⟨_, rfl, ?_⟩)
  · subst hs
    exact ⟨_, setMembers_eq hv _, rfl⟩
  · subst hs
    have hset : Inv sizeofT { s₀ with
        arrays := s₀.arrays
        vecs := s₀.vecs.mapAt v fun _ => ⟨none, 0, 0⟩ } :=
      h.set hv ⟨(Nat.le_refl _), Or.inl ⟨rfl, rfl⟩⟩ (Nat.zero_le _) (fun _ _ _ _ hp => nomatch hp)
        fun _ _ _ _ _ _ _ => id
    refine hset.create (h.sound v o hv) (h.size_le v o hv) fun w o' p hw hp ho' => ?_
    change (s₀.vecs.mapAt v fun _ => _).read w = some o' at hw
    rw [Heap.read_mapAt_const hv] at hw
    split_ifs at hw with hwv
    · cases hw
      cases ho'
    · exact hwv (h.separate w v o' o p hw hv ho' hp)

/-- **Destruction.** -/
theorem destruct_spec {s₀ : World T} (h : Inv sizeofT s₀) (hv : s₀.vecs.read v = some o) :
    ∃ s, destruct v s₀ = some s ∧ Inv sizeofT s := by
  obtain ⟨arrays, hdelete, hkeep⟩ := h.delete hv
  have hfree : s₀.vecs.free v = some (s₀.vecs.erase v) := Heap.free_of_isSome (by rw [hv]; rfl)
  have hread : ∀ w a, (s₀.vecs.erase v).read w = some a → w ≠ v ∧ s₀.vecs.read w = some a := by
    intro w a hw
    rw [Heap.read_erase] at hw
    split_ifs at hw with hwv
    exact ⟨hwv, hw⟩
  refine ⟨{ s₀ with arrays := arrays, vecs := s₀.vecs.erase v }, ?_, fun w a hw => ?_,
    fun w a hw => h.size_le w a (hread w a hw).2, fun w x a b p hw hx => ?_⟩
  · unfold destruct
    rw [hv, Option.bind_eq_bind, Option.bind_some, hdelete, Option.bind_eq_bind, Option.bind_some]
    show (s₀.vecs.free v).map _ = _
    rw [hfree, Option.map_some]
  · obtain ⟨hwv, hw⟩ := hread w a hw
    exact (h.sound w a hw).mono fun p l hp => hkeep p l (h.others hv hwv hw hp)
  · exact h.separate w x a b p (hread w a hw).2 (hread x b hx).2

/-- **`top`** reads inside the array. -/
theorem top_spec {s₀ : World T} (h : Inv sizeofT s₀) (hv : s₀.vecs.read v = some o) :
    Triple (· = s₀) (top v) (fun _ => Inv sizeofT) fun _ => Inv sizeofT := by
  have hsound := h.sound v o hv
  refine members_bind hv ?_
  split_ifs with hempty
  · exact Triple.raise fun s hs => hs ▸ h
  · have hlt : o.used - 1 < o.size := by
      have := hsound.used_le
      omega
    obtain ⟨t, ht⟩ := hsound.readable (o.used - 1) hlt
    refine Triple.bind (Q := fun _ => Inv sizeofT) (Triple.ask fun s hs => ⟨t, hs ▸ ht, hs ▸ h⟩)
      fun t => Triple.bind (fate_spec fun s hs => ⟨hs.sound, hs.size_le, hs.separate⟩) fun r => ?_
    cases r with
    | some left => exact Triple.raise fun s hs => hs
    | none => exact Triple.pure fun s hs => hs

/-- **`pop`** -/
theorem pop_spec {s₀ : World T} (h : Inv sizeofT s₀) (hv : s₀.vecs.read v = some o) :
    Triple (· = s₀) (pop v) (fun _ => Inv sizeofT) fun _ => Inv sizeofT := by
  refine members_bind hv ?_
  split_ifs with hempty
  · exact Triple.raise fun s hs => hs ▸ h
  · refine Triple.update fun s hs => ?_
    subst hs
    refine ⟨_, setMembers_eq hv _, ?_⟩
    exact h.set hv ⟨Nat.le_trans (Nat.sub_le _ _) (h.sound v o hv).used_le, (h.sound v o hv).array⟩
      (h.size_le v o hv) (h.unshared (o := o) hv) fun _ _ _ _ _ _ _ => id

end Operations

/-! ## Programs -/

/-- Only full vectors are copied. -/
def Op.CopiesFull (op : Op T) (s : World T) : Prop :=
  ∀ rhs o, op = .copy rhs → s.vecs.read rhs = some o → o.used = o.size

/-- **Every operation keeps the invariant**, whether or not it throws, and
has a result. -/
theorem step_spec [Inhabited T] {s : World T} {op : Op T} (h : Inv sizeofT s)
    (hlegal : op.Legal s) (hfull : op.CopiesFull s) :
    Triple (· = s) (step sizeofT op) (fun _ => Inv sizeofT) fun _ => Inv sizeofT := by
  have hlive : ∀ v, op.subject = some v → ∃ o, s.vecs.read v = some o := fun v hv =>
    Option.isSome_iff_exists.mp (hlegal v hv)
  cases op with
  | construct sz => exact Triple.bind (construct_spec h sz) fun _ => Triple.pure fun _ => id
  | copy rhs =>
    obtain ⟨o, ho⟩ := hlive rhs rfl
    exact Triple.bind (copyConstruct_spec h ho (hfull rhs o rfl ho)) fun _ =>
      Triple.pure fun _ => id
  | move rhs =>
    obtain ⟨o, ho⟩ := hlive rhs rfl
    exact Triple.bind (moveConstruct_spec h ho) fun _ => Triple.pure fun _ => id
  | top v =>
    obtain ⟨o, ho⟩ := hlive v rfl
    exact Triple.bind (top_spec h ho) fun _ => Triple.pure fun _ => id
  | pop v =>
    obtain ⟨o, ho⟩ := hlive v rfl
    exact pop_spec h ho
  | push v t =>
    obtain ⟨o, ho⟩ := hlive v rfl
    exact push_spec h ho t
  | destruct v =>
    obtain ⟨o, ho⟩ := hlive v rfl
    exact Triple.update fun s hs => hs ▸ destruct_spec h ho

/-- The invariant holds in every state reached. -/
theorem Reachable.inv [Inhabited T] {s : World T}
    (h : Reachable sizeofT Op.CopiesFull s) : Inv sizeofT s := by
  induction h with
  | start plan => exact inv_start sizeofT plan
  | @step op s s' r _ hlegal hfull hstep ih =>
    have hend := (step_spec ih hlegal hfull).ends rfl hstep
    cases r with
    | ok a => exact hend
    | error e => exact hend

/-- **The representation of myvec-2**: in every state that is reached by
copying full vectors only, the array of every living vector has `size_`
elements and `used_` is no more than that; and whatever is done next, no
element outside an array is read or written. -/
theorem reachable_representation [Inhabited T] {s : World T}
    (h : Reachable sizeofT Op.CopiesFull s) :
    s.Sound ∧ ∀ op : Op T, op.Legal s → op.CopiesFull s → (MyVec2.step sizeofT op s).isSome := by
  refine ⟨h.inv.sound, fun op hlegal hfull => ?_⟩
  obtain ⟨r, hr, -⟩ := step_spec h.inv hlegal hfull s rfl
  rw [hr]
  rfl

/-- A vector of capacity one gets an element and is copied. -/
theorem reachable_representation_copy : ∃ s : World ℕ,
    s.vecs.read 1 = some ⟨some 1, 1, 1⟩ ∧ s.arrays.read 1 = some [5] ∧ s.Sound := by
  -- the state after each step is given, so that checking the step is all that is left
  have h₁ := @Reachable.step ℕ _ 4 Op.CopiesFull (.construct 1) _
    ⟨(Heap.empty.alloc [0]).2, (Heap.empty.alloc ⟨some 0, 1, 0⟩).2, fun _ => none, 1⟩ _
    (.start fun _ => none) nofun nofun rfl
  have h₂ := @Reachable.step ℕ _ 4 Op.CopiesFull (.push 0 5) _
    ⟨(Heap.empty.alloc [0]).2.mapAt 0 fun l => l.set 0 5,
      (Heap.empty.alloc ⟨some 0, 1, 0⟩).2.mapAt 0 fun _ => ⟨some 0, 1, 1⟩, fun _ => none, 2⟩ _ h₁
    (fun v hv => by cases hv; rfl) nofun rfl
  have h₃ := @Reachable.step ℕ _ 4 Op.CopiesFull (.copy 0) _
    ⟨(((Heap.empty.alloc [0]).2.mapAt 0 fun l => l.set 0 5).alloc [0]).2.mapAt 1 fun l => l.set 0 5,
      (((Heap.empty.alloc ⟨some 0, 1, 0⟩).2.mapAt 0 fun _ => ⟨some 0, 1, 1⟩).alloc
        ⟨some 1, 1, 1⟩).2, fun _ => none, 4⟩ _ h₂
    (fun v hv => by cases hv; rfl) (fun rhs o hrhs ho => by cases hrhs; cases ho; rfl) rfl
  exact ⟨_, rfl, rfl, (reachable_representation h₃).1⟩

/-- **Copying a vector that is not full** records a capacity its array does
not have. -/
theorem not_reachable_sound : ¬ ∀ s : World ℕ, Reachable 4 (fun _ _ => True) s → s.Sound := by
  intro h
  have h₁ := @Reachable.step ℕ _ 4 (fun _ _ => True) (.construct 1) _ _ _ (.start fun _ => none)
    nofun trivial rfl
  have h₂ := @Reachable.step ℕ _ 4 (fun _ _ => True) (.copy 0) _ _ _ h₁
    (fun v hv => by cases hv; rfl) trivial rfl
  rcases (h _ h₂ 1 ⟨some 1, 1, 0⟩ rfl).array with ⟨hnone, -⟩ | ⟨p, l, hp, hl, hlen⟩
  · cases hnone
  · cases hp
    cases hl
    cases hlen

end MyVec2
