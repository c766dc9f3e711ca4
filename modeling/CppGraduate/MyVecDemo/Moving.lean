import CppGraduate.MyVecDemo.MyVec4
import CppGraduate.MyVecDemo.Strong

/-!
# The strong guarantee of myvec-4

A full vector gives its elements away one by one, so from the first move on
it does not hold its list any more. Nothing can throw from there: the memory
has been allocated before, the vector the elements go to has room for all of
them, and moves do not throw. What is left in the old buffer, elements moved
from, is destroyed with it.

So the triples of the moving functions have no second postcondition, and
`pushMove` throws at its request for memory or not at all.
-/

namespace MyVec4

open Prog
open MyVec3 (Addr MyVectorBuf Exc Contents Meaning ne_of_none given length_given getElem_given
  given_succ given_zero)

variable {T α : Type} {sizeofT : ℕ} {moved : T → T} {A A' : Meaning T} {O O' : Addr → Option T}
  {v u : Addr} {c : Contents T}

/-! ## Vectors and other objects -/

/-- What holds of the vectors, the objects outside of buffers being `O`. -/
def With (O : Addr → Option T) (P : MyVec3.World T → Prop) (s : World T) : Prop :=
  P s.toWorld ∧ s.objects.read = O

/-- The vectors stand for `A`, the other objects are `O`. -/
abbrev Represents (sizeofT : ℕ) (A : Meaning T) (O : Addr → Option T) : World T → Prop :=
  With O (MyVec3.Represents sizeofT A)

/-- **What is done to vectors as in myvec-3** leaves other objects alone. -/
theorem shared_spec {P : MyVec3.World T → Prop} {m : Prog (MyVec3.World T) Exc α}
    {Q : α → MyVec3.World T → Prop} {R : Exc → MyVec3.World T → Prop} (h : Triple P m Q R) :
    Triple (With O P) (shared m) (fun a => With O (Q a)) fun e => With O (R e) :=
  Triple.onPart fun _ ⟨hs, hO⟩ => h.conseq (fun _ hs' => hs' ▸ hs) (fun _ _ hs' => ⟨hs', hO⟩)
    fun _ _ hs' => ⟨hs', hO⟩

/-- A change that is defined. -/
theorem sharedUpdate_eq {f : MyVec3.World T → Option (MyVec3.World T)} {s : World T}
    {w : MyVec3.World T} (h : f s.toWorld = some w) :
    sharedUpdate f s = some { s with toWorld := w } := by
  unfold sharedUpdate
  rw [h, Option.map_some]

/-- It leaves other objects alone as well. -/
theorem sharedUpdate_spec {f : MyVec3.World T → Option (MyVec3.World T)}
    {P : MyVec3.World T → Prop} {s : World T} (h : ∃ w, f s.toWorld = some w ∧ P w)
    (hO : s.objects.read = O) : ∃ s', sharedUpdate f s = some s' ∧ With O P s' := by
  obtain ⟨w, hw, hP⟩ := h
  exact ⟨{ s with toWorld := w }, sharedUpdate_eq hw, hP, hO⟩

/-- **A program that begins with the members of a vector.** -/
theorem members_bind {β : Type} (hv : A v = some c) {f : MyVectorBuf → Prog (World T) Exc β}
    {Q : β → World T → Prop} {R : Exc → World T → Prop}
    (h : ∀ o, o.size = c.capacity → o.used = c.elems.length →
      Triple (fun s => Represents sizeofT A O s ∧ s.vecs.read v = some o) (f o) Q R) :
    Triple (Represents sizeofT A O) (shared (MyVec3.members v) >>= f) Q R := by
  refine Triple.of_forall fun s hs => ?_
  obtain ⟨o, ho, hholds⟩ := hs.1.holds hv
  refine Triple.bind (Q := fun a s' => a = o ∧ s' = s) (Triple.onPart fun t ht => ?_) fun a =>
    Triple.of_forall fun s' hs' => ?_
  · refine Triple.ask fun w hw => ⟨o, ?_, rfl, ?_⟩
    · rw [hw, ht, ho]
    · rw [hw, ht]
  · rw [hs'.1, hs'.2]
    exact (h o hholds.size hholds.used).conseq (fun _ hs'' => hs'' ▸ ⟨hs, ho⟩) (fun _ _ => id)
      fun _ _ => id

/-! ## Moves -/

/-- **A reference gives a value**: taking it from there does not throw, does
not touch the members of vectors, and leaves `A'` and `O'`. -/
def Gives (sizeofT : ℕ) (moved : T → T) (t : T) (rhs : Ref) (A' : Meaning T)
    (O' : Addr → Option T) (s : World T) : Prop :=
  ∃ s', take moved rhs s = some (.ok t, s') ∧ s'.vecs = s.vecs ∧ Represents sizeofT A' O' s'

/-- An object outside of buffers. -/
theorem gives_object {s : World T} {a : Addr} {t : T} (h : Represents sizeofT A O s)
    (ha : O a = some t) :
    Gives sizeofT moved t (.object a) A (Function.update O a (some (moved t))) s := by
  have hread : s.objects.read a = some t := (congrFun h.2 a).trans ha
  have hset : setObject a (moved t) s
      = some { s with objects := s.objects.mapAt a fun _ => moved t } := by
    unfold setObject
    rw [Heap.modify_of_isSome (by rw [hread]; rfl), Option.map_some]
  refine ⟨{ s with objects := s.objects.mapAt a fun _ => moved t }, ?_, rfl, h.1, ?_⟩
  · have hask : (ask fun s => s.objects.read a : Prog (World T) Exc T) s = some (.ok t, s) :=
      ask_of_some hread
    exact (bind_of_ok hask).trans ((bind_of_ok (update_of_some hset)).trans rfl)
  · funext b
    rw [Heap.read_mapAt_const hread, Function.update_apply]
    split_ifs with hb
    · rfl
    · exact congrFun h.2 b

/-- An element of a vector, which stays there. -/
theorem gives_element {s : World T} {o : MyVectorBuf} (h : Represents sizeofT A O s)
    (hv : A v = some c) (ho : s.vecs.read v = some o) {i : ℕ} (hi : i < c.elems.length) :
    Gives sizeofT moved c.elems[i] (.element o.arr i)
      (Function.update A v (some ⟨c.elems.set i (moved c.elems[i]), c.capacity⟩)) O s := by
  obtain ⟨b, st, harr, hst, hnew⟩ := h.1.assignElement hv ho hi (moved c.elems[i])
  have helem : MyVec3.element o.arr i s.toWorld = some c.elems[i] :=
    (h.1.element_eq hv ho i).trans (List.getElem?_eq_getElem hi)
  have hask : (ask fun s => MyVec3.element o.arr i s.toWorld : Prog (World T) Exc T) s
      = some (.ok c.elems[i], s) := ask_of_some helem
  have hset : sharedUpdate (fun s => o.arr.bind fun b =>
      MyVec3.inStorage (Storage.assign b i (moved c.elems[i])) s) s = some { s with storage := st } :=
    sharedUpdate_eq (MyVec3.inStorage_eq harr hst)
  refine ⟨{ s with storage := st }, ?_, rfl, hnew, h.2⟩
  exact (bind_of_ok hask).trans ((bind_of_ok (update_of_some hset)).trans rfl)

/-- **An element is moved into the next place.** -/
theorem emplace_spec {t : T} {rhs : Ref} (hroom : c.elems.length < c.capacity) (hA : A v = some c)
    (hv : A' v = some c) :
    Triple (fun s => Represents sizeofT A O s ∧ Gives sizeofT moved t rhs A' O' s)
      (emplace sizeofT moved v rhs)
      (fun _ => Represents sizeofT (Function.update A' v (some ⟨c.elems ++ [t], c.capacity⟩)) O')
      fun _ _ => False := by
  rintro s ⟨hs, s₁, htake, hvecs, hs₁⟩
  obtain ⟨o, ho, -⟩ := hs.1.holds hA
  have ho₁ : s₁.vecs.read v = some o := by rw [hvecs, ho]
  obtain ⟨b, st, harr, hst, hnew⟩ := hs₁.1.emplace hv ho₁ hroom t
  -- the object is constructed, and then counted
  have hconstruct : construct sizeofT moved o.arr o.used rhs s
      = some (.ok (), { s₁ with storage := st }) :=
    (bind_of_ok htake).trans (update_of_some (sharedUpdate_eq (MyVec3.inStorage_eq harr hst)))
  have hset : sharedUpdate (MyVec3.setMembers v { o with used := o.used + 1 })
      { s₁ with storage := st } = some { s₁ with
        storage := st, vecs := s₁.vecs.mapAt v fun _ => { o with used := o.used + 1 } } :=
    sharedUpdate_eq (MyVec3.setMembers_eq (s := { s₁.toWorld with storage := st }) ho₁ _)
  refine ⟨(.ok (), { s₁ with
    storage := st, vecs := s₁.vecs.mapAt v fun _ => { o with used := o.used + 1 } }), ?_, hnew,
    hs₁.2⟩
  exact (bind_of_ok (onPart_of_ok (ask_of_some ho))).trans
    ((bind_of_ok hconstruct).trans (update_of_some hset))

/-! ## push -/

/-- **`push(T &&)` on a vector with room** does not throw. -/
theorem pushMove_room (depth : ℕ) {t : T} {rhs : Ref} (hroom : c.elems.length < c.capacity)
    (hA : A v = some c) (hv : A' v = some c) :
    Triple (fun s => Represents sizeofT A O s ∧ Gives sizeofT moved t rhs A' O' s)
      (pushMove sizeofT moved (depth + 1) v rhs)
      (fun _ => Represents sizeofT (Function.update A' v (some ⟨c.elems ++ [t], c.capacity⟩)) O')
      fun _ _ => False := by
  refine Triple.of_forall fun s hs => ?_
  obtain ⟨o, ho, hholds⟩ := hs.1.1.holds hA
  have hlt : o.used < o.size := by
    rw [hholds.size, hholds.used]
    exact hroom
  refine Triple.bind (Q := fun a s' => a = o ∧ s' = s) ?_ fun a => Triple.of_forall ?_
  · rintro s' rfl
    exact ⟨_, onPart_of_ok (ask_of_some ho), rfl, rfl⟩
  · rintro s' ⟨rfl, rfl⟩
    refine Triple.bind (Q := fun _ s'' => s'' = s')
      (Triple.assert (fun _ _ => Nat.le_of_lt hlt) fun _ h => h) fun _ => ?_
    rw [if_neg (Nat.ne_of_lt hlt)]
    exact (emplace_spec hroom hA hv).pre fun s'' hs'' => hs'' ▸ hs

/-- **The loop that gives a vector's elements away** to one with room for
them does not throw. -/
theorem fillFrom_spec (depth cap : ℕ) (c : Contents T) (hvu : v ≠ u)
    (hcap : c.elems.length ≤ cap) (passes k : ℕ) (hk : k + passes = c.elems.length) :
    Triple (Represents sizeofT (Function.update
        (Function.update A v (some ⟨given moved c.elems k, c.capacity⟩)) u
        (some ⟨c.elems.take k, cap⟩)) O)
      (fillFrom (pushMove sizeofT moved (depth + 1) u) u v passes)
      (fun _ => Represents sizeofT (Function.update
        (Function.update A v (some ⟨given moved c.elems c.elems.length, c.capacity⟩)) u
        (some ⟨c.elems, cap⟩)) O)
      fun _ _ => False := by
  have hu' : ∀ x y : Contents T, Function.update (Function.update A v (some x)) u (some y) u = some y :=
    fun _ _ => Function.update_self ..
  have hv' : ∀ x y : Contents T, Function.update (Function.update A v (some x)) u (some y) v = some x :=
    fun _ _ => by rw [Function.update_of_ne hvu, Function.update_self]
  have hlen : (c.elems.take k).length = k := by
    rw [List.length_take]
    omega
  induction passes generalizing k with
  | zero =>
    obtain rfl : k = c.elems.length := hk
    refine members_bind (hu' _ _) fun o _ hused => ?_
    refine (members_bind (hv' _ _) fun r _ hused' => Triple.assert (fun _ _ => ?_)
      fun s hs => ?_).pre fun _ hs => hs.1
    · rw [hused, hused', hlen, length_given]
      omega
    · rw [List.take_length] at hs
      exact hs.1
  | succ passes ih =>
    have hlt : k < c.elems.length := by omega
    refine members_bind (hu' _ _) fun o _ hused => ?_
    refine (members_bind (hv' _ _) fun r _ hused' => ?_).pre fun _ hs => hs.1
    rw [hlen] at hused
    rw [length_given] at hused'
    rw [if_pos (by rw [hused, hused']; exact hlt), hused]
    have hltg : k < (given moved c.elems k).length := by rw [length_given]; exact hlt
    have hstep := @pushMove_room T sizeofT moved
      (Function.update (Function.update A v (some ⟨given moved c.elems k, c.capacity⟩)) u
        (some ⟨c.elems.take k, cap⟩))
      (Function.update (Function.update A v (some ⟨given moved c.elems (k + 1), c.capacity⟩)) u
        (some ⟨c.elems.take k, cap⟩)) O O u ⟨c.elems.take k, cap⟩ depth c.elems[k]
      (.element r.arr k) (show (c.elems.take k).length < cap by omega) (hu' _ _) (hu' _ _)
    rw [Function.update_idem, List.take_append_getElem] at hstep
    refine Triple.bind (hstep.pre fun s hs => ⟨hs.1, ?_⟩) fun _ =>
      ih (k + 1) (by omega) (by rw [List.length_take]; omega)
    -- the element taken is the next of the list, and the old vector keeps what is left of it
    have hgives := @gives_element T sizeofT moved _ O v _ s r hs.1 (hv' _ _) hs.2 k hltg
    rw [getElem_given hlt, given_succ moved hlt, Function.update_comm hvu.symm, Function.update_idem]
      at hgives
    exact hgives

/-- The request for memory of `push(T &&)` on a full vector. -/
theorem pushMove_begin {depth : ℕ} {rhs : Ref} {Q : Unit → World T → Prop}
    {R : Exc → World T → Prop} {P : World T → Prop} (hP : ∀ s, P s → Represents sizeofT A O s)
    (hv : A v = some c) (hfull : c.elems.length = c.capacity)
    (h : Triple P (do
      let tmp ← shared (MyVec3.bufConstruct sizeofT ((c.capacity * 2 + 1) % 2 ^ 64))
      leaving (do
        fillFrom (pushMove sizeofT moved depth tmp) tmp v c.elems.length
        pushMove sizeofT moved depth tmp rhs
        update (sharedUpdate (MyVec3.swap v tmp))) (sharedUpdate (MyVec3.bufDestruct tmp))) Q R) :
    Triple P (pushMove sizeofT moved (depth + 1) v rhs) Q R := by
  refine Triple.of_forall fun s hs => ?_
  obtain ⟨o, ho, hholds⟩ := (hP s hs).1.holds hv
  have hsame : o.used = o.size := by rw [hholds.used, hholds.size, hfull]
  refine Triple.bind (Q := fun a s' => a = o ∧ s' = s) ?_ fun a => Triple.of_forall ?_
  · rintro s' rfl
    exact ⟨_, onPart_of_ok (ask_of_some ho), rfl, rfl⟩
  · rintro s' ⟨rfl, rfl⟩
    refine Triple.bind (Q := fun _ s'' => s'' = s')
      (Triple.assert (fun _ _ => Nat.le_of_eq hsame) fun _ h => h) fun _ => ?_
    rw [if_pos hsame, hholds.size, hholds.used]
    exact h.pre fun s'' hs'' => hs'' ▸ hs

/-- **`push(T &&)` on a full vector**: a vector of more than twice its
capacity takes its place, or nothing happens, to the argument neither. -/
theorem pushMove_full (depth : ℕ) (hsizeof : 0 < sizeofT) {a : Addr} {t : T} (hv : A v = some c)
    (ha : O a = some t) (hfull : c.elems.length = c.capacity)
    (hfits : sizeofT * (c.capacity * 2 + 1) < 2 ^ 64) :
    Triple (Represents sizeofT A O) (pushMove sizeofT moved (depth + 2) v (.object a))
      (fun _ => Represents sizeofT
        (Function.update A v (some ⟨c.elems ++ [t], c.capacity * 2 + 1⟩))
        (Function.update O a (some (moved t))))
      fun _ => Represents sizeofT A O := by
  refine pushMove_begin (fun _ => id) hv hfull ?_
  have hmod : (c.capacity * 2 + 1) % 2 ^ 64 = c.capacity * 2 + 1 :=
    Nat.mod_eq_of_lt (Nat.lt_of_le_of_lt (Nat.le_mul_of_pos_left _ hsizeof) hfits)
  rw [hmod]
  refine Triple.bind (shared_spec (MyVec3.bufConstruct_spec hfits)) fun u =>
    Triple.of_forall fun s ⟨⟨hu, hs⟩, hO⟩ => ?_
  have hvu := ne_of_none hv hu
  -- before the loop no element has been given away
  have hnone : Function.update A v (some ⟨given moved c.elems 0, c.capacity⟩) = A := by
    rw [given_zero, ← hv, Function.update_eq_self]
  have hfill := @fillFrom_spec T sizeofT moved A O v u depth (c.capacity * 2 + 1) c hvu (by omega)
    c.elems.length 0 (Nat.zero_add _)
  rw [hnone] at hfill
  set A₁ := Function.update A v (some ⟨given moved c.elems c.elems.length, c.capacity⟩) with hA₁
  have hlast := @pushMove_room T sizeofT moved
    (Function.update A₁ u (some ⟨c.elems, c.capacity * 2 + 1⟩))
    (Function.update A₁ u (some ⟨c.elems, c.capacity * 2 + 1⟩)) O
    (Function.update O a (some (moved t))) u ⟨c.elems, c.capacity * 2 + 1⟩ depth t (.object a)
    (show c.elems.length < c.capacity * 2 + 1 by omega) (Function.update_self ..)
    (Function.update_self ..)
  rw [Function.update_idem] at hlast
  have hu₁ : A₁ u = none := by rw [hA₁, Function.update_of_ne hvu.symm, hu]
  have hv₁ : A₁ v = some ⟨given moved c.elems c.elems.length, c.capacity⟩ :=
    Function.update_self ..
  have hbody : Triple (· = s) (do
      fillFrom (pushMove sizeofT moved (depth + 1) u) u v c.elems.length
      pushMove sizeofT moved (depth + 1) u (.object a)
      update (sharedUpdate (MyVec3.swap v u)))
      (fun _ => Represents sizeofT
        (Function.update A₁ u (some ⟨c.elems ++ [t], c.capacity * 2 + 1⟩) ∘ Equiv.swap v u)
        (Function.update O a (some (moved t))))
      fun _ _ => False := by
    refine Triple.bind (hfill.pre fun s' hs' => hs' ▸ ⟨hs, hO⟩) fun _ =>
      Triple.bind (hlast.pre fun s' hs' => ⟨hs', gives_object hs' ha⟩) fun _ =>
        Triple.update fun s' hs' => sharedUpdate_spec (MyVec3.swap_spec hs'.1 ?_ ?_) hs'.2
    · rw [Function.update_of_ne hvu, hv₁]
      rfl
    · rw [Function.update_self]
      rfl
  refine hbody.leaving (fun _ s' hs' => sharedUpdate_spec ?_ hs'.2) fun _ _ h => h.elim
  have hend := MyVec3.bufDestruct_swap hs'.1 hv₁ hu₁
  rwa [hA₁, Function.update_idem] at hend

/-- `push(T &&)` on a full vector that is refused memory. -/
theorem pushMove_refused (depth : ℕ) {rhs : Ref} (hv : A v = some c)
    (hfull : c.elems.length = c.capacity) {Q : Unit → World T → Prop} :
    Triple (fun s => Represents sizeofT A O s ∧ s.plan s.calls = true)
      (pushMove sizeofT moved (depth + 1) v rhs) Q fun _ => Represents sizeofT A O := by
  refine pushMove_begin (fun _ => And.left) hv hfull ?_
  have hrefused : Triple (fun s : World T => Represents sizeofT A O s ∧ s.plan s.calls = true)
      (shared (MyVec3.bufConstruct sizeofT ((c.capacity * 2 + 1) % 2 ^ 64)))
      (fun _ => With O fun _ => False) fun _ => Represents sizeofT A O :=
    (shared_spec (MyVec3.bufConstruct_refused (by omega))).pre fun s hs => ⟨⟨hs.1.1, hs.2⟩, hs.1.2⟩
  exact Triple.bind hrefused fun _ s hs => hs.1.elim

/-- What a vector stands for when an element was added. -/
def Contents.push (c : Contents T) (t : T) : Contents T :=
  ⟨c.elems ++ [t], if c.elems.length = c.capacity then c.capacity * 2 + 1 else c.capacity⟩

/-- **`push(T &&)`**: the value of an object is added to the list and the
object moved from, or nothing happens to either. -/
theorem pushMove_spec (depth : ℕ) (hsizeof : 0 < sizeofT) {s : World T} {a : Addr} {t : T}
    (h : Represents sizeofT A O s) (hv : A v = some c) (ha : O a = some t)
    (hfits : c.elems.length = c.capacity →
      sizeofT * (c.capacity * 2 + 1) < 2 ^ 64 ∨ s.plan s.calls = true) :
    Triple (· = s) (pushMove sizeofT moved (depth + 2) v (.object a))
      (fun _ => Represents sizeofT (Function.update A v (some (Contents.push c t)))
        (Function.update O a (some (moved t))))
      fun _ => Represents sizeofT A O := by
  unfold Contents.push
  by_cases hfull : c.elems.length = c.capacity
  · rw [if_pos hfull]
    rcases hfits hfull with hlt | hplan
    · exact (pushMove_full depth hsizeof hv ha hfull hlt).pre fun _ hs => hs ▸ h
    · exact (pushMove_refused _ hv hfull).pre fun _ hs => hs ▸ ⟨h, hplan⟩
  · rw [if_neg hfull]
    obtain ⟨o, -, hholds⟩ := h.1.holds hv
    have hroom := Nat.lt_of_le_of_ne hholds.room hfull
    have hgives : Gives sizeofT moved t (.object a) A (Function.update O a (some (moved t))) s :=
      gives_object h ha
    exact (pushMove_room (A := A) (O := O) (depth + 1) hroom hv hv).conseq
      (fun _ hs => hs ▸ ⟨h, hgives⟩)
      (fun _ _ => id) fun _ _ h => h.elim

/-- A new object. -/
theorem newObject_spec {s : World T} (h : Represents sizeofT A O s) (t : T) :
    O s.objects.bound = none ∧ ∃ s', newObject t s = some (.ok s.objects.bound, s')
      ∧ s'.toWorld = s.toWorld ∧ s'.objects.read = Function.update O s.objects.bound (some t) := by
  refine ⟨(congrFun h.2 _).symm.trans (Heap.read_bound _), _, rfl, rfl, ?_⟩
  funext b
  show (s.objects.alloc t).2.read b = _
  rw [Heap.read_alloc, Function.update_apply, h.2]

/-- The end of an object. -/
theorem freeObject_spec {s : World T} {a : Addr} {x : T} (ha : O a = none)
    (h : Represents sizeofT A (Function.update O a (some x)) s) :
    ∃ s', freeObject a s = some s' ∧ Represents sizeofT A O s' := by
  have hread : s.objects.read a = some x := (congrFun h.2 a).trans (Function.update_self ..)
  refine ⟨{ s with objects := s.objects.erase a }, ?_, h.1, ?_⟩
  · unfold freeObject
    rw [Heap.free_of_isSome (by rw [hread]; rfl), Option.map_some]
  · funext b
    show (s.objects.erase a).read b = O b
    rw [Heap.read_erase, h.2]
    split_ifs with hb
    · rw [hb, ha]
    · exact Function.update_of_ne hb _ _

/-- **`push(const T &)`**: a copy is added to the list, or nothing happens.
The copy that was moved from does not outlive the call. -/
theorem push_spec (depth : ℕ) (hsizeof : 0 < sizeofT) {s : World T} {t : T}
    (h : Represents sizeofT A O s) (hv : A v = some c)
    (hfits : c.elems.length = c.capacity → sizeofT * (c.capacity * 2 + 1) < 2 ^ 64
      ∨ s.plan s.calls = true ∨ s.plan (s.calls + 1) = true) :
    Triple (· = s) (push sizeofT moved (depth + 2) v t)
      (fun _ => Represents sizeofT (Function.update A v (some (Contents.push c t))) O)
      fun _ => Represents sizeofT A O := by
  refine Triple.bind (Q := fun r s' => r = s.plan s.calls ∧ s' = { s with calls := s.calls + 1 })
    (fun s' hs' => ⟨_, rfl, by subst hs'; exact ⟨rfl, rfl⟩⟩) fun r => Triple.of_forall ?_
  rintro _ ⟨rfl, rfl⟩
  have hs₁ : Represents sizeofT A O { s with calls := s.calls + 1 } := ⟨h.1.call _, h.2⟩
  split_ifs with hthrow
  · exact Triple.raise fun s' hs' => hs' ▸ hs₁
  · obtain ⟨hnone, s₂, hnew, hworld, hobjects⟩ := newObject_spec hs₁ t
    have hs₂ : Represents sizeofT A (Function.update O s.objects.bound (some t)) s₂ :=
      ⟨hworld ▸ hs₁.1, hobjects⟩
    have hplan : s₂.plan s₂.calls = s.plan (s.calls + 1) := by rw [hworld]
    refine Triple.bind (Q := fun a s' => a = s.objects.bound ∧ s' = s₂)
      (fun s' hs' => ⟨(.ok s.objects.bound, s₂), hs' ▸ hnew, rfl, rfl⟩) fun a =>
        Triple.of_forall ?_
    rintro s₂ ⟨rfl, rfl⟩
    have hpush := @pushMove_spec T sizeofT moved _ _ v c depth hsizeof s₂ _ t hs₂ hv
      (Function.update_self ..)
      fun hfull => (hfits hfull).imp_right fun hor => hplan ▸ hor.resolve_left hthrow
    rw [Function.update_idem] at hpush
    exact hpush.leaving (fun _ s' hs' => freeObject_spec hnone hs')
      fun _ s' hs' => freeObject_spec hnone hs'

/-! ## Programs -/

/-- **What an operation does to lists and objects.** -/
inductive Effect (moved : T → T) (A : Meaning T) (O : Addr → Option T) :
    Op T → Reply T → Meaning T → (Addr → Option T) → Prop
  | plain {op : MyVec3.Op T} {r : MyVec3.Reply T} {A' : Meaning T} (h : MyVec3.Effect A op r A') :
    Effect moved A O (.plain op) (.plain r) A' O
  | pushMove {v a : Addr} {c : Contents T} {t : T} (hc : A v = some c) (ht : O a = some t) :
    Effect moved A O (.pushMove v a) (.plain .none)
      (Function.update A v (some (Contents.push c t))) (Function.update O a (some (moved t)))
  | object {t : T} {a : Addr} (ha : O a = none) :
    Effect moved A O (.object t) (.object a) A (Function.update O a (some t))

/-- **The sizes an operation asks memory for are values of `size_t`**, or
memory is refused. `push(const T &)` copies its argument before. -/
def Op.Fits (sizeofT : ℕ) : Op T → World T → Prop
  | .plain (.push v _), s => ∀ o, s.vecs.read v = some o → o.used = o.size →
    sizeofT * (o.size * 2 + 1) < 2 ^ 64 ∨ s.plan s.calls = true ∨ s.plan (s.calls + 1) = true
  | .plain op, s => op.Fits sizeofT s.toWorld
  | .pushMove v _, s => ∀ o, s.vecs.read v = some o → o.used = o.size →
    sizeofT * (o.size * 2 + 1) < 2 ^ 64 ∨ s.plan s.calls = true
  | .object _, _ => True

/-- An operation that is as in myvec-3. -/
theorem shared_step_spec {depth : ℕ} (hsizeof : 0 < sizeofT) (hdepth : 2 ≤ depth) {s : World T}
    {op : MyVec3.Op T} (h : Represents sizeofT A O s) (hlegal : op.Legal s.toWorld)
    (hfits : op.Fits sizeofT s.toWorld) :
    Triple (· = s) (do
        let r ← shared (MyVec3.step sizeofT depth op)
        return Reply.plain r)
      (fun r s' => ∃ A' O', Effect moved A O (.plain op) r A' O' ∧ Represents sizeofT A' O' s')
      fun _ => Represents sizeofT A O := by
  have hstep := shared_spec (O := O) (MyVec3.step_spec hsizeof hdepth h.1 hlegal hfits)
  refine Triple.bind (hstep.pre fun s' hs' => ⟨hs' ▸ rfl, hs' ▸ h.2⟩) fun r => Triple.pure ?_
  rintro s' ⟨⟨A', heffect, hA'⟩, hO⟩
  exact ⟨A', O, .plain heffect, hA', hO⟩

/-- **Every operation does what it does to lists and objects or nothing.** -/
theorem step_spec {depth : ℕ} (hsizeof : 0 < sizeofT) (hdepth : 2 ≤ depth) {s : World T} {op : Op T}
    (h : Represents sizeofT A O s) (hlegal : op.Legal s) (hfits : op.Fits sizeofT s) :
    Triple (· = s) (step sizeofT moved depth op)
      (fun r s' => ∃ A' O', Effect moved A O op r A' O' ∧ Represents sizeofT A' O' s')
      fun _ => Represents sizeofT A O := by
  cases op with
  | plain op =>
    cases op with
    | push v t =>
      obtain ⟨depth, rfl⟩ := Nat.exists_eq_add_of_le' hdepth
      obtain ⟨c, hc⟩ := h.1.meaning (hlegal v (List.mem_singleton_self _))
      obtain ⟨o, ho, hholds⟩ := h.1.holds hc
      refine Triple.bind (push_spec depth hsizeof h hc fun hfull => ?_) fun _ =>
        Triple.pure fun s' hs' => ⟨_, O, .plain (.push hc), hs'⟩
      exact hholds.size ▸ hfits o ho (by rw [hholds.used, hholds.size, hfull])
    | construct sz => exact shared_step_spec hsizeof hdepth h hlegal hfits
    | copy rhs => exact shared_step_spec hsizeof hdepth h hlegal hfits
    | move rhs => exact shared_step_spec hsizeof hdepth h hlegal hfits
    | copyAssign v rhs => exact shared_step_spec hsizeof hdepth h hlegal hfits
    | moveAssign v rhs => exact shared_step_spec hsizeof hdepth h hlegal hfits
    | pop v => exact shared_step_spec hsizeof hdepth h hlegal hfits
    | top v => exact shared_step_spec hsizeof hdepth h hlegal hfits
    | destruct v => exact shared_step_spec hsizeof hdepth h hlegal hfits
  | pushMove v a =>
    obtain ⟨depth, rfl⟩ := Nat.exists_eq_add_of_le' hdepth
    obtain ⟨c, hc⟩ := h.1.meaning hlegal.1
    obtain ⟨t, ht⟩ := Option.isSome_iff_exists.mp hlegal.2
    have ht : O a = some t := (congrFun h.2 a).symm.trans ht
    obtain ⟨o, ho, hholds⟩ := h.1.holds hc
    refine Triple.bind (pushMove_spec depth hsizeof h hc ht fun hfull => ?_) fun _ =>
      Triple.pure fun s' hs' => ⟨_, _, .pushMove hc ht, hs'⟩
    exact hholds.size ▸ hfits o ho (by rw [hholds.used, hholds.size, hfull])
  | object t =>
    obtain ⟨hnone, s', hs', hworld, hobjects⟩ := newObject_spec h t
    refine Triple.bind (Q := fun a s'' => a = s.objects.bound ∧ s'' = s')
      (fun s'' hs'' => ⟨(.ok s.objects.bound, s'), hs'' ▸ hs', rfl, rfl⟩) fun a => Triple.pure ?_
    rintro _ ⟨rfl, rfl⟩
    exact ⟨A, _, .object hnone, hworld ▸ h.1, hobjects⟩

/-- The memory represents lists in every state reached. -/
theorem Reachable.represents {depth : ℕ} (hsizeof : 0 < sizeofT) (hdepth : 2 ≤ depth) {s : World T}
    (h : Reachable sizeofT moved depth (Op.Fits sizeofT) s) :
    Represents sizeofT s.toWorld.contents s.objects.read s := by
  have hex : ∃ A O, Represents sizeofT A O s := by
    induction h with
    | start plan => exact ⟨_, _, MyVec3.represents_start sizeofT plan, rfl⟩
    | @step op s s' r _ hlegal hfits hstep ih =>
      obtain ⟨A, O, hA⟩ := ih
      have hend := (step_spec hsizeof hdepth hA hlegal hfits).ends rfl hstep
      match r, hend with
      | .ok a, ⟨A', O', _, hA'⟩ => exact ⟨A', O', hA'⟩
      | .error e, hA' => exact ⟨A, O, hA'⟩
  obtain ⟨A, O, hA, rfl⟩ := hex
  exact ⟨hA.contents_eq ▸ hA, rfl⟩

/-- **The strong guarantee of myvec-4**: in every run whose requests for
memory fit `size_t`, whichever of the calls that may throw do, every further
such operation has a result; if it throws, the vectors have the contents they
had and no object outside of them was moved from, and otherwise contents and
objects are what the operation makes of them. When no vector is left, every
element that was constructed was destroyed exactly once. -/
theorem reachable_guarantee {depth : ℕ} (hsizeof : 0 < sizeofT) (hdepth : 2 ≤ depth) {s : World T}
    (h : Reachable sizeofT moved depth (Op.Fits sizeofT) s) :
    (∀ op : Op T, op.Legal s → op.Fits sizeofT s →
      ∃ r s', step sizeofT moved depth op s = some (r, s') ∧
        match r with
        | .ok reply => Effect moved s.toWorld.contents s.objects.read op reply
            s'.toWorld.contents s'.objects.read
        | .error _ =>
            s'.toWorld.contents = s.toWorld.contents ∧ s'.objects.read = s.objects.read)
    ∧ ((∀ v, s.vecs.read v = none) → s.storage.dead.Perm (List.range s.storage.born)) := by
  have hs := h.represents hsizeof hdepth
  refine ⟨fun op hlegal hfits => ?_, hs.1.perm_range⟩
  obtain ⟨⟨r, s'⟩, hstep, hend⟩ := step_spec hsizeof hdepth hs hlegal hfits s rfl
  refine ⟨r, s', hstep, ?_⟩
  match r, hend with
  | .ok a, ⟨A', O', heffect, hA', hO'⟩ => exact hA'.contents_eq ▸ hO' ▸ heffect
  | .error e, ⟨hA', hO'⟩ => exact ⟨hA'.contents_eq, hO'⟩

/-- An object is moved to a full vector and memory is refused: the object is
as it was. -/
theorem reachable_guarantee_full : ∃ (s s' : World ℕ) (e : Exc),
    s.toWorld.contents 0 = some ⟨[7], 1⟩ ∧ s.objects.read 1 = some 9
      ∧ step 8 (fun _ => 0) 2 (.pushMove 0 1) s = some (.error e, s')
      ∧ s'.toWorld.contents = s.toWorld.contents ∧ s'.objects.read = s.objects.read := by
  have h₁ := @Reachable.step ℕ 8 (fun _ => 0) 2 (Op.Fits 8) (.plain (.construct 1)) _ _ _
    (.start fun n => n = 2) nofun (Or.inl (by decide)) rfl
  have h₂ := @Reachable.step ℕ 8 (fun _ => 0) 2 (Op.Fits 8) (.plain (.push 0 7)) _ _ _ h₁
    (fun v hv => by cases hv with | head => rfl | tail _ h => nomatch h)
    (fun o ho hfull => by cases ho; cases hfull) rfl
  have h₃ := @Reachable.step ℕ 8 (fun _ => 0) 2 (Op.Fits 8) (.object 9) _ _ _ h₂ trivial trivial rfl
  obtain ⟨s, h₃, hread, hcontents, hobject, hthrows⟩ : ∃ s : World ℕ,
      Reachable 8 (fun _ => 0) 2 (Op.Fits 8) s
      ∧ s.vecs.read 0 = some ⟨some 0, 1, 1⟩ ∧ s.toWorld.contents 0 = some ⟨[7], 1⟩
      ∧ s.objects.read 1 = some 9
      ∧ (step 8 (fun _ => 0) 2 (.pushMove 0 1) s).map (fun p => p.1.isOk) = some false :=
    ⟨_, h₃, rfl, rfl, rfl, by decide +kernel⟩
  obtain ⟨r, s', hstep, hend⟩ := (reachable_guarantee (by decide) (Nat.le_refl 2) h₃).1 (.pushMove 0 1)
    ⟨by rw [hread]; rfl, by rw [hobject]; rfl⟩
    (fun o ho _ => by rw [hread] at ho; cases ho; exact Or.inl (by decide))
  rw [hstep] at hthrows
  match r, hstep, hend with
  | .ok _, _, _ => cases hthrows
  | .error e, hstep, hend => exact ⟨s, s', e, hcontents, hobject, hstep, hend⟩

/-- **A request that wraps around**, as in myvec-3: there is no place for the
element that is moved. -/
theorem not_reachable_result : ¬ ∀ s : World ℕ,
    Reachable 8 (fun _ => 0) 2 (fun _ _ => True) s →
      ∀ op : Op ℕ, op.Legal s → (MyVec4.step 8 (fun _ => 0) 2 op s).isSome := by
  intro h
  have h₁ := @Reachable.step ℕ 8 (fun _ => 0) 2 (fun _ _ => True) (.plain (.construct (2 ^ 61)))
    _ _ _ (.start fun _ => false) nofun trivial rfl
  have h₂ := h _ h₁ (.plain (.push 0 5))
    (fun v hv => by cases hv with | head => rfl | tail _ h => nomatch h)
  cases h₂

end MyVec4
