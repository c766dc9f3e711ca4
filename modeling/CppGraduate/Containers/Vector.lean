import CppGraduate.MyVecDemo.MyVec3

/-!
# `containers::Vector`

The vector of `wrongit.cc`: `VectorStorage` owns raw memory and the elements
in its first `size_` places, `Vector` builds on it what may throw. Memory is
requested for every storage, also for one of no elements; the size of a
request is a product of type `size_t`.

Raw storage, the memory the members are kept in and the plan of the calls
that throw are those of the vectors of myvec-3, whose destructor and whose
swaps of members are the same as here.

What is left of an argument of `push` is the caller's and not followed.
-/

namespace Containers

open Prog
open MyVec3 (Addr World MyVectorBuf)

/-- **The type of the elements**, as far as the vector makes a difference. -/
structure ElementType (T : Type) where
  /-- `sizeof(T)` -/
  sizeofT : ℕ
  sizeofT_pos : 0 < sizeofT
  /-- `std::is_nothrow_move_constructible<T>` -/
  nothrowMove : Bool
  /-- `std::is_copy_constructible<T>` -/
  copyable : Bool
  /-- T should be copy constructible or nothrow moveable. -/
  static_assert : nothrowMove = true ∨ copyable = true
  /-- What is left of an element that was moved from. -/
  moved : T → T
  /-- `T{}`, if there is a default constructor. -/
  default : Option T

/-- `VectorStorage` -/
structure VectorStorage where
  allocated_ : ℕ
  size_ : ℕ
  /-- `data_`, which may be null. -/
  data_ : Option Addr

namespace VectorStorage

/-- The members as they are kept in memory. -/
def rep (o : VectorStorage) : MyVectorBuf := ⟨o.data_, o.allocated_, o.size_⟩

/-- The members that are kept in memory. -/
def ofRep (o : MyVectorBuf) : VectorStorage := ⟨o.size, o.used, o.arr⟩

end VectorStorage

/-- The exceptions. -/
inductive Exc
  /-- `std::bad_alloc` -/
  | badAlloc
  /-- What a constructor of an element throws. -/
  | element
  /-- `std::invalid_argument(what)` -/
  | invalidArgument (what : String)
deriving DecidableEq

variable {T : Type}

/-- Whether the next call that may throw does. -/
def throws : Prog (World T) Exc Bool := fun s =>
  some (.ok (s.plan s.calls), { s with calls := s.calls + 1 })

/-! ## Memory -/

/-- The members of a vector. -/
def members (v : Addr) : Prog (World T) Exc VectorStorage :=
  ask fun s => (s.vecs.read v).map VectorStorage.ofRep

/-- The members of a vector change. -/
def setMembers (v : Addr) (o : VectorStorage) (s : World T) : Option (World T) :=
  MyVec3.setMembers v o.rep s

/-- A vector begins to live. -/
def create (o : VectorStorage) : Prog (World T) Exc Addr := fun s =>
  some (.ok (MyVec3.create o.rep s).1, (MyVec3.create o.rep s).2)

/-- The memory `operator new` returns. -/
def allocated (bytes : ℕ) : Prog (World T) Exc Addr := fun s =>
  some (.ok (s.storage.allocate bytes).1, { s with storage := (s.storage.allocate bytes).2 })

/-- `operator new(bytes)` -/
def operatorNew (bytes : ℕ) : Prog (World T) Exc Addr := do
  if ← throws then raise .badAlloc else allocated bytes

/-- Whether a constructor of an element throws, where it may. -/
def elementThrows (nothrow : Bool) : Prog (World T) Exc Bool :=
  if nothrow then pure false else throws

/-- `new (data + i) T(...)`: an element with the value `t`. -/
def placeNew (E : ElementType T) (nothrow : Bool) (data : Option Addr) (i : ℕ) (t : T) :
    Prog (World T) Exc Unit := do
  if ← elementThrows nothrow then raise .element
  else update fun s =>
    data.bind fun b => MyVec3.inStorage (Storage.construct E.sizeofT b i t) s

/-- `data[i]`, moved from. -/
def leave (E : ElementType T) (data : Option Addr) (i : ℕ) (t : T) (s : World T) :
    Option (World T) :=
  data.bind fun b => MyVec3.inStorage (Storage.assign b i (E.moved t)) s

/-! ## VectorStorage -/

/-- `VectorStorage(size_t allocSize)`, and `Vector(size_t allocated, dummy)` -/
def storageConstruct (E : ElementType T) (allocSize : ℕ) : Prog (World T) Exc Addr := do
  let data ← operatorNew (E.sizeofT * allocSize % 2 ^ 64)
  create ⟨allocSize, 0, some data⟩

/-- `operator=(VectorStorage &&toMove)` and `Vector::swap`: the members are
swapped. -/
def moveAssign (v toMove : Addr) (s : World T) : Option (World T) := MyVec3.moveAssign v toMove s

/-- `VectorStorage(VectorStorage &&toMove)`: null members are swapped with
those of the argument. -/
def moveConstruct (toMove : Addr) : Prog (World T) Exc Addr := do
  let v ← create ⟨0, 0, none⟩
  update (moveAssign v toMove)
  return v

/-- `~VectorStorage()` -/
def storageDestruct (v : Addr) (s : World T) : Option (World T) := MyVec3.bufDestruct v s

/-! ## Vector -/

/-- `++size_` -/
def increment (v : Addr) : Prog (World T) Exc Unit := do
  let o ← members v
  update (setMembers v { o with size_ := o.size_ + 1 })

/-- `for (; size_ < n; ++size_)`, with the number of passes left. -/
def fillTo (v : Addr) (n : ℕ) (put : ℕ → Prog (World T) Exc Unit) : ℕ → Prog (World T) Exc Unit
  | 0 => do
    let o ← members v
    assert (¬ o.size_ < n)
  | passes + 1 => do
    let o ← members v
    if o.size_ < n then do
      put o.size_
      increment v
      fillTo v n put passes
    else pure ()

/-- `new (data_ + i) T(t)`, where `t` is copied or a default. -/
def placeAt (E : ElementType T) (v : Addr) (i : ℕ) (t : T) : Prog (World T) Exc Unit := do
  let o ← members v
  placeNew E false o.data_ i t

/-- `new (data_ + i) T(sd.data_[i])` -/
def copyAt (E : ElementType T) (v sd : Addr) (i : ℕ) : Prog (World T) Exc Unit := do
  let r ← members sd
  let t ← ask (MyVec3.element r.data_ i)
  placeAt E v i t

/-- `Vector(CopyArg sd)` -/
def copyConstruct (E : ElementType T) (sd : Addr) : Prog (World T) Exc Addr := do
  let r ← members sd
  let v ← storageConstruct E r.size_
  onThrow (fillTo v r.size_ (copyAt E v sd) r.size_) (storageDestruct v)
  return v

/-- The loop of `Vector(std::initializer_list<T> l)` -/
def fillList (E : ElementType T) (v : Addr) : List T → Prog (World T) Exc Unit
  | [] => pure ()
  | t :: l => do
    let o ← members v
    placeNew E false o.data_ o.size_ t
    increment v
    fillList E v l

/-- `Vector(std::initializer_list<T> l)` -/
def listConstruct (E : ElementType T) (l : List T) : Prog (World T) Exc Addr := do
  let v ← storageConstruct E l.length
  onThrow (fillList E v l) (storageDestruct v)
  return v

/-- `Vector(size_t size, const T &toCopy)`, and with `T{}` for the argument
`Vector(size_t size)` -/
def fillConstruct (E : ElementType T) (size : ℕ) (toCopy : T) : Prog (World T) Exc Addr := do
  let v ← storageConstruct E size
  onThrow (fillTo v size (fun i => placeAt E v i toCopy) size) (storageDestruct v)
  return v

/-- `operator=(CopyArg sd)` -/
def copyAssign (E : ElementType T) (v sd : Addr) : Prog (World T) Exc Unit := do
  let copy ← copyConstruct E sd
  leaving (update (moveAssign v copy)) (storageDestruct copy)

/-- `moveOrCopyT(dest + i, src[i])` -/
def moveOrCopyT (E : ElementType T) (dest : Option Addr) (i : ℕ) (src : Option Addr) :
    Prog (World T) Exc Unit := do
  let t ← ask (MyVec3.element src i)
  if E.nothrowMove then do
    update (leave E src i t)
    placeNew E true dest i t
  else placeNew E false dest i t

/-- `moveOrCopyT(newVector.data_ + i, data_[i])` -/
def moveOrCopyAt (E : ElementType T) (newVector v : Addr) (i : ℕ) : Prog (World T) Exc Unit := do
  let n ← members newVector
  let o ← members v
  moveOrCopyT E n.data_ i o.data_

/-- `realloc(newAllocated)` -/
def realloc (E : ElementType T) (v : Addr) (newAllocated : ℕ) : Prog (World T) Exc Unit := do
  let o ← members v
  let newSize := min newAllocated o.size_
  let newVector ← storageConstruct E newAllocated
  leaving (do
    fillTo newVector newSize (moveOrCopyAt E newVector v) newSize
    update (moveAssign v newVector)) (storageDestruct newVector)

/-- `if (size_ == allocated_) realloc(2 * allocated_ + 1);` -/
def grow (E : ElementType T) (v : Addr) : Prog (World T) Exc Unit := do
  let o ← members v
  if o.size_ = o.allocated_ then realloc E v ((2 * o.allocated_ + 1) % 2 ^ 64) else pure ()

/-- `push(value)`: `t` is what `T{std::forward<Arg>(value)}` is, and
`nothrow` whether it cannot throw. -/
def push (E : ElementType T) (v : Addr) (t : T) (nothrow : Bool) : Prog (World T) Exc Unit := do
  grow E v
  let o ← members v
  placeNew E nothrow o.data_ o.size_ t
  increment v

/-- `pop()` -/
def pop (v : Addr) : Prog (World T) Exc Unit := do
  let o ← members v
  if o.size_ = 0 then raise (.invalidArgument "trying pop from empty vector")
  else do
    update (MyVec3.destroy o.data_ (o.size_ - 1))
    update (setMembers v { o with size_ := o.size_ - 1 })

/-! ## Programs -/

/-- The operations on vectors. -/
inductive Op (T : Type)
  | default
  | copy (sd : Addr)
  | move (toMove : Addr)
  | list (l : List T)
  | fill (size : ℕ) (toCopy : T)
  | fillDefault (size : ℕ)
  | copyAssign (v sd : Addr)
  | moveAssign (v toMove : Addr)
  | swap (ft sd : Addr)
  | push (v : Addr) (t : T) (nothrow : Bool)
  | pop (v : Addr)
  | destruct (v : Addr)

/-- The vectors an operation is about, if they were there before. -/
def Op.subjects : Op T → List Addr
  | .default | .list _ | .fill _ _ | .fillDefault _ => []
  | .copy v | .move v | .push v _ _ | .pop v | .destruct v => [v]
  | .copyAssign v w | .moveAssign v w | .swap v w => [v, w]

/-- What an operation needs of the type of the elements. An
`initializer_list` is an array in memory. -/
def Op.Enabled (E : ElementType T) : Op T → Prop
  | .copy _ | .copyAssign _ _ | .fill _ _ => E.copyable = true
  | .list l => E.copyable = true ∧ E.sizeofT * l.length < 2 ^ 64
  | .fillDefault _ => E.default.isSome
  | _ => True

/-- Operations are called on living vectors, where there are such
operations. -/
def Op.Legal (E : ElementType T) (op : Op T) (s : World T) : Prop :=
  op.Enabled E ∧ ∀ v ∈ op.subjects, (s.vecs.read v).isSome

/-- What an operation yields. -/
inductive Reply
  /-- A new vector. -/
  | vector (v : Addr)
  /-- Nothing. -/
  | none

/-- One operation. -/
def step (E : ElementType T) : Op T → Prog (World T) Exc Reply
  | .default => do
    let v ← create ⟨0, 0, none⟩
    return .vector v
  | .copy sd => do
    let v ← copyConstruct E sd
    return .vector v
  | .move toMove => do
    let v ← moveConstruct toMove
    return .vector v
  | .list l => do
    let v ← listConstruct E l
    return .vector v
  | .fill size toCopy => do
    let v ← fillConstruct E size toCopy
    return .vector v
  | .fillDefault size => do
    let t ← ask fun _ => E.default
    let v ← fillConstruct E size t
    return .vector v
  | .copyAssign v sd => do
    copyAssign E v sd
    return .none
  | .moveAssign v toMove | .swap v toMove => do
    update (moveAssign v toMove)
    return .none
  | .push v t nothrow => do
    push E v t nothrow
    return .none
  | .pop v => do
    pop v
    return .none
  | .destruct v => do
    update (storageDestruct v)
    return .none

/-- **What a program can reach** in steps of `C`, whichever calls throw. -/
inductive Reachable (E : ElementType T) (C : Op T → World T → Prop) : World T → Prop
  /-- At first. -/
  | start (plan : ℕ → Bool) : Reachable E C (.start plan)
  /-- After one more operation, whether or not it threw. -/
  | step {op : Op T} {s s' : World T} {r : Except Exc Reply} (h : Reachable E C s)
    (hlegal : op.Legal E s) (hC : C op s) (hstep : step E op s = some (r, s')) : Reachable E C s'

end Containers
