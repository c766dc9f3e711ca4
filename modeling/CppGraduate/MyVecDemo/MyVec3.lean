import CppGraduate.Lib.Storage
import CppGraduate.Lib.Throwing
import Mathlib.Algebra.Group.Nat.Defs

/-!
# The vector of myvec-3

`MyVectorBuf` of `myvec-3.cc` owns raw memory and the elements in its first
`used_` places; `MyVector` builds on it what may throw. Requests for memory
and copies of elements may throw, and a plan says which of them do.
Destructors, moves and swaps do not.

The size of a request is a product of type `size_t`. Constructing an element
where no memory was requested for it has no result, and neither has
destroying or reading one that is not there or an assertion that fails.

`push` calls itself on a vector that is to take the place of this one; the
depth of these calls is bounded by a number, and so are the passes of its
loop.
-/

namespace MyVec3

open Prog

/-- The address of a buffer or of a vector. -/
abbrev Addr := ℕ

/-- `MyVectorBuf` -/
structure MyVectorBuf where
  /-- `arr_`, which may be null. -/
  arr : Option Addr
  /-- `size_` -/
  size : ℕ
  /-- `used_` -/
  used : ℕ

/-- The memory of a program with vectors of `T`. -/
structure World (T : Type) where
  /-- What `operator new` returned, and the elements in it. -/
  storage : Storage T
  /-- The vectors, local ones among them. -/
  vecs : Heap MyVectorBuf
  /-- Which of the calls that may throw does. -/
  plan : ℕ → Bool
  /-- How many such calls there were. -/
  calls : ℕ

/-- The exceptions. -/
inductive Exc
  /-- `std::bad_alloc` -/
  | badAlloc
  /-- What the copy constructor of an element throws. -/
  | element
  /-- `std::runtime_error(what)` -/
  | runtimeError (what : String)
deriving DecidableEq

variable {T : Type}

/-- Whether the next call that may throw does. -/
def throws : Prog (World T) Exc Bool := fun s =>
  some (.ok (s.plan s.calls), { s with calls := s.calls + 1 })

/-! ## Memory -/

/-- Something is done to the storage. -/
def inStorage (f : Storage T → Option (Storage T)) (s : World T) : Option (World T) :=
  (f s.storage).map fun storage => { s with storage := storage }

/-- The memory `operator new` returns. -/
def allocated (bytes : ℕ) : Prog (World T) Exc Addr := fun s =>
  some (.ok (s.storage.allocate bytes).1, { s with storage := (s.storage.allocate bytes).2 })

/-- `operator new(bytes)` -/
def operatorNew (bytes : ℕ) : Prog (World T) Exc Addr := do
  if ← throws then raise .badAlloc else allocated bytes

/-- `operator delete(arr)` -/
def operatorDelete (arr : Option Addr) (s : World T) : Option (World T) :=
  match arr with
  | none => some s
  | some b => inStorage (Storage.deallocate b) s

/-- `construct(arr + i, t)` -/
def construct (sizeofT : ℕ) (arr : Option Addr) (i : ℕ) (t : T) : Prog (World T) Exc Unit := do
  if ← throws then raise .element
  else update fun s => arr.bind fun b => inStorage (Storage.construct sizeofT b i t) s

/-- `destroy(arr + i)` -/
def destroy (arr : Option Addr) (i : ℕ) (s : World T) : Option (World T) :=
  arr.bind fun b => inStorage (Storage.destroy b i) s

/-- `destroy(arr + i, arr + i + n)` -/
def destroyRange (arr : Option Addr) : ℕ → ℕ → World T → Option (World T)
  | _, 0, s => some s
  | i, n + 1, s => (destroy arr i s).bind (destroyRange arr (i + 1) n)

/-- `arr[i]` as a value. -/
def element (arr : Option Addr) (i : ℕ) (s : World T) : Option T :=
  arr.bind fun b => (s.storage.object b i).map Object.value

/-! ## MyVectorBuf -/

/-- The members of a vector. -/
def members (v : Addr) : Prog (World T) Exc MyVectorBuf := ask fun s => s.vecs.read v

/-- The members of a vector change. -/
def setMembers (v : Addr) (o : MyVectorBuf) (s : World T) : Option (World T) :=
  (s.vecs.modify v fun _ => o).map fun vecs => { s with vecs := vecs }

/-- A vector begins to live. -/
def create (o : MyVectorBuf) (s : World T) : Addr × World T :=
  (s.vecs.bound, { s with vecs := (s.vecs.alloc o).2 })

/-- A vector ceases to live. -/
def remove (v : Addr) (s : World T) : Option (World T) :=
  (s.vecs.free v).map fun vecs => { s with vecs := vecs }

/-- The memory for `sz` elements. -/
def memoryFor (sizeofT sz : ℕ) : Prog (World T) Exc (Option Addr) :=
  if sz = 0 then pure none
  else do
    let b ← operatorNew (sizeofT * sz % 2 ^ 64)
    return some b

/-- `MyVectorBuf(sz)`, and `MyVector(sz)` -/
def bufConstruct (sizeofT sz : ℕ) : Prog (World T) Exc Addr := do
  let arr ← memoryFor sizeofT sz
  fun s => some (.ok (create ⟨arr, sz, 0⟩ s).1, (create ⟨arr, sz, 0⟩ s).2)

/-- `~MyVectorBuf()`, and `~MyVector()` -/
def bufDestruct (v : Addr) (s : World T) : Option (World T) := do
  let o ← s.vecs.read v
  let s ← destroyRange o.arr 0 o.used s
  let s ← operatorDelete o.arr s
  remove v s

/-- `MyVectorBuf(MyVectorBuf &&rhs)`, and `MyVector(MyVector &&rhs)` -/
def moveConstruct (rhs : Addr) (s : World T) : Option (Addr × World T) := do
  let o ← s.vecs.read rhs
  let s ← setMembers rhs ⟨none, 0, 0⟩ s
  return create o s

/-- `operator=(MyVectorBuf &&rhs)`, and `operator=(MyVector &&rhs)`: the
members are swapped. -/
def moveAssign (v rhs : Addr) (s : World T) : Option (World T) := do
  let o ← s.vecs.read v
  let r ← s.vecs.read rhs
  let s ← setMembers v r s
  setMembers rhs o s

/-- `std::swap(a, b)` -/
def swap (a b : Addr) (s : World T) : Option (World T) := do
  let (tmp, s) ← moveConstruct a s
  let s ← moveAssign a b s
  let s ← moveAssign b tmp s
  bufDestruct tmp s

/-! ## MyVector -/

/-- `construct(arr_ + used_, t); used_ += 1;` -/
def emplace (sizeofT : ℕ) (v : Addr) (t : T) : Prog (World T) Exc Unit := do
  let o ← members v
  construct sizeofT o.arr o.used t
  update (setMembers v { o with used := o.used + 1 })

/-- `while (v.used_ < src.used_)`: the next element of `src` is put into
`v`. With the number of passes left. -/
def fillFrom (put : T → Prog (World T) Exc Unit) (v src : Addr) : ℕ → Prog (World T) Exc Unit
  | 0 => do
    let o ← members v
    let r ← members src
    assert (¬ o.used < r.used)
  | passes + 1 => do
    let o ← members v
    let r ← members src
    if o.used < r.used then do
      let t ← ask (element r.arr o.used)
      put t
      fillFrom put v src passes
    else pure ()

/-- `MyVector(const MyVector &rhs)`: the base class cleans up. -/
def copyConstruct (sizeofT : ℕ) (rhs : Addr) : Prog (World T) Exc Addr := do
  let r ← members rhs
  let v ← bufConstruct sizeofT r.used
  onThrow (fillFrom (emplace sizeofT v) v rhs r.used) (bufDestruct v)
  return v

/-- `operator=(const MyVector &rhs)` -/
def copyAssign (sizeofT : ℕ) (v rhs : Addr) : Prog (World T) Exc Unit := do
  let tmp ← copyConstruct sizeofT rhs
  leaving (update (swap v tmp)) (bufDestruct tmp)

/-- `top()`: the element is copied. -/
def top (v : Addr) : Prog (World T) Exc T := do
  let o ← members v
  if o.used < 1 then raise (.runtimeError "Vector is empty")
  else do
    let t ← ask (element o.arr (o.used - 1))
    if ← throws then raise .element else return t

/-- `pop()` -/
def pop (v : Addr) : Prog (World T) Exc Unit := do
  let o ← members v
  if o.used < 1 then raise (.runtimeError "Vector is empty")
  else do
    update (setMembers v { o with used := o.used - 1 })
    update (destroy o.arr (o.used - 1))

/-- `push(t)`, with calls of itself to a depth. The argument may be an
element of the vector: it is read before anything is destroyed. -/
def push (sizeofT : ℕ) : ℕ → Addr → T → Prog (World T) Exc Unit
  | 0, _, _ => stuck
  | depth + 1, v, t => do
    let o ← members v
    assert (o.used ≤ o.size)
    if o.used = o.size then do
      let tmp ← bufConstruct sizeofT ((o.size * 2 + 1) % 2 ^ 64)
      leaving (do
        fillFrom (push sizeofT depth tmp) tmp v o.used
        push sizeofT depth tmp t
        update (swap v tmp)) (bufDestruct tmp)
    else emplace sizeofT v t

/-! ## Programs -/

/-- The operations on vectors. -/
inductive Op (T : Type)
  | construct (sz : ℕ)
  | copy (rhs : Addr)
  | move (rhs : Addr)
  | copyAssign (v rhs : Addr)
  | moveAssign (v rhs : Addr)
  | push (v : Addr) (t : T)
  | pop (v : Addr)
  | top (v : Addr)
  | destruct (v : Addr)

/-- The vectors an operation is about, if they were there before. -/
def Op.subjects : Op T → List Addr
  | .construct _ => []
  | .copy v | .move v | .push v _ | .pop v | .top v | .destruct v => [v]
  | .copyAssign v w | .moveAssign v w => [v, w]

/-- Operations are called on living vectors. -/
def Op.Legal (op : Op T) (s : World T) : Prop := ∀ v ∈ op.subjects, (s.vecs.read v).isSome

/-- What an operation yields. -/
inductive Reply (T : Type)
  /-- A new vector. -/
  | vector (v : Addr)
  /-- A copy of an element. -/
  | value (t : T)
  /-- Nothing. -/
  | none

/-- One operation. -/
def step (sizeofT depth : ℕ) : Op T → Prog (World T) Exc (Reply T)
  | .construct sz => do
    let v ← bufConstruct sizeofT sz
    return .vector v
  | .copy rhs => do
    let v ← copyConstruct sizeofT rhs
    return .vector v
  | .move rhs => fun s => (moveConstruct rhs s).map fun r => (.ok (.vector r.1), r.2)
  | .copyAssign v rhs => do
    copyAssign sizeofT v rhs
    return .none
  | .moveAssign v rhs => do
    update (moveAssign v rhs)
    return .none
  | .push v t => do
    push sizeofT depth v t
    return .none
  | .pop v => do
    pop v
    return .none
  | .top v => do
    let t ← top v
    return .value t
  | .destruct v => do
    update (bufDestruct v)
    return .none

/-- The memory before the first operation. -/
def World.start (plan : ℕ → Bool) : World T := ⟨.empty, .empty, plan, 0⟩

/-- **What a program can reach** in steps of `C`, whichever calls throw. -/
inductive Reachable (sizeofT depth : ℕ) (C : Op T → World T → Prop) : World T → Prop
  /-- At first. -/
  | start (plan : ℕ → Bool) : Reachable sizeofT depth C (.start plan)
  /-- After one more operation, whether or not it threw. -/
  | step {op : Op T} {s s' : World T} {r : Except Exc (Reply T)}
    (h : Reachable sizeofT depth C s) (hlegal : op.Legal s) (hC : C op s)
    (hstep : step sizeofT depth op s = some (r, s')) : Reachable sizeofT depth C s'

end MyVec3
