import CppGraduate.MyVecDemo.MyVec3

/-!
# The vector of myvec-4

`MyVectorBuf` and most of `MyVector` of `myvec-4.cc` are as in `myvec-3.cc`,
and what they do is taken from there. New are `construct` and `push` of an
argument that may be moved from: `push(T &&)` moves the elements of a full
vector into the larger one, and `push(const T &)` copies its argument and
hands on the copy. Moves do not throw; the `static_assert`s of `push` see
to that.

An object that was moved from goes on to live with another value. The
objects that do not lie in a buffer, the arguments of `push(T &&)` and the
copy `push(const T &)` makes, have a memory of their own.
-/

namespace MyVec4

open Prog
open MyVec3 (Addr MyVectorBuf Exc)

variable {T α : Type}

/-- The memory of a program with vectors of `T`. -/
structure World (T : Type) extends MyVec3.World T where
  /-- The objects outside of buffers. -/
  objects : Heap T

/-- What a program of myvec-3 does. -/
def shared (m : Prog (MyVec3.World T) Exc α) : Prog (World T) Exc α :=
  m.onPart World.toWorld fun w s => { s with toWorld := w }

/-- A change of what there is in myvec-3 as well. -/
def sharedUpdate (f : MyVec3.World T → Option (MyVec3.World T)) (s : World T) : Option (World T) :=
  (f s.toWorld).map fun w => { s with toWorld := w }

/-! ## Objects that are moved from -/

/-- An object outside of buffers begins to live. -/
def newObject (t : T) : Prog (World T) Exc Addr := fun s =>
  some (.ok (s.objects.alloc t).1, { s with objects := (s.objects.alloc t).2 })

/-- It gets another value. -/
def setObject (a : Addr) (t : T) (s : World T) : Option (World T) :=
  (s.objects.modify a fun _ => t).map fun objects => { s with objects := objects }

/-- It ceases to live. -/
def freeObject (a : Addr) (s : World T) : Option (World T) :=
  (s.objects.free a).map fun objects => { s with objects := objects }

/-- What a `T &&` refers to. -/
inductive Ref
  /-- An object outside of buffers. -/
  | object (a : Addr)
  /-- `arr[i]` -/
  | element (arr : Option Addr) (i : ℕ)

/-- The value a move takes; `moved` says what it leaves. -/
def take (moved : T → T) : Ref → Prog (World T) Exc T
  | .object a => do
    let t ← ask fun s => s.objects.read a
    update (setObject a (moved t))
    return t
  | .element arr i => do
    let t ← ask fun s => MyVec3.element arr i s.toWorld
    update (sharedUpdate fun s => arr.bind fun b => MyVec3.inStorage (Storage.assign b i (moved t)) s)
    return t

/-- `construct(arr + i, std::move(rhs))` -/
def construct (sizeofT : ℕ) (moved : T → T) (arr : Option Addr) (i : ℕ) (rhs : Ref) :
    Prog (World T) Exc Unit := do
  let t ← take moved rhs
  update (sharedUpdate fun s =>
    arr.bind fun b => MyVec3.inStorage (Storage.construct sizeofT b i t) s)

/-! ## MyVector -/

/-- `construct(arr_ + used_, std::move(t)); used_ += 1;` -/
def emplace (sizeofT : ℕ) (moved : T → T) (v : Addr) (t : Ref) : Prog (World T) Exc Unit := do
  let o ← shared (MyVec3.members v)
  construct sizeofT moved o.arr o.used t
  update (sharedUpdate (MyVec3.setMembers v { o with used := o.used + 1 }))

/-- `while (v.used_ < src.used_)`: the next element of `src` is moved into
`v`. With the number of passes left. -/
def fillFrom (put : Ref → Prog (World T) Exc Unit) (v src : Addr) : ℕ → Prog (World T) Exc Unit
  | 0 => do
    let o ← shared (MyVec3.members v)
    let r ← shared (MyVec3.members src)
    assert (¬ o.used < r.used)
  | passes + 1 => do
    let o ← shared (MyVec3.members v)
    let r ← shared (MyVec3.members src)
    if o.used < r.used then do
      put (.element r.arr o.used)
      fillFrom put v src passes
    else pure ()

/-- `push(T &&t)`, with calls of itself to a depth. -/
def pushMove (sizeofT : ℕ) (moved : T → T) : ℕ → Addr → Ref → Prog (World T) Exc Unit
  | 0, _, _ => stuck
  | depth + 1, v, t => do
    let o ← shared (MyVec3.members v)
    assert (o.used ≤ o.size)
    if o.used = o.size then do
      let tmp ← shared (MyVec3.bufConstruct sizeofT ((o.size * 2 + 1) % 2 ^ 64))
      leaving (do
        fillFrom (pushMove sizeofT moved depth tmp) tmp v o.used
        pushMove sizeofT moved depth tmp t
        update (sharedUpdate (MyVec3.swap v tmp))) (sharedUpdate (MyVec3.bufDestruct tmp))
    else emplace sizeofT moved v t

/-- `push(const T &t)`: the copy `t2` is pushed. The argument may be an
element of the vector: it is read before anything else is done. -/
def push (sizeofT : ℕ) (moved : T → T) (depth : ℕ) (v : Addr) (t : T) :
    Prog (World T) Exc Unit := do
  if ← shared MyVec3.throws then raise .element
  else do
    let t2 ← newObject t
    leaving (pushMove sizeofT moved depth v (.object t2)) (freeObject t2)

/-! ## Programs -/

/-- The operations. -/
inductive Op (T : Type)
  /-- An operation of the vectors of myvec-3, `push` being `push(const T &)`. -/
  | plain (op : MyVec3.Op T)
  /-- `push(T &&)` of an object of the caller's, which is in no buffer. -/
  | pushMove (v a : Addr)
  /-- An object of the caller's begins to live. -/
  | object (t : T)

/-- Operations are called on living vectors and with living objects. -/
def Op.Legal : Op T → World T → Prop
  | .plain op, s => op.Legal s.toWorld
  | .pushMove v a, s => (s.vecs.read v).isSome ∧ (s.objects.read a).isSome
  | .object _, _ => True

/-- What an operation yields. -/
inductive Reply (T : Type)
  | plain (r : MyVec3.Reply T)
  /-- A new object. -/
  | object (a : Addr)

/-- One operation. -/
def step (sizeofT : ℕ) (moved : T → T) (depth : ℕ) : Op T → Prog (World T) Exc (Reply T)
  | .plain (.push v t) => do
    push sizeofT moved depth v t
    return .plain .none
  | .plain op => do
    let r ← shared (MyVec3.step sizeofT depth op)
    return .plain r
  | .pushMove v a => do
    pushMove sizeofT moved depth v (.object a)
    return .plain .none
  | .object t => do
    let a ← newObject t
    return .object a

/-- The memory before the first operation. -/
def World.start (plan : ℕ → Bool) : World T := ⟨.start plan, .empty⟩

/-- **What a program can reach** in steps of `C`, whichever calls throw. -/
inductive Reachable (sizeofT : ℕ) (moved : T → T) (depth : ℕ) (C : Op T → World T → Prop) :
    World T → Prop
  /-- At first. -/
  | start (plan : ℕ → Bool) : Reachable sizeofT moved depth C (.start plan)
  /-- After one more operation, whether or not it threw. -/
  | step {op : Op T} {s s' : World T} {r : Except Exc (Reply T)}
    (h : Reachable sizeofT moved depth C s) (hlegal : op.Legal s) (hC : C op s)
    (hstep : step sizeofT moved depth op s = some (r, s')) : Reachable sizeofT moved depth C s'

end MyVec4
