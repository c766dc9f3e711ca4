import CppGraduate.Lib.Heap
import CppGraduate.Lib.Throwing
import Mathlib.Algebra.Group.Nat.Defs

/-!
# The vector of myvec-2

`MyVector` of `myvec-2.cc` owns an array of `T`, made by `new T[n]`, so all
of its elements exist from the start and `push` assigns to them. Making an
array and assigning an element may throw; a plan says which of these calls
do. An assignment that throws may leave anything in its target.

The length of an array is not stored with the vector: reading or writing
past the end of an array has no result, and neither has freeing one twice or
an assertion that fails.
-/

namespace MyVec2

open Prog

/-- The address of an array or of a vector. -/
abbrev Addr := ℕ

/-- `MyVector` -/
structure MyVector where
  /-- `arr_`, which may be null. -/
  arr : Option Addr
  /-- `size_` -/
  size : ℕ
  /-- `used_` -/
  used : ℕ

/-- The memory of a program with vectors of `T`. -/
structure World (T : Type) where
  /-- The arrays. -/
  arrays : Heap (List T)
  /-- The vectors. -/
  vecs : Heap MyVector
  /-- Which of the calls that may throw does; where it is an assignment,
  also what it leaves in its target. -/
  plan : ℕ → Option T
  /-- How many such calls there were. -/
  calls : ℕ

/-- The exceptions. -/
inductive Exc
  /-- `std::bad_alloc`, or what the constructor of an element throws. -/
  | newFailed
  /-- What the assignment or the copy constructor of an element throws. -/
  | element
  /-- `std::out_of_range` -/
  | outOfRange (what : String)
  /-- `std::underflow_error` -/
  | underflow (what : String)
deriving DecidableEq

/-- The number of elements above which `new T[n]` throws
`std::bad_array_new_length`: no object is larger than `PTRDIFF_MAX` bytes. -/
def maxElements (sizeofT : ℕ) : ℕ := (2 ^ 63 - 1) / sizeofT

variable {T : Type} [Inhabited T]

/-- What the next call that may throw does. -/
def fate : Prog (World T) Exc (Option T) := fun s =>
  some (.ok (s.plan s.calls), { s with calls := s.calls + 1 })

/-! ## Arrays -/

/-- The array of `new T[n]`. -/
def allocArray (n : ℕ) : Prog (World T) Exc Addr := fun s =>
  some (.ok s.arrays.bound, { s with arrays := (s.arrays.alloc (List.replicate n default)).2 })

/-- `new T[n]` -/
def newArray (sizeofT n : ℕ) : Prog (World T) Exc Addr := do
  if maxElements sizeofT < n then raise .newFailed
  else
    match ← fate with
    | some _ => raise .newFailed
    | none => allocArray n

/-- `delete[] arr` -/
def deleteArray (arr : Option Addr) (s : World T) : Option (World T) :=
  match arr with
  | none => some s
  | some p => (s.arrays.free p).map fun arrays => { s with arrays := arrays }

/-- `arr[idx]` as a value. -/
def element (arr : Option Addr) (idx : ℕ) (s : World T) : Option T := do
  let l ← s.arrays.read (← arr)
  l[idx]?

/-- `arr[idx]` takes a value. -/
def store (arr : Option Addr) (idx : ℕ) (v : T) (s : World T) : Option (World T) :=
  match arr with
  | none => none
  | some p =>
    match s.arrays.read p with
    | none => none
    | some l =>
      if idx < l.length then some { s with arrays := s.arrays.mapAt p fun l => l.set idx v }
      else none

/-- `arr[idx] = v` -/
def assign (arr : Option Addr) (idx : ℕ) (v : T) : Prog (World T) Exc Unit := do
  match ← fate with
  | none => update (store arr idx v)
  | some left => do
    update (store arr idx left)
    raise .element

/-- The loop of `safe_copy`, from `idx` on, with the number of passes
left. -/
def copyLoop (dest src : Option Addr) : ℕ → ℕ → Prog (World T) Exc Unit
  | _, 0 => pure ()
  | idx, n + 1 => do
    let v ← ask (element src idx)
    assign dest idx v
    copyLoop dest src (idx + 1) n

/-- `safe_copy` -/
def safeCopy (sizeofT : ℕ) (src : Option Addr) (srcsize dstsize : ℕ) :
    Prog (World T) Exc Addr := do
  assert (srcsize ≤ dstsize)
  let dest ← newArray sizeofT dstsize
  onThrow (copyLoop (some dest) src 0 srcsize) (deleteArray (some dest))
  return dest

/-! ## Vectors -/

/-- The members of a vector. -/
def members (v : Addr) : Prog (World T) Exc MyVector := ask fun s => s.vecs.read v

/-- The members of a vector change. -/
def setMembers (v : Addr) (o : MyVector) : Prog (World T) Exc Unit :=
  update fun s => (s.vecs.modify v fun _ => o).map fun vecs => { s with vecs := vecs }

/-- A vector begins to live. -/
def create (o : MyVector) : Prog (World T) Exc Addr := fun s =>
  some (.ok s.vecs.bound, { s with vecs := (s.vecs.alloc o).2 })

/-- A vector ceases to live. -/
def remove (v : Addr) (s : World T) : Option (World T) :=
  (s.vecs.free v).map fun vecs => { s with vecs := vecs }

/-- `explicit MyVector(size_t sz)` -/
def construct (sizeofT sz : ℕ) : Prog (World T) Exc Addr := do
  let arr ← newArray sizeofT sz
  create ⟨some arr, sz, 0⟩

/-- `MyVector(const MyVector &rhs)` -/
def copyConstruct (sizeofT : ℕ) (rhs : Addr) : Prog (World T) Exc Addr := do
  let rhs ← members rhs
  let arr ← safeCopy sizeofT rhs.arr rhs.used rhs.used
  create ⟨some arr, rhs.size, rhs.used⟩

/-- `MyVector(MyVector &&rhs)` -/
def moveConstruct (rhs : Addr) : Prog (World T) Exc Addr := do
  let o ← members rhs
  setMembers rhs ⟨none, 0, 0⟩
  create o

/-- `~MyVector()` -/
def destruct (v : Addr) (s : World T) : Option (World T) := do
  let o ← s.vecs.read v
  let s ← deleteArray o.arr s
  remove v s

/-- `top()`: the element is copied. -/
def top (v : Addr) : Prog (World T) Exc T := do
  let o ← members v
  if o.used < 1 then raise (.outOfRange "top on empty vector")
  else do
    let t ← ask (element o.arr (o.used - 1))
    match ← fate with
    | some _ => raise .element
    | none => return t

/-- `pop()` -/
def pop (v : Addr) : Prog (World T) Exc Unit := do
  let o ← members v
  if o.used < 1 then raise (.underflow "pop on empty vector")
  else setMembers v { o with used := o.used - 1 }

/-- What `push` does first on a full vector. -/
def grow (sizeofT : ℕ) (v : Addr) : Prog (World T) Exc Unit := do
  let o ← members v
  let newsz := (o.size * 2 + 1) % 2 ^ 64
  let newarr ← safeCopy sizeofT o.arr o.size newsz
  update (deleteArray o.arr)
  setMembers v { o with arr := some newarr, size := newsz }
  assert (o.used < newsz)

/-- The last two lines of `push`. -/
def append (v : Addr) (t : T) : Prog (World T) Exc Unit := do
  let o ← members v
  assign o.arr o.used t
  setMembers v { o with used := o.used + 1 }

/-- `push(t)`. The argument is an object outside the vector: none of its
elements can be named from outside. -/
def push (sizeofT : ℕ) (v : Addr) (t : T) : Prog (World T) Exc Unit := do
  let o ← members v
  assert (o.used ≤ o.size)
  if o.used = o.size then do
    grow sizeofT v
    append v t
  else append v t

/-! ## Programs -/

/-- The operations on vectors. -/
inductive Op (T : Type)
  | construct (sz : ℕ)
  | copy (rhs : Addr)
  | move (rhs : Addr)
  | top (v : Addr)
  | pop (v : Addr)
  | push (v : Addr) (t : T)
  | destruct (v : Addr)

/-- The vector an operation is about, if there was one before. -/
def Op.subject : Op T → Option Addr
  | .construct _ => none
  | .copy v | .move v | .top v | .pop v | .push v _ | .destruct v => some v

/-- Operations are called on living vectors. -/
def Op.Legal (op : Op T) (s : World T) : Prop := ∀ v, op.subject = some v → (s.vecs.read v).isSome

/-- One operation. -/
def step (sizeofT : ℕ) : Op T → Prog (World T) Exc Unit
  | .construct sz => do
    let _ ← construct sizeofT sz
  | .copy rhs => do
    let _ ← copyConstruct sizeofT rhs
  | .move rhs => do
    let _ ← moveConstruct rhs
  | .top v => do
    let _ ← top v
  | .pop v => pop v
  | .push v t => push sizeofT v t
  | .destruct v => update (destruct v)

/-- The memory before the first operation. -/
def World.start (plan : ℕ → Option T) : World T := ⟨.empty, .empty, plan, 0⟩

/-- **What a program can reach** in steps of `C`, whichever calls throw. -/
inductive Reachable (sizeofT : ℕ) (C : Op T → World T → Prop) : World T → Prop
  /-- At first. -/
  | start (plan : ℕ → Option T) : Reachable sizeofT C (.start plan)
  /-- After one more operation, whether or not it threw. -/
  | step {op : Op T} {s s' : World T} {r : Except Exc Unit} (h : Reachable sizeofT C s)
    (hlegal : op.Legal s) (hC : C op s) (hstep : step sizeofT op s = some (r, s')) :
    Reachable sizeofT C s'

end MyVec2
