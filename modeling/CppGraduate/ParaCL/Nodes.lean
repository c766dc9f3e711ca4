import CppGraduate.Lib.Ir
import CppGraduate.ParaCL.Syntax

/-!
# Tree nodes and the interpreter

The nodes of `Node.hpp` and what their `calc` does. A node may be null: the
left operand of a unary operation is, and calling `calc` on a null node is
undefined. A `Decl` holds the value of one declared variable; reading it
before anything was assigned is undefined too, as its member has no
initialiser. Integers have 32 bits and wrap around, where C++ leaves an
overflow undefined.

A run of `calc` changes the values of the declarations, reads integers and
prints integers, and ends with a value, with an exception, or with an
undefined step; `while` loops are given a bound on their passes. C++ leaves
open which operand of an arithmetic operation or of a comparison comes
first; `calc` takes the left one, which is one of the orders permitted. That
order is collected in one table, `next`, and `calc_operand` says that `calc`
follows it: so what is proved about every evaluation is proved once and not
for each operation.
-/

namespace ParaCL

/-! ## Input and output -/

/-- What the next extraction from `std::cin` finds. -/
inductive Token
  /-- Digits, possibly with a sign: an integer, of any size. -/
  | int (z : ℤ)
  /-- Something else. -/
  | word
  /-- The end of the input. -/
  | eof

/-- The standard streams: what there is to read, how far it was read,
whether a read has failed, and what was printed. -/
structure Stdio where
  /-- What each extraction finds. -/
  tok : ℕ → Token
  /-- How many extractions there were. -/
  pos : ℕ
  /-- Whether `std::cin` is in a failed state. -/
  failed : Bool
  /-- The integers printed. -/
  out : List Int32

namespace Stdio

/-- `int Val = 0; std::cin >> Val;`: after a failure nothing is read any
more, an integer out of range becomes the nearest one in range and fails,
and what is no integer yields zero and fails. -/
def read (io : Stdio) : Int32 × Stdio :=
  if io.failed then (0, io)
  else match io.tok io.pos with
    | .int z =>
      if z < Int32.minValue.toInt then
        (Int32.minValue, { io with pos := io.pos + 1, failed := true })
      else if Int32.maxValue.toInt < z then
        (Int32.maxValue, { io with pos := io.pos + 1, failed := true })
      else (Int32.ofInt z, { io with pos := io.pos + 1 })
    | _ => (0, { io with failed := true })

/-- `std::cout << n << std::endl` -/
def print (io : Stdio) (n : Int32) : Stdio := { io with out := io.out ++ [n] }

end Stdio

/-! ## Nodes -/

/-- `Node::Operation` -/
inductive Operation
  | plus
  | minus
  | assign
  | greater
  | less
  | greaterEq
  | lessEq
  | stdOut
  | stdIn
  | equal
  | notEqual
  | div
  | mul
  | mod
  | not
  | and
  | or
deriving DecidableEq

/-- The nodes of a tree. -/
inductive INode
  /-- A null pointer. -/
  | null
  /-- `Value` -/
  | value (val : Int32)
  /-- `Decl`: which one it is, and `Varname_` -/
  | decl (id : ℕ) (varname : String)
  /-- `Scope` without branches -/
  | emptyScope
  /-- `Scope` after `addBranch` -/
  | addBranch (scope branch : INode)
  /-- `Operand` -/
  | operand (left : INode) (op : Operation) (right : INode)
  /-- `While` -/
  | whileNode (op scope : INode)
  /-- `If` -/
  | ifNode (op scope : INode)
deriving DecidableEq

/-- Whether a pointer to a node is null. -/
def INode.isNull : INode → Bool
  | .null => true
  | _ => false

/-! ## Runs -/

/-- The steps of a run without a defined effect. -/
inductive Undefined
  /-- `calc` of a null pointer. -/
  | nullPointer
  /-- A cast to `Decl` of another node. -/
  | badCast
  /-- The value of a declaration nothing was assigned to. -/
  | uninitialized (id : ℕ)
  /-- A division or a remainder out of range. -/
  | division (l r : Int32)
deriving DecidableEq

/-- How a run can end without a value. -/
inductive Stop
  /-- `std::runtime_error(what)` -/
  | exception (what : String)
  /-- An undefined step. -/
  | undefined (why : Undefined)
  /-- A loop did not end within the given number of passes. -/
  | outOfFuel
deriving DecidableEq

/-- The state of a run: the values of the declarations and the standard
streams. -/
structure St where
  /-- `Val_` of each declaration, once there is one. -/
  vals : ℕ → Option Int32
  /-- The standard streams. -/
  io : Stdio

/-- Computations of a run. -/
def Run (α : Type) : Type := St → Except Stop α × St

instance : Monad Run where
  pure a := fun st => (.ok a, st)
  bind m f := fun st =>
    match m st with
    | (.ok a, st') => f a st'
    | (.error e, st') => (.error e, st')

namespace Run

variable {α β : Type}

/-- The end of a run without a value. -/
def stop (e : Stop) : Run α := fun st => (.error e, st)

/-- The value of a declaration. -/
def getValue (id : ℕ) : Run Int32 := fun st =>
  match st.vals id with
  | some v => (.ok v, st)
  | none => (.error (.undefined (.uninitialized id)), st)

/-- `SetValue(v)` -/
def setValue (id : ℕ) (v : Int32) : Run Unit := fun st =>
  (.ok (), { st with vals := Function.update st.vals id (some v) })

/-- `std::cin >> Val` -/
def readInt : Run Int32 := fun st => (.ok st.io.read.1, { st with io := st.io.read.2 })

/-- `std::cout << v << std::endl` -/
def printInt (v : Int32) : Run Unit := fun st => (.ok (), { st with io := st.io.print v })

@[simp]
theorem pure_apply (a : α) (st : St) : (pure a : Run α) st = (.ok a, st) :=
  rfl

/-- A computation goes on after a value. -/
theorem bind_ok {m : Run α} {f : α → Run β} {st st' : St} {a : α} (h : m st = (.ok a, st')) :
    (m >>= f) st = f a st' := by
  show (match m st with | (.ok a, st') => f a st' | (.error e, st') => (.error e, st')) = _
  rw [h]

/-- A computation ends where its first part ends without a value. -/
theorem bind_error {m : Run α} {f : α → Run β} {st st' : St} {e : Stop}
    (h : m st = (.error e, st')) : (m >>= f) st = (.error e, st') := by
  show (match m st with | (.ok a, st') => f a st' | (.error e, st') => (.error e, st')) = _
  rw [h]

/-- Returning the value of a computation is the computation. -/
theorem bind_pure (m : Run α) : (m >>= fun a => pure a) = m := by
  funext st
  match hm : m st with
  | (.ok a, st') => rw [bind_ok hm, pure_apply]
  | (.error e, st') => rw [bind_error hm]

/-- **A value came out**: of the first part, and of the rest. -/
theorem bind_eq_ok {m : Run α} {f : α → Run β} {st st'' : St} {b : β} :
    (m >>= f) st = (.ok b, st'') ↔ ∃ a st', m st = (.ok a, st') ∧ f a st' = (.ok b, st'') := by
  constructor
  · intro h
    match hm : m st with
    | (.ok a, st') => exact ⟨a, st', rfl, by rwa [bind_ok hm] at h⟩
    | (.error e, st') =>
      rw [bind_error hm] at h
      cases congrArg Prod.fst h
  · rintro ⟨a, st', hm, hf⟩
    rw [bind_ok hm, hf]

/-- **No value came out**: of the first part, or of the rest. -/
theorem bind_eq_error {m : Run α} {f : α → Run β} {st st'' : St} {e : Stop} :
    (m >>= f) st = (.error e, st'')
      ↔ m st = (.error e, st'') ∨ ∃ a st', m st = (.ok a, st') ∧ f a st' = (.error e, st'') := by
  constructor
  · intro h
    match hm : m st with
    | (.ok a, st') => exact Or.inr ⟨a, st', rfl, by rwa [bind_ok hm] at h⟩
    | (.error e', st') =>
      rw [bind_error hm] at h
      cases h
      exact Or.inl rfl
  · rintro (hm | ⟨a, st', hm, hf⟩)
    · exact bind_error hm
    · rw [bind_ok hm, hf]

end Run

/-! ## `calc` -/

/-- A truth value as an `int` -/
def ofBool (b : Bool) : Int32 := if b then 1 else 0

/-- `l / r`, where it is defined -/
def quotient (l r : Int32) : Run Int32 :=
  if Ir.divisible l r then pure (l / r) else Run.stop (.undefined (.division l r))

/-- `l % r`, where it is defined -/
def remainder (l r : Int32) : Run Int32 :=
  if Ir.divisible l r then pure (l % r) else Run.stop (.undefined (.division l r))

/-- `static_cast<Decl *>(node)->SetValue(v)` -/
def INode.setValue (node : INode) (v : Int32) : Run Unit :=
  match node with
  | .decl id _ => Run.setValue id v
  | _ => Run.stop (.undefined .badCast)

/-- `while (Op_->calc()) Scope_->calc();`, with a bound on the passes -/
def whileLoop (op scope : Run Int32) : ℕ → Run Int32
  | 0 => Run.stop .outOfFuel
  | fuel + 1 => do
    let v ← op
    if v = 0 then return 0
    else
      let _ ← scope
      whileLoop op scope fuel

/-- `calc()`, with a bound on the passes of each loop. Of the orders of
operands that C++ permits it takes the one from left to right; sums,
differences and products wrap around. -/
def INode.calc (fuel : ℕ) : INode → Run Int32
  | .null => Run.stop (.undefined .nullPointer)
  | .value val => return val
  | .decl id _ => Run.getValue id
  | .emptyScope => return 0
  | .addBranch scope branch => do
    let _ ← scope.calc fuel
    let _ ← branch.calc fuel
    return 0
  | .whileNode op scope => whileLoop (op.calc fuel) (scope.calc fuel) fuel
  | .ifNode op scope => do
    let v ← op.calc fuel
    if v = 0 then return 0
    else
      let _ ← scope.calc fuel
      return 0
  | .operand left op right =>
    match op with
    | .plus =>
      if left.isNull then right.calc fuel
      else do
        let l ← left.calc fuel
        let r ← right.calc fuel
        return l + r
    | .minus =>
      if left.isNull then do
        let r ← right.calc fuel
        return -r
      else do
        let l ← left.calc fuel
        let r ← right.calc fuel
        return l - r
    | .greater => do
      let l ← left.calc fuel
      let r ← right.calc fuel
      return ofBool (l > r)
    | .less => do
      let l ← left.calc fuel
      let r ← right.calc fuel
      return ofBool (l < r)
    | .greaterEq => do
      let l ← left.calc fuel
      let r ← right.calc fuel
      return ofBool (l ≥ r)
    | .lessEq => do
      let l ← left.calc fuel
      let r ← right.calc fuel
      return ofBool (l ≤ r)
    | .assign => do
      let val ← right.calc fuel
      left.setValue val
      return val
    | .stdOut => do
      let r ← right.calc fuel
      Run.printInt r
      return 0
    | .stdIn => Run.readInt
    | .equal => do
      let l ← left.calc fuel
      let r ← right.calc fuel
      return ofBool (l = r)
    | .notEqual => do
      let l ← left.calc fuel
      let r ← right.calc fuel
      return ofBool (l ≠ r)
    | .not => do
      let r ← right.calc fuel
      return ofBool (r = 0)
    | .and => do
      let l ← left.calc fuel
      if l = 0 then return 0
      else
        let r ← right.calc fuel
        return ofBool (r ≠ 0)
    | .or => do
      let l ← left.calc fuel
      if l = 0 then
        let r ← right.calc fuel
        return ofBool (r ≠ 0)
      else return 1
    | .div => do
      let val ← right.calc fuel
      if val = 0 then Run.stop (.exception "Division by zero")
      else
        let l ← left.calc fuel
        let r ← right.calc fuel
        quotient l r
    | .mul => do
      let l ← left.calc fuel
      let r ← right.calc fuel
      return l * r
    | .mod => do
      let l ← left.calc fuel
      let r ← right.calc fuel
      remainder l r

/-! ## The order of evaluation -/

namespace INode

/-- **The order of evaluation**: the operand `calc` evaluates after those
whose values are given. A division evaluates its right operand, the left
one, and the right one again. -/
def next (left : INode) (op : Operation) (right : INode) : List Int32 → Option INode
  | [] =>
    match op with
    | .plus | .minus => if left.isNull then some right else some left
    | .assign | .stdOut | .not | .div => some right
    | .stdIn => none
    | _ => some left
  | [v] =>
    match op with
    | .plus | .minus => if left.isNull then none else some right
    | .assign | .stdOut | .not | .stdIn => none
    | .and => if v = 0 then none else some right
    | .or => if v = 0 then some right else none
    | .div => if v = 0 then none else some left
    | _ => some right
  | [_, _] => if op = .div then some right else none
  | _ => none

/-- What `calc` does once the operands have their values. -/
def finish (left : INode) (op : Operation) : List Int32 → Run Int32
  | [] => Run.readInt
  | [v] =>
    match op with
    | .plus => return v
    | .minus => return -v
    | .assign => do
      left.setValue v
      return v
    | .stdOut => do
      Run.printInt v
      return 0
    | .div => Run.stop (.exception "Division by zero")
    | .and => return 0
    | .or => return 1
    | _ => return ofBool (v = 0)
  | [l, r] =>
    match op with
    | .plus => return l + r
    | .minus => return l - r
    | .greater => return ofBool (l > r)
    | .less => return ofBool (l < r)
    | .greaterEq => return ofBool (l ≥ r)
    | .lessEq => return ofBool (l ≤ r)
    | .equal => return ofBool (l = r)
    | .notEqual => return ofBool (l ≠ r)
    | .mul => return l * r
    | .mod => remainder l r
    | _ => return ofBool (r ≠ 0)
  | _ :: l :: r :: _ => quotient l r

/-- The operands from those with values `vs` on, and then the operation. -/
def evaluate (fuel : ℕ) (left : INode) (op : Operation) (right : INode) :
    ℕ → List Int32 → Run Int32
  | 0, vs => finish left op vs
  | n + 1, vs =>
    match next left op right vs with
    | none => finish left op vs
    | some node => do
      let v ← node.calc fuel
      evaluate fuel left op right n (vs ++ [v])

/-- **`calc` of an operation follows the order of evaluation.** No operation
evaluates more than three operands. -/
theorem calc_operand (fuel : ℕ) (left : INode) (op : Operation) (right : INode) :
    (operand left op right).calc fuel = evaluate fuel left op right 3 [] := by
  cases op with
  | plus | minus =>
    cases h : left.isNull <;> simp [INode.calc, evaluate, next, finish, h, Run.bind_pure]
  | and | or | div =>
    simp only [INode.calc, evaluate, next, finish]
    congr 1
    ext1 v
    by_cases hv : v = 0 <;> simp [hv]
  | _ => rfl

end INode

end ParaCL
