import CppGraduate.ParaCL.Nodes

/-!
# Code generation

The global code generator and what the nodes' `codegen` does with it. It
keeps the builder, and for each name the slot of the `alloca` made for the
last declaration of that name; the slots themselves are made while the
program is parsed, at the beginning of the entry block.

A call of `codegen` yields the value of the node, or no value where the
source has a null pointer or the result of a call of type `void`. It can
fail where the source asserts, dereferences a null pointer or throws.

The functions `__pcl_print` and `__pcl_scan` of the library that generated
modules are linked with are the output and the input of the machine:
printing is what the interpreter does, and a failed read ends the process.
-/

namespace ParaCL

open Ir

/-- The global generator: `Builder_`, `NamedValues_` and the number of slots
made so far. The function has one entry block, number 0. -/
structure CodeGen where
  /-- `Builder_` -/
  builder : Builder
  /-- `NamedValues_` -/
  namedValues : String → Option ℕ
  /-- The number of the next slot. -/
  nextSlot : ℕ

/-- The ways code generation can fail. -/
inductive GenFault
  /-- `assert(cond)` -/
  | assertFailed (cond : String)
  /-- A null pointer was used as a value or a node. -/
  | nullPointer
  /-- A cast to `Decl` of another node. -/
  | badCast
  /-- `std::runtime_error("Node::Operation not implemented")` -/
  | notImplemented
deriving DecidableEq

/-- Computations on the global generator. -/
def Gen (α : Type) : Type := CodeGen → Except GenFault (α × CodeGen)

instance : Monad Gen where
  pure a := fun g => .ok (a, g)
  bind m f := fun g =>
    match m g with
    | .ok (a, g') => f a g'
    | .error e => .error e

namespace Gen

variable {α β : Type}

@[simp]
theorem pure_apply (a : α) (g : CodeGen) : (pure a : Gen α) g = .ok (a, g) :=
  rfl

/-- Generation goes on after a part that did not fail. -/
theorem bind_ok {m : Gen α} {f : α → Gen β} {g g' : CodeGen} {a : α} (h : m g = .ok (a, g')) :
    (m >>= f) g = f a g' := by
  show (match m g with | .ok (a, g') => f a g' | .error e => .error e) = _
  rw [h]

/-- A failure. -/
def fail (e : GenFault) : Gen α := fun _ => .error e

/-- A pointer that must not be null. -/
def need : Option Value → Gen Value
  | some v => pure v
  | none => fail .nullPointer

/-- An instruction at the insertion point. -/
def emit (i : Instr) : Gen Unit := fun g => .ok ((), { g with builder := g.builder.emit i })

/-- An instruction at the insertion point whose result is a value of type
`ty`. -/
def emitReg (ty : Ty) (i : ℕ → Instr) : Gen (Option Value) := fun g =>
  .ok (some (.reg ty g.builder.nextReg), { g with builder := g.builder.emitReg i })

/-- A new block. -/
def createBlock : Gen ℕ := fun g =>
  .ok (g.builder.nextBlock, { g with builder := g.builder.createBlock })

/-- Move the insertion point. -/
def setInsertPoint (block : ℕ) : Gen Unit := fun g =>
  .ok ((), { g with builder := g.builder.setInsertPoint block })

end Gen

namespace CodeGen

/-- `createCodeGen`, then `StartFunction`: an empty entry block. -/
def start : CodeGen := ⟨Builder.start, fun _ => none, 0⟩

/-- `AddDecl(Varname)`: a slot at the beginning of the entry block, under
that name from now on. -/
def addDecl (g : CodeGen) (varname : String) : CodeGen where
  builder := g.builder.prepend 0 (.alloca g.nextSlot)
  namedValues := Function.update g.namedValues varname (some g.nextSlot)
  nextSlot := g.nextSlot + 1

/-- `AddDeclRead(Varname)` -/
def addDeclRead (varname : String) : Gen (Option Value) := fun g =>
  match g.namedValues varname with
  | some slot => Gen.emitReg .i32 (fun dst => .load dst slot) g
  | none => .error (.assertFailed "V")

/-- `AddDeclWrite(Varname, Rhs)` -/
def addDeclWrite (varname : String) (rhs : Option Value) : Gen (Option Value) := fun g =>
  match g.namedValues varname with
  | some slot => (do
      let rhs ← Gen.need rhs
      Gen.emit (.store rhs slot)
      return none) g
  | none => .error (.assertFailed "V")

/-- `StartIf(CondV)` -/
def startIf (condV : Option Value) : Gen ℕ := do
  let thenBB ← Gen.createBlock
  let mergeBB ← Gen.createBlock
  let condV ← Gen.need condV
  Gen.emit (.condBr condV thenBB mergeBB)
  Gen.setInsertPoint thenBB
  return mergeBB

/-- `EndIf(MergeBB)` -/
def endIf (mergeBB : ℕ) : Gen Unit := do
  Gen.emit (.br mergeBB)
  Gen.setInsertPoint mergeBB

/-- `StartWhile(CondV)` -/
def startWhile (condV : Option Value) : Gen (ℕ × ℕ) := do
  let bodyBB ← Gen.createBlock
  let mergeBB ← Gen.createBlock
  let condV ← Gen.need condV
  Gen.emit (.condBr condV bodyBB mergeBB)
  Gen.setInsertPoint bodyBB
  return (bodyBB, mergeBB)

/-- `EndWhile(CondV, BBs)` -/
def endWhile (condV : Option Value) (bbs : ℕ × ℕ) : Gen Unit := do
  let condV ← Gen.need condV
  Gen.emit (.condBr condV bbs.1 bbs.2)
  Gen.setInsertPoint bbs.2

/-- The zero of type `i32`. -/
def zero : Value := .const (.word 0)

/-- The all-ones constant of a type. -/
def allOnes : Ty → Value
  | .i1 => .const (.bit true)
  | .i32 => .const (.word (-1))

/-- An operation on two values; its type is that of the left one. -/
def createBin (op : BinOp) (leftV rightV : Option Value) : Gen (Option Value) := do
  let leftV ← Gen.need leftV
  let rightV ← Gen.need rightV
  Gen.emitReg leftV.ty (fun dst => .bin dst op leftV rightV)

/-- A comparison of two values. -/
def createICmp (p : Pred) (leftV rightV : Option Value) : Gen (Option Value) := do
  let leftV ← Gen.need leftV
  let rightV ← Gen.need rightV
  Gen.emitReg .i1 (fun dst => .icmp dst p leftV rightV)

/-- `AddOperation(Op, LeftV, RightV)` -/
def addOperation (op : Operation) (leftV rightV : Option Value) : Gen (Option Value) :=
  match op with
  | .plus => createBin .add (leftV.or (some zero)) rightV
  | .minus => createBin .sub (leftV.or (some zero)) rightV
  | .greater => createICmp .sgt leftV rightV
  | .less => createICmp .slt leftV rightV
  | .greaterEq => createICmp .sge leftV rightV
  | .lessEq => createICmp .sle leftV rightV
  | .stdOut => do
    let rightV ← Gen.need rightV
    Gen.emit (.output rightV)
    return none
  | .stdIn => Gen.emitReg .i32 .input
  | .equal => createICmp .eq leftV rightV
  | .notEqual => createICmp .ne leftV rightV
  | .not => do
    let rightV ← Gen.need rightV
    createBin .xor (some rightV) (some (allOnes rightV.ty))
  | .and => createBin .and leftV rightV
  | .or => createBin .or leftV rightV
  | .div => createBin .sdiv leftV rightV
  | .mul => createBin .mul leftV rightV
  | .mod => createBin .srem leftV rightV
  | .assign => Gen.fail .notImplemented

end CodeGen

/-- `static_cast<Node::Decl *>(node)->assign(Rhs)` -/
def INode.assign (node : INode) (rhs : Option Value) : Gen (Option Value) :=
  match node with
  | .decl _ varname => CodeGen.addDeclWrite varname rhs
  | _ => Gen.fail .badCast

/-- `codegen()` -/
def INode.codegen : INode → Gen (Option Value)
  | .null => Gen.fail .nullPointer
  | .value val => return some (.const (.word val))
  | .decl _ varname => CodeGen.addDeclRead varname
  | .emptyScope => return none
  | .addBranch scope branch => do
    let _ ← scope.codegen
    let _ ← branch.codegen
    return none
  | .operand left op right => do
    let leftV ← (if left.isNull then pure none else left.codegen)
    let rightV ← (if right.isNull then pure none else right.codegen)
    if op = .assign then left.assign rightV
    else CodeGen.addOperation op leftV rightV
  | .whileNode op scope => do
    let condV ← op.codegen
    let bbs ← CodeGen.startWhile condV
    let _ ← scope.codegen
    let condVNew ← op.codegen
    CodeGen.endWhile condVNew bbs
    return none
  | .ifNode op scope => do
    let condV ← op.codegen
    let mergeBB ← CodeGen.startIf condV
    let _ ← scope.codegen
    CodeGen.endIf mergeBB
    return none

/-- `CurrentScope->codegen()`, then `EndCurrentFunction()`: the finished
function -/
def compile (root : INode) (g : CodeGen) : Except GenFault Code := do
  let (_, g) ← (do
    let _ ← root.codegen
    Gen.emit .ret) g
  return g.builder.code

/-- `__pcl_scan` and `__pcl_print` -/
def pcllib : Env Stdio where
  input io := if io.read.2.failed then none else some io.read
  output n io := io.print n

/-- A machine at the beginning of a function. -/
def entry (code : Code) (io : Stdio) : Config Stdio :=
  .running ⟨code 0, fun _ => none, fun _ => none, io⟩

end ParaCL
