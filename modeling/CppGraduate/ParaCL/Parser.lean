import CppGraduate.ParaCL.Codegen

/-!
# The parser's actions

What the semantic actions of the grammar do, in the order in which a
bottom-up parser executes them. They work on global state: the chain of open
scopes, the symbol table, which remembers for every scope the declarations
made in it, and the code generator, which is told of every declaration.

The action of the left-hand side of an assignment runs before its right-hand
side is parsed. A name that is not visible is declared there, in the
innermost open scope; reading one is an error.

In a build without code generation the generator stays away; nothing of the
tree depends on it.
-/

namespace ParaCL

/-- A scope that is still open: which one it is, and the node with the
branches it has so far. -/
structure OpenScope where
  /-- The identity of the scope object. -/
  id : ℕ
  /-- The scope with its branches. -/
  node : INode

/-- The global state of the parser. -/
structure Parser where
  /-- `CurrentScope` and the chain of its `PrevScope_`. -/
  scopes : List OpenScope
  /-- `GlobalTable`: for each scope object and name, which `Decl` of that
  name was made there. -/
  table : ℕ → String → Option ℕ
  /-- The identity of the next scope object. -/
  nextScope : ℕ
  /-- The identity of the next declaration. -/
  nextDecl : ℕ
  /-- `GlobalGen` -/
  gen : CodeGen

namespace Parser

/-- The state after `createScope()` and `StartFunction`. -/
def start : Parser := ⟨[⟨0, .emptyScope⟩], fun _ _ => none, 1, 0, CodeGen.start⟩

/-- `CurrentScope = CurrentScope->push()` -/
def push (p : Parser) : Parser :=
  { p with scopes := ⟨p.nextScope, .emptyScope⟩ :: p.scopes, nextScope := p.nextScope + 1 }

/-- `CurrentScope->addBranch(branch)` -/
def addBranch (p : Parser) (branch : INode) : Parser :=
  match p.scopes with
  | s :: rest => { p with scopes := { s with node := .addBranch s.node branch } :: rest }
  | [] => p

/-- `CurrentScope` as a node -/
def currentScope (p : Parser) : INode :=
  match p.scopes with
  | s :: _ => s.node
  | [] => .null

/-- `CurrentScope = CurrentScope->resetScope()` -/
def resetScope (p : Parser) : Parser := { p with scopes := p.scopes.tail }

/-- `Scope::visible` through a chain of scopes -/
def visibleIn (table : ℕ → String → Option ℕ) (varname : String) : List OpenScope → Option ℕ
  | [] => none
  | s :: rest =>
    match table s.id varname with
    | some id => some id
    | none => visibleIn table varname rest

/-- Which declaration of a name is visible. -/
def env (p : Parser) (varname : String) : Option ℕ := visibleIn p.table varname p.scopes

/-- `CurrentScope->visible(varname)` -/
def visible (p : Parser) (varname : String) : Option INode :=
  (p.env varname).map fun id => .decl id varname

/-- `GlobalTable.add(CurrentScope, varname, decl)` -/
def addSymbol (p : Parser) (varname : String) (id : ℕ) : Parser :=
  match p.scopes with
  | s :: _ =>
    { p with table := Function.update p.table s.id
               (Function.update (p.table s.id) varname (some id)) }
  | [] => p

/-- `CurrentScope->access(varname)` -/
def access (p : Parser) (varname : String) : INode × Parser :=
  match p.visible varname with
  | some existing => (existing, p)
  | none =>
    (.decl p.nextDecl varname, { p.addSymbol varname p.nextDecl with
      nextDecl := p.nextDecl + 1, gen := p.gen.addDecl varname })

end Parser

/-- The text of the error for a name that is not visible. -/
def undeclaredVariable : String := "Using undeclared variable"

/-- The actions of `expr` -/
def Expr.parse (p : Parser) : Expr → Except String INode
  | .plus l r => do return .operand (← l.parse p) .plus (← r.parse p)
  | .minus l r => do return .operand (← l.parse p) .minus (← r.parse p)
  | .mul l r => do return .operand (← l.parse p) .mul (← r.parse p)
  | .div l r => do return .operand (← l.parse p) .div (← r.parse p)
  | .mod l r => do return .operand (← l.parse p) .mod (← r.parse p)
  | .uminus e => do return .operand (.value 0) .minus (← e.parse p)
  | .name x =>
    match p.visible x with
    | some decl => .ok decl
    | none => .error undeclaredVariable
  | .value v => .ok (.value v)
  | .input => .ok (.operand .null .stdIn .null)

/-- The operation a `RELOP` token carries. -/
def RelOp.operation : RelOp → Operation
  | .equal => .equal
  | .notEqual => .notEqual
  | .less => .less
  | .greater => .greater
  | .lessEq => .lessEq
  | .greaterEq => .greaterEq

/-- The actions of `lexpr` -/
def LExpr.parse (p : Parser) : LExpr → Except String INode
  | .expr e => e.parse p
  | .rel l op r => do return .operand (← l.parse p) op.operation (← r.parse p)
  | .or l r => do return .operand (← l.parse p) .or (← r.parse p)
  | .and l r => do return .operand (← l.parse p) .and (← r.parse p)
  | .not e => do return .operand .null .not (← e.parse p)

mutual

/-- The actions of `stm` -/
def Stm.parse : Stm → Parser → Except String (INode × Parser)
  | .assign x e, p => do
    let (lval, p) := p.access x
    return (.operand lval .assign (← e.parse p), p)
  | .ifStm c body, p => do
    let cond ← c.parse p
    let (node, p) ← body.parse p.push
    let p := p.addBranch node
    return (.ifNode cond p.currentScope, p.resetScope)
  | .whileStm c body, p => do
    let cond ← c.parse p
    let (node, p) ← body.parse p.push
    let p := p.addBranch node
    return (.whileNode cond p.currentScope, p.resetScope)
  | .output e, p => do
    return (.operand .null .stdOut (← e.parse p), p)

/-- The actions of `stm` and of `scope` -/
def Body.parse : Body → Parser → Except String (INode × Parser)
  | .stm s, p => s.parse p
  | .scope ss, p => do
    let p ← ss.parse p.push
    return (p.currentScope, p.resetScope)

/-- The actions of `stms` -/
def Stms.parse : Stms → Parser → Except String Parser
  | .first s, p => do
    let (node, p) ← s.parse p
    return p.addBranch node
  | .next ss b, p => do
    let p ← ss.parse p
    let (node, p) ← b.parse p
    return p.addBranch node

end

/-- The actions of `program` up to the last one: the tree of the program and
the generator that knows its declarations -/
def parseProgram (ss : Stms) : Except String (INode × CodeGen) := do
  let p ← ss.parse Parser.start
  return (p.currentScope, p.gen)

end ParaCL
