import CppGraduate.ParaCL.Resolution
import Mathlib.Data.List.AList

/-!
# The objects of a program

The tree of a program once more, now with the objects it consists of. Every
`new` of the parser's actions makes one object more; the nodes of the tree
are pointers to them. Several nodes may point to one `Decl`, which belongs
to the symbol table of the scope that declared it, and to no node.

The actions are those of `Parser.lean`. Forgetting which object is which
leaves the trees built there, for the same programs.
-/

namespace ParaCL

/-! ## Objects and pointers -/

/-- The objects the actions make, by kind and in the order in which they are
made. -/
inductive Obj
  /-- A `Value`, an `Operand`, a `While` or an `If`. -/
  | node (id : ℕ)
  /-- A `Scope`. -/
  | scope (id : ℕ)
  /-- A `Decl`. -/
  | decl (id : ℕ)
deriving DecidableEq

/-- **Pointers to nodes**, with the number of the object pointed to. -/
inductive PNode
  /-- A null pointer. -/
  | null
  /-- `Value` -/
  | value (id : ℕ) (val : Int32)
  /-- `Decl` -/
  | decl (id : ℕ) (varname : String)
  /-- `Scope` with its `Branches_` -/
  | scope (id : ℕ) (branches : List PNode)
  /-- `Operand` -/
  | operand (id : ℕ) (left : PNode) (op : Operation) (right : PNode)
  /-- `While` -/
  | whileNode (id : ℕ) (op scope : PNode)
  /-- `If` -/
  | ifNode (id : ℕ) (op scope : PNode)

/-- `Symtab_local`: the declarations of one scope by name, each name once. -/
abbrev Symbols : Type := AList fun _ : String => ℕ

/-- The declarations in a table. -/
def Symbols.decls (s : Symbols) : List ℕ := s.entries.map Sigma.snd

/-- A scope that is still open. -/
structure PScope where
  /-- Which object it is. -/
  id : ℕ
  /-- `Branches_` -/
  branches : List PNode

/-- The global state of the parser, and how many objects of each kind there
are. -/
structure Heap where
  /-- `CurrentScope` and the chain of its `PrevScope_`. -/
  scopes : List PScope
  /-- `GlobalTable` -/
  table : ℕ → Symbols
  /-- How many nodes were made that are no scopes and no declarations. -/
  nextNode : ℕ
  /-- How many scopes were made. -/
  nextScope : ℕ
  /-- How many declarations were made. -/
  nextDecl : ℕ

namespace Heap

/-- The state after `createScope()`. -/
def start : Heap := ⟨[⟨0, []⟩], fun _ => ∅, 0, 1, 0⟩

/-- `new` of a node that is no scope and no declaration. -/
def new (h : Heap) (mk : ℕ → PNode) : PNode × Heap :=
  (mk h.nextNode, { h with nextNode := h.nextNode + 1 })

/-- `makeValue(V)` -/
def makeValue (h : Heap) (v : Int32) : PNode × Heap := h.new fun id => .value id v

/-- `makeOperand(Lhs, Op, Rhs)` -/
def makeOperand (h : Heap) (lhs : PNode) (op : Operation) (rhs : PNode) : PNode × Heap :=
  h.new fun id => .operand id lhs op rhs

/-- `makeWhile(Op, Scope)` -/
def makeWhile (h : Heap) (op scope : PNode) : PNode × Heap := h.new fun id => .whileNode id op scope

/-- `makeIf(Op, Scope)` -/
def makeIf (h : Heap) (op scope : PNode) : PNode × Heap := h.new fun id => .ifNode id op scope

/-- `CurrentScope = CurrentScope->push()` -/
def push (h : Heap) : Heap :=
  { h with scopes := ⟨h.nextScope, []⟩ :: h.scopes, nextScope := h.nextScope + 1 }

/-- `CurrentScope->addBranch(branch)` -/
def addBranch (h : Heap) (branch : PNode) : Heap :=
  match h.scopes with
  | s :: rest => { h with scopes := { s with branches := s.branches ++ [branch] } :: rest }
  | [] => h

/-- `CurrentScope` as a pointer -/
def currentScope (h : Heap) : PNode :=
  match h.scopes with
  | s :: _ => .scope s.id s.branches
  | [] => .null

/-- `CurrentScope = CurrentScope->resetScope()` -/
def resetScope (h : Heap) : Heap := { h with scopes := h.scopes.tail }

/-- `Scope::visible` through a chain of scopes -/
def visibleIn (table : ℕ → Symbols) (varname : String) : List PScope → Option ℕ
  | [] => none
  | s :: rest =>
    match (table s.id).lookup varname with
    | some id => some id
    | none => visibleIn table varname rest

/-- `CurrentScope->visible(varname)` -/
def visible (h : Heap) (varname : String) : Option PNode :=
  (visibleIn h.table varname h.scopes).map fun id => .decl id varname

/-- `GlobalTable.add(CurrentScope, varname, decl)` -/
def addSymbol (h : Heap) (varname : String) (id : ℕ) : Heap :=
  match h.scopes with
  | s :: _ => { h with table := Function.update h.table s.id ((h.table s.id).insert varname id) }
  | [] => h

/-- `CurrentScope->access(varname)` -/
def access (h : Heap) (varname : String) : PNode × Heap :=
  match h.visible varname with
  | some existing => (existing, h)
  | none =>
    (.decl h.nextDecl varname,
      { h.addSymbol varname h.nextDecl with nextDecl := h.nextDecl + 1 })

end Heap

/-! ## The actions -/

/-- Two operands from left to right, and the operation on them. -/
def Heap.binary (l r : Heap → Except String (PNode × Heap)) (op : Operation) (h : Heap) :
    Except String (PNode × Heap) := do
  let (lhs, h) ← l h
  let (rhs, h) ← r h
  return h.makeOperand lhs op rhs

/-- The actions of `expr` -/
def Expr.build : Expr → Heap → Except String (PNode × Heap)
  | .plus l r, h => h.binary l.build r.build .plus
  | .minus l r, h => h.binary l.build r.build .minus
  | .mul l r, h => h.binary l.build r.build .mul
  | .div l r, h => h.binary l.build r.build .div
  | .mod l r, h => h.binary l.build r.build .mod
  | .uminus e, h => do
    let (rhs, h) ← e.build h
    let (zero, h) := h.makeValue 0
    return h.makeOperand zero .minus rhs
  | .name x, h =>
    match h.visible x with
    | some decl => .ok (decl, h)
    | none => .error undeclaredVariable
  | .value v, h => .ok (h.makeValue v)
  | .input, h => .ok (h.makeOperand .null .stdIn .null)

/-- The actions of `lexpr` -/
def LExpr.build : LExpr → Heap → Except String (PNode × Heap)
  | .expr e, h => e.build h
  | .rel l op r, h => h.binary l.build r.build op.operation
  | .or l r, h => h.binary l.build r.build .or
  | .and l r, h => h.binary l.build r.build .and
  | .not e, h => do
    let (rhs, h) ← e.build h
    return h.makeOperand .null .not rhs

mutual

/-- The actions of `stm` -/
def Stm.build : Stm → Heap → Except String (PNode × Heap)
  | .assign x e, h => do
    let (lval, h) := h.access x
    let (rhs, h) ← e.build h
    return h.makeOperand lval .assign rhs
  | .ifStm c body, h => do
    let (cond, h) ← c.build h
    let (node, h) ← body.build h.push
    let h := h.addBranch node
    let (node, h) := h.makeIf cond h.currentScope
    return (node, h.resetScope)
  | .whileStm c body, h => do
    let (cond, h) ← c.build h
    let (node, h) ← body.build h.push
    let h := h.addBranch node
    let (node, h) := h.makeWhile cond h.currentScope
    return (node, h.resetScope)
  | .output e, h => do
    let (rhs, h) ← e.build h
    return h.makeOperand .null .stdOut rhs

/-- The actions of `stm` and of `scope` -/
def Body.build : Body → Heap → Except String (PNode × Heap)
  | .stm s, h => s.build h
  | .scope ss, h => do
    let h ← ss.build h.push
    return (h.currentScope, h.resetScope)

/-- The actions of `stms` -/
def Stms.build : Stms → Heap → Except String Heap
  | .first s, h => do
    let (node, h) ← s.build h
    return h.addBranch node
  | .next ss b, h => do
    let h ← ss.build h
    let (node, h) ← b.build h
    return h.addBranch node

end

/-- The actions of `program` up to the last one: the root of the tree, and
all objects there are -/
def buildProgram (ss : Stms) : Except String (PNode × Heap) := do
  let h ← ss.build Heap.start
  return (h.currentScope, h)

/-! ## Forgetting the objects -/

mutual

/-- The tree of a pointer. -/
def PNode.erase : PNode → INode
  | .null => .null
  | .value _ val => .value val
  | .decl id varname => .decl id varname
  | .scope _ branches => eraseBranches .emptyScope branches
  | .operand _ left op right => .operand left.erase op right.erase
  | .whileNode _ op body => .whileNode op.erase body.erase
  | .ifNode _ op body => .ifNode op.erase body.erase

/-- A scope with the trees of branches. -/
def PNode.eraseBranches : INode → List PNode → INode
  | s, [] => s
  | s, b :: bs => eraseBranches (.addBranch s b.erase) bs

end

/-- One branch more. -/
theorem PNode.eraseBranches_append (s : INode) (bs : List PNode) (b : PNode) :
    eraseBranches s (bs ++ [b]) = .addBranch (eraseBranches s bs) b.erase := by
  induction bs generalizing s with
  | nil => rfl
  | cons c bs ih => exact ih (.addBranch s c.erase)

/-- An open scope without its object. -/
def PScope.erase (s : PScope) : OpenScope := ⟨s.id, PNode.eraseBranches .emptyScope s.branches⟩

/-- **A state without the objects.** -/
structure Heap.Erases (h : Heap) (p : Parser) : Prop where
  scopes : p.scopes = h.scopes.map PScope.erase
  table : ∀ i x, p.table i x = (h.table i).lookup x
  nextScope : p.nextScope = h.nextScope
  nextDecl : p.nextDecl = h.nextDecl

/-- Both fail with the same error, or both succeed with related results. -/
def Agree {α β : Type} (R : α → β → Prop) : Except String α → Except String β → Prop
  | .ok a, .ok b => R a b
  | .error m, .error m' => m = m'
  | _, _ => False

/-- One after another. -/
theorem Agree.bind {α β γ δ : Type} {R : α → β → Prop} {S : γ → δ → Prop}
    {x : Except String α} {y : Except String β} {f : α → Except String γ}
    {g : β → Except String δ} (h : Agree R x y) (hfg : ∀ a b, R a b → Agree S (f a) (g b)) :
    Agree S (x >>= f) (y >>= g) := by
  match x, y, h with
  | .ok a, .ok b, h => exact hfg a b h
  | .error m, .error m', h => exact h

namespace Heap

/-- At the beginning. -/
theorem erases_start : start.Erases Parser.start := ⟨rfl, fun _ _ => rfl, rfl, rfl⟩

variable {h : Heap} {p : Parser}

/-- Opening a scope. -/
theorem Erases.push (he : h.Erases p) : h.push.Erases p.push where
  scopes := by
    show (⟨p.nextScope, .emptyScope⟩ :: p.scopes : List OpenScope) = _
    rw [he.scopes, he.nextScope]
    rfl
  table := he.table
  nextScope := congrArg (· + 1) he.nextScope
  nextDecl := he.nextDecl

/-- Adding a branch. -/
theorem Erases.addBranch (he : h.Erases p) (n : PNode) :
    (h.addBranch n).Erases (p.addBranch n.erase) := by
  unfold Heap.addBranch Parser.addBranch
  cases hs : h.scopes with
  | nil =>
    have hp : p.scopes = [] := he.scopes.trans (by rw [hs, List.map_nil])
    rw [hp]
    exact he
  | cons s rest =>
    have hp : p.scopes = s.erase :: rest.map PScope.erase :=
      he.scopes.trans (by rw [hs, List.map_cons])
    rw [hp]
    refine ⟨?_, he.table, he.nextScope, he.nextDecl⟩
    rw [List.map_cons]
    refine congrArg (· :: rest.map PScope.erase) ?_
    unfold PScope.erase
    rw [PNode.eraseBranches_append]

/-- Closing a scope. -/
theorem Erases.resetScope (he : h.Erases p) : h.resetScope.Erases p.resetScope where
  scopes := by
    show p.scopes.tail = h.scopes.tail.map PScope.erase
    rw [he.scopes, List.map_tail]
  table := he.table
  nextScope := he.nextScope
  nextDecl := he.nextDecl

/-- The current scope. -/
theorem Erases.currentScope (he : h.Erases p) : p.currentScope = h.currentScope.erase := by
  unfold Heap.currentScope Parser.currentScope
  rw [he.scopes]
  cases h.scopes <;> rfl

/-- What is visible. -/
theorem Erases.env (he : h.Erases p) (x : String) : p.env x = visibleIn h.table x h.scopes := by
  unfold Parser.env
  rw [he.scopes]
  induction h.scopes with
  | nil => rfl
  | cons s rest ih =>
    rw [List.map_cons, Parser.visibleIn, visibleIn, ih]
    show (match p.table s.id x with | some id => _ | none => _) = _
    rw [he.table]

/-- A new node is forgotten. -/
theorem Erases.new (he : h.Erases p) (mk : ℕ → PNode) : (h.new mk).2.Erases p :=
  ⟨he.scopes, he.table, he.nextScope, he.nextDecl⟩

/-- The left-hand side of an assignment. -/
theorem Erases.access (he : h.Erases p) (x : String) :
    (p.access x).1 = (h.access x).1.erase ∧ (h.access x).2.Erases (p.access x).2 := by
  unfold Heap.access Parser.access Heap.visible Parser.visible
  rw [he.env]
  cases visibleIn h.table x h.scopes with
  | some id => exact ⟨rfl, he⟩
  | none =>
    refine ⟨congrArg (INode.decl · x) he.nextDecl, ?_⟩
    unfold Heap.addSymbol Parser.addSymbol
    cases hs : h.scopes with
    | nil =>
      have hp : p.scopes = [] := he.scopes.trans (by rw [hs, List.map_nil])
      rw [Option.map_none, hp]
      exact ⟨he.scopes, he.table, he.nextScope, congrArg (· + 1) he.nextDecl⟩
    | cons s rest =>
      have hp : p.scopes = s.erase :: rest.map PScope.erase :=
        he.scopes.trans (by rw [hs, List.map_cons])
      rw [Option.map_none, hp]
      refine ⟨rfl, fun i y => ?_, he.nextScope, congrArg (· + 1) he.nextDecl⟩
      show Function.update p.table s.id (Function.update (p.table s.id) x (some p.nextDecl)) i y
        = (Function.update h.table s.id ((h.table s.id).insert x h.nextDecl) i).lookup y
      rw [Function.update_apply, Function.update_apply]
      split_ifs with hi
      · rw [Function.update_apply, he.nextDecl]
        split_ifs with hy
        · rw [hy, AList.lookup_insert]
        · rw [AList.lookup_insert_ne hy, he.table]
      · exact he.table i y

end Heap

/-- **The same phrase** read with and without objects: the tree of the
pointer, and the state without the objects. -/
def Erased (r : PNode × Heap) (s : INode × Parser) : Prop := s.1 = r.1.erase ∧ r.2.Erases s.2

/-- An operation on two operands. -/
theorem agree_binary {p : Parser} {l r : Heap → Except String (PNode × Heap)}
    {a b : Except String INode} (op : Operation)
    (hl : ∀ h, h.Erases p → Agree (fun r n => Erased r (n, p)) (l h) a)
    (hr : ∀ h, h.Erases p → Agree (fun r n => Erased r (n, p)) (r h) b) {h : Heap}
    (he : h.Erases p) :
    Agree (fun r n => Erased r (n, p)) (h.binary l r op) (do return .operand (← a) op (← b)) := by
  refine (hl h he).bind fun x m hx => (hr x.2 hx.2).bind fun y n hy => ?_
  exact ⟨congrArg₂ (INode.operand · op ·) hx.1 hy.1, hy.2.new _⟩

/-- **Expressions** are read alike. -/
theorem Expr.build_agree {p : Parser} (e : Expr) {h : Heap} (he : h.Erases p) :
    Agree (fun r n => Erased r (n, p)) (e.build h) (e.parse p) := by
  induction e generalizing h with
  | plus l r ihl ihr | minus l r ihl ihr | mul l r ihl ihr | div l r ihl ihr
  | mod l r ihl ihr => exact agree_binary _ (fun _ => ihl) (fun _ => ihr) he
  | uminus e ih =>
    refine (ih he).bind fun x m hx => ?_
    exact ⟨congrArg (INode.operand (.value 0) .minus ·) hx.1,
      (hx.2.new fun id => .value id 0).new _⟩
  | name x =>
    unfold Expr.build Expr.parse Heap.visible Parser.visible
    rw [he.env]
    cases Heap.visibleIn h.table x h.scopes with
    | some id => exact ⟨rfl, he⟩
    | none => rfl
  | value v => exact ⟨rfl, he.new _⟩
  | input => exact ⟨rfl, he.new _⟩

/-- **Conditions** are read alike. -/
theorem LExpr.build_agree {p : Parser} (e : LExpr) {h : Heap} (he : h.Erases p) :
    Agree (fun r n => Erased r (n, p)) (e.build h) (e.parse p) := by
  induction e generalizing h with
  | expr e => exact e.build_agree he
  | rel l op r => exact agree_binary _ (fun _ => l.build_agree) (fun _ => r.build_agree) he
  | or l r ihl ihr | and l r ihl ihr => exact agree_binary _ (fun _ => ihl) (fun _ => ihr) he
  | not e ih =>
    refine (ih he).bind fun x m hx => ?_
    exact ⟨congrArg (INode.operand .null .not ·) hx.1, hx.2.new _⟩

mutual

/-- **Statements** are read alike. -/
theorem Stm.build_agree : ∀ (s : Stm) {h : Heap} {p : Parser}, h.Erases p →
    Agree Erased (s.build h) (s.parse p)
  | .assign x e, h, p, he => by
    obtain ⟨hlval, hstate⟩ := he.access x
    unfold Stm.build Stm.parse
    refine (e.build_agree hstate).bind fun y n hy => ?_
    exact ⟨congrArg₂ (INode.operand · .assign ·) hlval hy.1, hy.2.new _⟩
  | .output e, h, p, he => by
    unfold Stm.build Stm.parse
    refine (e.build_agree he).bind fun y n hy => ?_
    exact ⟨congrArg (INode.operand .null .stdOut ·) hy.1, hy.2.new _⟩
  | .ifStm c body, h, p, he => by
    unfold Stm.build Stm.parse
    refine (c.build_agree he).bind fun x cond hx => ?_
    refine (Body.build_agree body hx.2.push).bind fun y r hy => ?_
    have hadd := hy.2.addBranch y.1
    rw [← hy.1] at hadd
    exact ⟨congrArg₂ INode.ifNode hx.1 hadd.currentScope,
      (hadd.new (PNode.ifNode · x.1 (y.2.addBranch y.1).currentScope)).resetScope⟩
  | .whileStm c body, h, p, he => by
    unfold Stm.build Stm.parse
    refine (c.build_agree he).bind fun x cond hx => ?_
    refine (Body.build_agree body hx.2.push).bind fun y r hy => ?_
    have hadd := hy.2.addBranch y.1
    rw [← hy.1] at hadd
    exact ⟨congrArg₂ INode.whileNode hx.1 hadd.currentScope,
      (hadd.new (PNode.whileNode · x.1 (y.2.addBranch y.1).currentScope)).resetScope⟩

/-- **Statements and blocks** are read alike. -/
theorem Body.build_agree : ∀ (b : Body) {h : Heap} {p : Parser}, h.Erases p →
    Agree Erased (b.build h) (b.parse p)
  | .stm s, h, p, he => Stm.build_agree s he
  | .scope ss, h, p, he => by
    unfold Body.build Body.parse
    refine (Stms.build_agree ss he.push).bind fun h' p' he' => ?_
    exact ⟨he'.currentScope, he'.resetScope⟩

/-- **Lists of statements** are read alike. -/
theorem Stms.build_agree : ∀ (ss : Stms) {h : Heap} {p : Parser}, h.Erases p →
    Agree Heap.Erases (ss.build h) (ss.parse p)
  | .first s, h, p, he => by
    unfold Stms.build Stms.parse
    refine (Stm.build_agree s he).bind fun x r hx => ?_
    have hadd := hx.2.addBranch x.1
    rwa [← hx.1] at hadd
  | .next ss b, h, p, he => by
    unfold Stms.build Stms.parse
    refine (Stms.build_agree ss he).bind fun h' p' he' => ?_
    refine (Body.build_agree b he').bind fun x r hx => ?_
    have hadd := hx.2.addBranch x.1
    rwa [← hx.1] at hadd

end

/-- **The objects of an accepted program** make up its tree: `buildProgram`
accepts the programs that `parseProgram` accepts, and builds their trees. -/
theorem buildProgram_agree (ss : Stms) :
    Agree (fun r s => s.1 = r.1.erase) (buildProgram ss) (parseProgram ss) :=
  (Stms.build_agree ss Heap.erases_start).bind fun _ _ he => he.currentScope

end ParaCL
