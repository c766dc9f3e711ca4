import CppGraduate.ParaCL.Runs

/-!
# The trees the grammar builds and what they mean

An expression tree has a meaning that mentions neither the interpreter nor
the generated code: a function of the values of the variables and of the
integers that stand for its `?` leaves, numbered from left to right, with
both operands of every operation evaluated once. It has no meaning where
some operation has none.

A tree is scoped when every name it reads is resolved to the declaration
that is visible there. What is visible is followed through the tree as the
parser's actions follow it through the program: an assignment to a new name
makes it visible to what comes later in the same scope.
-/

namespace ParaCL

/-! ## Operations -/

namespace Operation

/-- The arithmetic operations. -/
def IsArith (op : Operation) : Prop :=
  op = .plus ∨ op = .minus ∨ op = .mul ∨ op = .div ∨ op = .mod

/-- The comparisons. -/
def IsRel (op : Operation) : Prop :=
  op = .equal ∨ op = .notEqual ∨ op = .less ∨ op = .greater ∨ op = .lessEq ∨ op = .greaterEq

instance (op : Operation) : Decidable op.IsArith :=
  inferInstanceAs (Decidable (_ ∨ _))

instance (op : Operation) : Decidable op.IsRel :=
  inferInstanceAs (Decidable (_ ∨ _))

/-- What an operation makes of the values of both its operands, where that
is defined. -/
def apply : Operation → Int32 → Int32 → Option Int32
  | .plus, l, r => some (l + r)
  | .minus, l, r => some (l - r)
  | .mul, l, r => some (l * r)
  | .div, l, r => if Ir.divisible l r then some (l / r) else none
  | .mod, l, r => if Ir.divisible l r then some (l % r) else none
  | .greater, l, r => some (ofBool (l > r))
  | .less, l, r => some (ofBool (l < r))
  | .greaterEq, l, r => some (ofBool (l ≥ r))
  | .lessEq, l, r => some (ofBool (l ≤ r))
  | .equal, l, r => some (ofBool (l = r))
  | .notEqual, l, r => some (ofBool (l ≠ r))
  | .and, l, r => some (ofBool (l ≠ 0 && r ≠ 0))
  | .or, l, r => some (ofBool (l ≠ 0 || r ≠ 0))
  | _, _, _ => none

end Operation

namespace INode

/-! ## Shapes -/

/-- The trees of `expr`. -/
def IsExpr : INode → Prop
  | .value _ | .decl _ _ => True
  | .operand l op r =>
    if op = .stdIn then l = .null ∧ r = .null
    else op.IsArith ∧ l.IsExpr ∧ r.IsExpr
  | _ => False

/-- The trees of `lexpr`. -/
def IsCond : INode → Prop
  | .operand l op r =>
    if op = .not then l = .null ∧ r.IsCond
    else if op = .and ∨ op = .or then l.IsCond ∧ r.IsCond
    else if op.IsRel then l.IsExpr ∧ r.IsExpr
    else (INode.operand l op r).IsExpr
  | n => n.IsExpr

/-- No `&&` and no `||` in the tree. -/
def NoAndOr : INode → Prop
  | .operand l op r => op ≠ .and ∧ op ≠ .or ∧ l.NoAndOr ∧ r.NoAndOr
  | _ => True

/-! ## Meaning -/

/-- How many `?` leaves a tree has. -/
def inputs : INode → ℕ
  | .operand l op r => if op = .stdIn then 1 else l.inputs + r.inputs
  | _ => 0

/-- **The meaning of an expression**: its value when `vals` are the values
of the variables and `ints` the integers in the place of the `?` leaves. -/
def meaning (vals : ℕ → Option Int32) (ints : ℕ → Int32) : INode → Option Int32
  | .value v => some v
  | .decl id _ => vals id
  | .operand l op r =>
    if op = .stdIn then some (ints 0)
    else if op = .not then (r.meaning vals ints).map fun v => ofBool (v = 0)
    else
      (l.meaning vals ints).bind fun a =>
        (r.meaning vals fun k => ints (l.inputs + k)).bind fun b => op.apply a b
  | _ => none

/-- No division has a `?` in its divisor. -/
def InputFreeDivisors : INode → Prop
  | .operand l op r =>
    l.InputFreeDivisors ∧ r.InputFreeDivisors ∧ (op = .div → r.inputs = 0)
  | _ => True

/-! ## Scopes -/

/-- The declarations that are visible, by name. -/
abbrev Env := String → Option ℕ

/-- Every name the expression reads is resolved to the visible
declaration. -/
def Reads (env : Env) : INode → Prop
  | .null | .value _ => True
  | .decl id x => env x = some id
  | .operand l _ r => l.Reads env ∧ r.Reads env
  | _ => False

/-- What is visible after a branch of a scope: an assignment makes its name
visible. -/
def branchAfter (env : Env) : INode → Env
  | .operand (.decl id x) .assign _ => Function.update env x (some id)
  | _ => env

/-- What is visible after the branches of a scope. -/
def scopeAfter (env : Env) : INode → Env
  | .addBranch scope branch => branch.branchAfter (scope.scopeAfter env)
  | _ => env

/-- The declaration an assignment writes is the visible one of its name, or
a new one of a name that is not visible. -/
def Resolves (env : Env) (id : ℕ) (x : String) : Prop :=
  env x = some id ∨ env x = none ∧ ∀ y, env y ≠ some id

/-- **The trees of statements and scopes**, with every name resolved to the
declaration visible where it stands. -/
def Scoped (env : Env) : INode → Prop
  | .emptyScope => True
  | .addBranch scope branch => scope.Scoped env ∧ branch.Scoped (scope.scopeAfter env)
  | .whileNode op scope | .ifNode op scope => op.IsCond ∧ op.Reads env ∧ scope.Scoped env
  | .operand l op r =>
    (op = .stdOut ∧ l = .null ∧ r.IsExpr ∧ r.Reads env)
      ∨ (op = .assign ∧ ∃ id x, l = .decl id x ∧ Resolves env id x ∧ r.IsExpr
          ∧ r.Reads (Function.update env x (some id)))
  | _ => False

/-- The declarations an expression reads. -/
def ReadsDecl (id : ℕ) : INode → Prop
  | .decl id' _ => id' = id
  | .operand l _ r => l.ReadsDecl id ∨ r.ReadsDecl id
  | _ => False

/-- Every declaration in the tree has a name that `named` knows. -/
def Named (named : String → Option ℕ) : INode → Prop
  | .decl _ x => (named x).isSome
  | .operand l _ r | .addBranch l r | .whileNode l r | .ifNode l r => l.Named named ∧ r.Named named
  | _ => True

/-! ## Facts about shapes -/

/-- More names are known. -/
theorem Named.mono {named named' : String → Option ℕ}
    (h : ∀ x, (named x).isSome → (named' x).isSome) {n : INode} (hn : n.Named named) :
    n.Named named' := by
  induction n with
  | decl id x => exact h x hn
  | operand l op r ihl ihr => exact ⟨ihl hn.1, ihr hn.2⟩
  | addBranch l r ihl ihr => exact ⟨ihl hn.1, ihr hn.2⟩
  | whileNode l r ihl ihr => exact ⟨ihl hn.1, ihr hn.2⟩
  | ifNode l r ihl ihr => exact ⟨ihl hn.1, ihr hn.2⟩
  | _ => trivial

/-- What an expression reads is known where everything visible is. -/
theorem Reads.named {env : Env} {named : String → Option ℕ}
    (h : ∀ x id, env x = some id → (named x).isSome) {n : INode} (hn : n.Reads env) :
    n.Named named := by
  induction n with
  | decl id x => exact h x id hn
  | operand l op r ihl ihr => exact ⟨ihl hn.1, ihr hn.2⟩
  | addBranch | whileNode | ifNode | emptyScope => exact hn.elim
  | _ => trivial

/-- An expression is not null. -/
theorem IsExpr.isNull {n : INode} (h : n.IsExpr) : n.isNull = false := by
  cases n with
  | null => exact h.elim
  | _ => rfl

/-- An expression is a condition. -/
theorem IsExpr.isCond {n : INode} (h : n.IsExpr) : n.IsCond := by
  cases n with
  | operand l op r =>
    unfold IsExpr at h
    unfold IsCond
    by_cases hin : op = .stdIn
    · subst hin
      rw [if_pos rfl] at h
      simpa [Operation.IsRel, IsExpr] using h
    · rw [if_neg hin] at h
      rcases h.1 with rfl | rfl | rfl | rfl | rfl <;>
        simp [Operation.IsRel, IsExpr, Operation.IsArith, h.2]
  | _ => exact h

/-- A condition is not null. -/
theorem IsCond.isNull {n : INode} (h : n.IsCond) : n.isNull = false := by
  cases n with
  | null => exact h.elim
  | _ => rfl

/-- An expression has no `&&` and no `||`. -/
theorem IsExpr.noAndOr {n : INode} (h : n.IsExpr) : n.NoAndOr := by
  induction n with
  | operand l op r ihl ihr =>
    unfold IsExpr at h
    unfold NoAndOr
    split at h
    · rename_i hin
      subst hin
      obtain ⟨rfl, rfl⟩ := h
      exact ⟨by decide, by decide, trivial, trivial⟩
    · refine ⟨?_, ?_, ihl h.2.1, ihr h.2.2⟩ <;>
        rcases h.1 with rfl | rfl | rfl | rfl | rfl <;> decide
  | null | whileNode | ifNode | emptyScope | addBranch => exact h.elim
  | _ => trivial

end INode

end ParaCL
