import Mathlib.Data.Nat.Notation

/-!
# The trees of the ParaCL grammar

One inductive type for each nonterminal of the grammar that carries a tree.
Parentheses leave no trace in them. Lists of statements grow at the end, as
the grammar's left-recursive rule has it, and begin with a statement, never
with a block.
-/

namespace ParaCL

/-- `expr` -/
inductive Expr
  /-- `expr PLUS expr` -/
  | plus (l r : Expr)
  /-- `expr MINUS expr` -/
  | minus (l r : Expr)
  /-- `expr MUL expr` -/
  | mul (l r : Expr)
  /-- `expr DIV expr` -/
  | div (l r : Expr)
  /-- `expr MOD expr` -/
  | mod (l r : Expr)
  /-- `MINUS expr` -/
  | uminus (e : Expr)
  /-- `NAME` -/
  | name (x : String)
  /-- `VALUE` -/
  | value (v : Int32)
  /-- `INPUT` -/
  | input
deriving DecidableEq

/-- The tokens `RELOP` stands for. -/
inductive RelOp
  | equal
  | notEqual
  | less
  | greater
  | lessEq
  | greaterEq
deriving DecidableEq

/-- `lexpr` -/
inductive LExpr
  /-- `expr` -/
  | expr (e : Expr)
  /-- `expr RELOP expr` -/
  | rel (l : Expr) (op : RelOp) (r : Expr)
  /-- `lexpr OR lexpr` -/
  | or (l r : LExpr)
  /-- `lexpr AND lexpr` -/
  | and (l r : LExpr)
  /-- `NOT lexpr` -/
  | not (e : LExpr)
deriving DecidableEq

mutual

/-- `stm` -/
inductive Stm
  /-- `lval ASG expr SM` -/
  | assign (x : String) (e : Expr)
  /-- `IF LPAR lexpr RPAR` and a body -/
  | ifStm (c : LExpr) (body : Body)
  /-- `WHILE LPAR lexpr RPAR` and a body -/
  | whileStm (c : LExpr) (body : Body)
  /-- `OUTPUT expr SM` -/
  | output (e : Expr)

/-- A statement or a block: the body of an `if` or a `while`, or an element
of a list of statements. -/
inductive Body
  /-- `stm` -/
  | stm (s : Stm)
  /-- `scope` -/
  | scope (ss : Stms)

/-- `stms` -/
inductive Stms
  /-- `stm` -/
  | first (s : Stm)
  /-- `stms stm` and `stms scope` -/
  | next (ss : Stms) (b : Body)

end

/-- The names an expression mentions. -/
def Expr.Mentions (x : String) : Expr → Prop
  | .plus l r | .minus l r | .mul l r | .div l r | .mod l r => l.Mentions x ∨ r.Mentions x
  | .uminus e => e.Mentions x
  | .name y => x = y
  | .value _ | .input => False

end ParaCL
