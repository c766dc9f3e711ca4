import Mathlib.Data.List.Basic
import Mathlib.Data.Nat.Notation

/-!
# The equation grammars

Three grammars for lists of equations between sums, as the trees of their
derivations: one type for each nonterminal, one constructor for each of its
rules. A tree has the tokens it derives and what its semantic actions do.
The two grammars of `numgrammar` print a line as soon as an equation is
recognised; that of `advgrammar` builds a list of equations, which is
inserted into the driver and printed later. The actions of a tree run from
the left to the right, those of a node after those below it.

Arithmetic is that of `int` modulo `2 ^ 32`.
-/

namespace NumGrammar

/-- The tokens, `ERR` apart. -/
inductive Token
  | equal
  | minus
  | plus
  | scolon
  /-- `NUMBER`, with its value. -/
  | number (n : Int32)
deriving DecidableEq

/-- The line printed for an equation whose sides have the given values. -/
def checking (l r : Int32) : String :=
  "Checking: " ++ toString l.toInt ++ " vs " ++ toString r.toInt
    ++ "; Result: " ++ (if l = r then "1" else "0") ++ "\n"

/-! ## numgrammar.y -/

namespace Fixed

/-- The derivations of `arith`. -/
inductive Arith
  /-- `arith: PLUS NUMBER arith` -/
  | plus (n : Int32) (a : Arith)
  /-- `arith: MINUS NUMBER arith` -/
  | minus (n : Int32) (a : Arith)
  /-- `arith: %empty` -/
  | empty

/-- The derivations of `expr`, by the rule `expr: NUMBER arith`. -/
structure Expr where
  number : Int32
  arith : Arith

/-- The derivations of `equals`, by the rule `equals: expr EQUAL expr`. -/
structure Equals where
  left : Expr
  right : Expr

/-- The derivations of `eqlist`, and of `program`. -/
inductive Eqlist
  /-- `eqlist: equals SCOLON eqlist` -/
  | next (e : Equals) (l : Eqlist)
  /-- `eqlist: %empty` -/
  | empty

/-- What a tree derives. -/
def Arith.tokens : Arith → List Token
  | .plus n a => .plus :: .number n :: a.tokens
  | .minus n a => .minus :: .number n :: a.tokens
  | .empty => []

/-- What a tree derives. -/
def Expr.tokens (e : Expr) : List Token := .number e.number :: e.arith.tokens

/-- What a tree derives. -/
def Equals.tokens (e : Equals) : List Token := e.left.tokens ++ .equal :: e.right.tokens

/-- What a tree derives. -/
def Eqlist.tokens : Eqlist → List Token
  | .next e l => e.tokens ++ .scolon :: l.tokens
  | .empty => []

/-- `$$ = $2 + $3`, `$$ = -$2 + $3` and `$$ = 0` -/
def Arith.value : Arith → Int32
  | .plus n a => n + a.value
  | .minus n a => -n + a.value
  | .empty => 0

/-- `$$ = $1 + $2` -/
def Expr.value (e : Expr) : Int32 := e.number + e.arith.value

/-- The line the action of `equals` prints. -/
def Equals.line (e : Equals) : String := checking e.left.value e.right.value

/-- The lines a derivation prints. -/
def Eqlist.lines : Eqlist → List String
  | .next e l => e.line :: l.lines
  | .empty => []

end Fixed

/-! ## numgrammar-sr-fixed.y -/

namespace SrFixed

/-- The derivations of `expr`. -/
inductive Expr
  /-- `expr: expr PLUS NUMBER` -/
  | plus (e : Expr) (n : Int32)
  /-- `expr: expr MINUS NUMBER` -/
  | minus (e : Expr) (n : Int32)
  /-- `expr: NUMBER` -/
  | number (n : Int32)

/-- The derivations of `equals`, by the rule `equals: expr EQUAL expr`. -/
structure Equals where
  left : Expr
  right : Expr

/-- The derivations of `eqlist`, and of `program`. -/
inductive Eqlist
  /-- `eqlist: equals SCOLON eqlist` -/
  | next (e : Equals) (l : Eqlist)
  /-- `eqlist: %empty` -/
  | empty

/-- What a tree derives. -/
def Expr.tokens : Expr → List Token
  | .plus e n => e.tokens ++ [.plus, .number n]
  | .minus e n => e.tokens ++ [.minus, .number n]
  | .number n => [.number n]

/-- What a tree derives. -/
def Equals.tokens (e : Equals) : List Token := e.left.tokens ++ .equal :: e.right.tokens

/-- What a tree derives. -/
def Eqlist.tokens : Eqlist → List Token
  | .next e l => e.tokens ++ .scolon :: l.tokens
  | .empty => []

/-- `$$ = $1 + $3`, `$$ = $1 - $3` and `$$ = $1` -/
def Expr.value : Expr → Int32
  | .plus e n => e.value + n
  | .minus e n => e.value - n
  | .number n => n

/-- The line the action of `equals` prints. -/
def Equals.line (e : Equals) : String := checking e.left.value e.right.value

/-- The lines a derivation prints. -/
def Eqlist.lines : Eqlist → List String
  | .next e l => e.line :: l.lines
  | .empty => []

end SrFixed

/-! ## advgrammar/numgrammar.y -/

namespace Adv

/-- The derivations of `expr`. -/
inductive Expr
  /-- `expr: NUMBER` -/
  | number (n : Int32)
  /-- `expr: expr PLUS NUMBER` -/
  | plus (e : Expr) (n : Int32)
  /-- `expr: expr MINUS NUMBER` -/
  | minus (e : Expr) (n : Int32)

/-- The derivations of `equals`, by the rule `equals: expr EQUAL expr`. -/
structure Equals where
  left : Expr
  right : Expr

/-- The derivations of `eqlist`. -/
inductive Eqlist
  /-- `eqlist: equals SCOLON eqlist` -/
  | next (e : Equals) (l : Eqlist)
  /-- `eqlist: equals SCOLON` -/
  | last (e : Equals)

/-- What a tree derives. -/
def Expr.tokens : Expr → List Token
  | .number n => [.number n]
  | .plus e n => e.tokens ++ [.plus, .number n]
  | .minus e n => e.tokens ++ [.minus, .number n]

/-- What a tree derives. -/
def Equals.tokens (e : Equals) : List Token := e.left.tokens ++ .equal :: e.right.tokens

/-- What a tree derives. -/
def Eqlist.tokens : Eqlist → List Token
  | .next e l => e.tokens ++ .scolon :: l.tokens
  | .last e => e.tokens ++ [.scolon]

/-- `$$.push_back($1)`, `$$ = $1; $$.push_back($3)` and
`$$ = $1; $$.push_back(-$3)` -/
def Expr.value : Expr → List Int32
  | .number n => [] ++ [n]
  | .plus e n => e.value ++ [n]
  | .minus e n => e.value ++ [-n]

/-- `$$ = std::make_pair($1, $3)` -/
def Equals.value (e : Equals) : List Int32 × List Int32 := (e.left.value, e.right.value)

/-- `$$ = $3; $$.push_back($1)` and `$$.push_back($1)` -/
def Eqlist.value : Eqlist → List (List Int32 × List Int32)
  | .next e l => l.value ++ [e.value]
  | .last e => [] ++ [e.value]

/-- `NumDriver::insert`: the new `vvv_`. -/
def insert (v : List (List Int32 × List Int32)) : List (List Int32 × List Int32) := v.reverse

/-- `std::accumulate(v.begin(), v.end(), 0)` -/
def accumulate (v : List Int32) : Int32 := v.foldl (· + ·) 0

/-- `NumDriver::printout`: the lines printed for `vvv_`. -/
def printout (vvv : List (List Int32 × List Int32)) : List String :=
  vvv.map fun vv => checking (accumulate vv.1) (accumulate vv.2)

/-- The lines printed after `program: eqlist { driver->insert($1); }`. -/
def Eqlist.lines (l : Eqlist) : List String := printout (insert l.value)

end Adv

/-! ## The header of advgrammar/numgrammar.y -/

namespace Header

/-- `E -> number | E + number | E - number` -/
inductive E : List Token → Prop
  | number (n : Int32) : E [.number n]
  | plus {ts : List Token} (h : E ts) (n : Int32) : E (ts ++ [.plus, .number n])
  | minus {ts : List Token} (h : E ts) (n : Int32) : E (ts ++ [.minus, .number n])

/-- `EQ -> E = E` -/
inductive EQ : List Token → Prop
  | mk {ts us : List Token} (h : E ts) (h' : E us) : EQ (ts ++ .equal :: us)

/-- `EQL -> EQ; EQL | empty` -/
inductive EQL : List Token → Prop
  | next {ts us : List Token} (h : EQ ts) (h' : EQL us) : EQL (ts ++ .scolon :: us)
  | empty : EQL []

end Header

end NumGrammar
