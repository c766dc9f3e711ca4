import Mathlib.Data.List.Basic
import Mathlib.Data.Nat.Notation

/-!
# The arithmetic grammars of simplest-arith

The left-recursive grammar of `simplest-lr.yy` and the one without left
recursion of `simplest-nlr.yy`, each as the trees of its derivations: one
type for each nonterminal, one constructor for each of its rules. A tree has
the tokens it derives and the value its semantic actions compute, in `int`
arithmetic modulo `2 ^ 32`.
-/

namespace SimplestArith

/-- The tokens, `ERR` apart. -/
inductive Token
  | plus
  | mult
  | lbrac
  | rbrac
  /-- `NUMBER`, with its value. -/
  | number (n : Int32)
deriving DecidableEq

/-! ## simplest-lr.yy -/

namespace LR

mutual

/-- The derivations of `EN`. -/
inductive EN
  /-- `EN: EN PLUS TN` -/
  | plus (e : EN) (t : TN)
  /-- `EN: TN` -/
  | term (t : TN)

/-- The derivations of `TN`. -/
inductive TN
  /-- `TN: TN MULT FN` -/
  | mult (t : TN) (f : FN)
  /-- `TN: FN` -/
  | factor (f : FN)

/-- The derivations of `FN`. -/
inductive FN
  /-- `FN: LBRAC EN RBRAC` -/
  | brac (e : EN)
  /-- `FN: NUMBER` -/
  | number (n : Int32)

end

mutual

/-- What a tree derives. -/
def EN.tokens : EN → List Token
  | .plus e t => e.tokens ++ .plus :: t.tokens
  | .term t => t.tokens

/-- What a tree derives. -/
def TN.tokens : TN → List Token
  | .mult t f => t.tokens ++ .mult :: f.tokens
  | .factor f => f.tokens

/-- What a tree derives. -/
def FN.tokens : FN → List Token
  | .brac e => .lbrac :: (e.tokens ++ [.rbrac])
  | .number n => [.number n]

end

mutual

/-- `$$ = $1 + $3` and `$$ = $1` -/
def EN.value : EN → Int32
  | .plus e t => e.value + t.value
  | .term t => t.value

/-- `$$ = $1 * $3` and `$$ = $1` -/
def TN.value : TN → Int32
  | .mult t f => t.value * f.value
  | .factor f => f.value

/-- `$$ = $2` and `$$ = $1` -/
def FN.value : FN → Int32
  | .brac e => e.value
  | .number n => n

end

/-- The grammar derives a token list as `EN` with a value. -/
def Derives (ts : List Token) (v : Int32) : Prop := ∃ e : EN, e.tokens = ts ∧ e.value = v

end LR

/-! ## simplest-nlr.yy -/

namespace NLR

mutual

/-- The derivations of `EN`. -/
inductive EN
  /-- `EN: TN EPN` -/
  | mk (t : TN) (e : EPN)

/-- The derivations of `EPN`. -/
inductive EPN
  /-- `EPN: PLUS TN EPN` -/
  | plus (t : TN) (e : EPN)
  /-- `EPN: %empty` -/
  | empty

/-- The derivations of `TN`. -/
inductive TN
  /-- `TN: FN TPN` -/
  | mk (f : FN) (t : TPN)

/-- The derivations of `TPN`. -/
inductive TPN
  /-- `TPN: MULT FN TPN` -/
  | mult (f : FN) (t : TPN)
  /-- `TPN: %empty` -/
  | empty

/-- The derivations of `FN`. -/
inductive FN
  /-- `FN: LBRAC EN RBRAC` -/
  | brac (e : EN)
  /-- `FN: NUMBER` -/
  | number (n : Int32)

end

mutual

/-- What a tree derives. -/
def EN.tokens : EN → List Token
  | .mk t e => t.tokens ++ e.tokens

/-- What a tree derives. -/
def EPN.tokens : EPN → List Token
  | .plus t e => .plus :: (t.tokens ++ e.tokens)
  | .empty => []

/-- What a tree derives. -/
def TN.tokens : TN → List Token
  | .mk f t => f.tokens ++ t.tokens

/-- What a tree derives. -/
def TPN.tokens : TPN → List Token
  | .mult f t => .mult :: (f.tokens ++ t.tokens)
  | .empty => []

/-- What a tree derives. -/
def FN.tokens : FN → List Token
  | .brac e => .lbrac :: (e.tokens ++ [.rbrac])
  | .number n => [.number n]

end

mutual

/-- `$$ = $1 + $2` -/
def EN.value : EN → Int32
  | .mk t e => t.value + e.value

/-- `$$ = $2 + $3` and `$$ = 0` -/
def EPN.value : EPN → Int32
  | .plus t e => t.value + e.value
  | .empty => 0

/-- `$$ = $1 * $2` -/
def TN.value : TN → Int32
  | .mk f t => f.value * t.value

/-- `$$ = $2 * $3` and `$$ = 1` -/
def TPN.value : TPN → Int32
  | .mult f t => f.value * t.value
  | .empty => 1

/-- `$$ = $2` and `$$ = $1` -/
def FN.value : FN → Int32
  | .brac e => e.value
  | .number n => n

end

/-- The grammar derives a token list as `EN` with a value. -/
def Derives (ts : List Token) (v : Int32) : Prop := ∃ e : EN, e.tokens = ts ∧ e.value = v

end NLR

end SimplestArith
