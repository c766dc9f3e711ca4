import CppGraduate.ParaCL.Meaning

/-!
# The code of expressions and conditions

The generator turns an expression or a condition into straight-line code
that evaluates every operand, from left to right. The relation `Emits` says
which code that is; it depends on the slots of the names and on the number
of the next register, and not on the rest of the generator's state.

A condition has a type when each operation has operands of the type it
needs: integers in arithmetic and comparisons, truth values under `&&`,
`||` and `!`. The emitted code has well-typed instructions and yields the
type of the condition just then, and it computes the meaning, in a machine
whose memory holds the values of the variables – or breaks, where there is
no meaning or not enough to read.
-/

namespace ParaCL

open Ir

/-! ## Emitted code -/

/-- The instruction for an arithmetic or a logical operation. -/
def Operation.binOp : Operation → Option BinOp
  | .plus => some .add
  | .minus => some .sub
  | .mul => some .mul
  | .div => some .sdiv
  | .mod => some .srem
  | .and => some .and
  | .or => some .or
  | _ => none

/-- The predicate for a comparison. -/
def Operation.pred : Operation → Option Pred
  | .greater => some .sgt
  | .less => some .slt
  | .greaterEq => some .sge
  | .lessEq => some .sle
  | .equal => some .eq
  | .notEqual => some .ne
  | _ => none

/-- **The code of a node**: with the next register `r`, the node has the
value `c` after the instructions, which write the next `k` registers. -/
inductive Emits (named : String → Option ℕ) :
    ℕ → INode → Value → List Instr → ℕ → Prop
  /-- A literal. -/
  | value {r : ℕ} {v : Int32} : Emits named r (.value v) (.const (.word v)) [] 0
  /-- A variable. -/
  | decl {r id slot : ℕ} {x : String} (h : named x = some slot) :
    Emits named r (.decl id x) (.reg .i32 r) [.load r slot] 1
  /-- An integer that is read. -/
  | input {r : ℕ} : Emits named r (.operand .null .stdIn .null) (.reg .i32 r) [.input r] 1
  /-- An arithmetic or a logical operation. -/
  | bin {r k m : ℕ} {left right : INode} {op : Operation} {b : BinOp} {cl cr : Value}
    {il ir : List Instr} (hop : op.binOp = some b) (hl : Emits named r left cl il k)
    (hr : Emits named (r + k) right cr ir m) :
    Emits named r (.operand left op right) (.reg cl.ty (r + (k + m)))
      (il ++ ir ++ [.bin (r + (k + m)) b cl cr]) (k + m + 1)
  /-- A comparison. -/
  | icmp {r k m : ℕ} {left right : INode} {op : Operation} {p : Pred} {cl cr : Value}
    {il ir : List Instr} (hop : op.pred = some p) (hl : Emits named r left cl il k)
    (hr : Emits named (r + k) right cr ir m) :
    Emits named r (.operand left op right) (.reg .i1 (r + (k + m)))
      (il ++ ir ++ [.icmp (r + (k + m)) p cl cr]) (k + m + 1)
  /-- A negation. -/
  | not {r k : ℕ} {right : INode} {c : Value} {is : List Instr} (h : Emits named r right c is k) :
    Emits named r (.operand .null .not right) (.reg c.ty (r + k))
      (is ++ [.bin (r + k) .xor c (CodeGen.allOnes c.ty)]) (k + 1)

/-- The generator after instructions at its insertion point. -/
def CodeGen.append (g : CodeGen) (is : List Instr) (regs : ℕ) : CodeGen :=
  { g with builder := g.builder.append is regs }

/-- Instructions after instructions. -/
theorem CodeGen.append_append (g : CodeGen) (is js : List Instr) (k m : ℕ) :
    (g.append is k).append js m = g.append (is ++ js) (k + m) := by
  unfold CodeGen.append
  rw [Builder.append_append]

/-- Reading a variable. -/
theorem CodeGen.addDeclRead_eq {g : CodeGen} {x : String} {slot : ℕ}
    (h : g.namedValues x = some slot) :
    addDeclRead x g
      = .ok (some (.reg .i32 g.builder.nextReg), g.append [.load g.builder.nextReg slot] 1) := by
  unfold addDeclRead
  rw [h]
  rfl

/-- Writing a variable. -/
theorem CodeGen.addDeclWrite_eq {g : CodeGen} {x : String} {slot : ℕ}
    (h : g.namedValues x = some slot) (c : Value) :
    addDeclWrite x (some c) g = .ok (none, g.append [.store c slot] 0) := by
  unfold addDeclWrite
  rw [h]
  rfl

/-- The generator picks the instruction for an operation. -/
theorem CodeGen.addOperation_binOp {op : Operation} {b : BinOp} (h : op.binOp = some b)
    (l r : Value) (g : CodeGen) :
    addOperation op (some l) (some r) g
      = .ok (some (.reg l.ty g.builder.nextReg), g.append [.bin g.builder.nextReg b l r] 1) := by
  cases op <;> cases h <;> rfl

/-- The generator picks the predicate for a comparison. -/
theorem CodeGen.addOperation_pred {op : Operation} {p : Pred} (h : op.pred = some p)
    (l r : Value) (g : CodeGen) :
    addOperation op (some l) (some r) g
      = .ok (some (.reg .i1 g.builder.nextReg), g.append [.icmp g.builder.nextReg p l r] 1) := by
  cases op <;> cases h <;> rfl

namespace INode

variable {n left right : INode} {op : Operation} {g : CodeGen}

/-- `codegen` of an operation with two operands. -/
theorem codegen_operand {cl cr : Option Value} {g₁ g₂ : CodeGen} (hl : left.isNull = false)
    (hr : right.isNull = false) (hop : op ≠ .assign) (hcl : left.codegen g = .ok (cl, g₁))
    (hcr : right.codegen g₁ = .ok (cr, g₂)) :
    (operand left op right).codegen g = CodeGen.addOperation op cl cr g₂ := by
  rw [codegen, hl, hr, if_neg Bool.false_ne_true, if_neg Bool.false_ne_true]
  refine (Gen.bind_ok hcl).trans ((Gen.bind_ok hcr).trans ?_)
  rw [if_neg hop]

/-- What each operation in a condition is emitted as. -/
theorem binOp_or_pred (hop : op.IsRel ∨ op.IsArith ∧ op ≠ .div ∨ op = .div ∨ op = .and ∨ op = .or) :
    (∃ b, op.binOp = some b) ∨ ∃ p, op.pred = some p := by
  unfold Operation.IsRel Operation.IsArith at hop
  cases op
  case assign | stdOut | stdIn | not => simp at hop
  all_goals simp [Operation.binOp, Operation.pred]

/-- **`codegen` of a condition** whose names have slots emits its code and
yields its value. -/
theorem IsCond.codegen (h : n.IsCond) (hn : n.Named g.namedValues) :
    ∃ c is k, Emits g.namedValues g.builder.nextReg n c is k
      ∧ n.codegen g = .ok (some c, g.append is k) := by
  induction n generalizing g with
  | value v =>
    refine ⟨_, [], 0, .value, ?_⟩
    unfold CodeGen.append
    rw [Builder.append_nil]
    rfl
  | decl id x =>
    obtain ⟨slot, hslot⟩ := Option.isSome_iff_exists.mp hn
    exact ⟨_, _, 1, .decl hslot, CodeGen.addDeclRead_eq hslot⟩
  | operand l op r ihl ihr =>
    have hbinary : l.IsCond → r.IsCond → op ≠ .assign →
        ((∃ b, op.binOp = some b) ∨ ∃ p, op.pred = some p) →
        ∃ c is k, Emits g.namedValues g.builder.nextReg (.operand l op r) c is k
          ∧ (operand l op r).codegen g = .ok (some c, g.append is k) := by
      intro hl hr hassign hop
      obtain ⟨cl, il, k, hel, hcl⟩ := ihl hl hn.1
      obtain ⟨cr, ir, m, her, hcr⟩ := ihr (g := g.append il k) hr hn.2
      have hcode := codegen_operand hl.isNull hr.isNull hassign hcl hcr
      rw [CodeGen.append_append] at hcode
      rcases hop with ⟨b, hb⟩ | ⟨p, hp⟩
      · rw [CodeGen.addOperation_binOp hb, CodeGen.append_append] at hcode
        exact ⟨_, _, _, .bin hb hel her, hcode⟩
      · rw [CodeGen.addOperation_pred hp, CodeGen.append_append] at hcode
        exact ⟨_, _, _, .icmp hp hel her, hcode⟩
    rcases h.cases_operand with ⟨rfl, rfl, rfl⟩ | ⟨hop, hl, hr⟩ | ⟨rfl, hl, hr⟩ | ⟨rfl, rfl, hr⟩
      | ⟨hop, hl, hr⟩
    · exact ⟨_, _, 1, .input, rfl⟩
    · refine hbinary hl.isCond hr.isCond ?_ (binOp_or_pred (hop.imp_right Or.inl))
      rintro rfl
      exact absurd hop (by decide)
    · exact hbinary hl.isCond hr.isCond (by decide) (Or.inl ⟨_, rfl⟩)
    · obtain ⟨c, is, k, he, hc⟩ := ihr hr hn.2
      refine ⟨_, _, _, .not he, ?_⟩
      rw [INode.codegen, hr.isNull, if_neg Bool.false_ne_true]
      refine (Gen.bind_ok (Gen.pure_apply _ _)).trans ((Gen.bind_ok hc).trans ?_)
      rw [← CodeGen.append_append]
      rfl
    · refine hbinary hl hr ?_ (binOp_or_pred (Or.inr (Or.inr (Or.inr hop))))
      rintro rfl
      simp at hop
  | _ => exact h.elim

end INode

/-! ## Types -/

/-- **The type of a condition.** -/
inductive HasTy : INode → Ty → Prop
  /-- A literal. -/
  | value {v : Int32} : HasTy (.value v) .i32
  /-- A variable. -/
  | decl {id : ℕ} {x : String} : HasTy (.decl id x) .i32
  /-- An integer that is read. -/
  | input : HasTy (.operand .null .stdIn .null) .i32
  /-- Arithmetic, on integers. -/
  | arith {l r : INode} {op : Operation} (hop : op.IsArith) (hl : HasTy l .i32) (hr : HasTy r .i32) :
    HasTy (.operand l op r) .i32
  /-- A comparison of integers. -/
  | rel {l r : INode} {op : Operation} (hop : op.IsRel) (hl : HasTy l .i32) (hr : HasTy r .i32) :
    HasTy (.operand l op r) .i1
  /-- `&&` and `||`, of truth values. -/
  | logic {l r : INode} {op : Operation} (hop : op = .and ∨ op = .or) (hl : HasTy l .i1)
    (hr : HasTy r .i1) : HasTy (.operand l op r) .i1
  /-- `!`, of a truth value. -/
  | not {r : INode} (hr : HasTy r .i1) : HasTy (.operand .null .not r) .i1

/-- Expressions have the type of integers. -/
theorem INode.IsExpr.hasTy {n : INode} (h : n.IsExpr) : HasTy n .i32 := by
  induction n with
  | value => exact .value
  | decl => exact .decl
  | operand l op r ihl ihr =>
    unfold INode.IsExpr at h
    split_ifs at h with hin
    · obtain ⟨rfl, rfl⟩ := h
      rw [hin]
      exact .input
    · exact .arith h.1 (ihl h.2.1) (ihr h.2.2)
  | _ => exact h.elim

namespace Emits

variable {named : String → Option ℕ} {r k : ℕ} {n : INode} {c : Value} {is : List Instr} {t : Ty}

/-- **The emitted value has the type of the condition**, and the emitted
instructions accept their operands. -/
theorem wellTyped (h : Emits named r n c is k) (ht : HasTy n t) :
    c.ty = t ∧ ∀ i ∈ is, i.WellTyped := by
  induction h generalizing t with
  | value =>
    cases ht
    exact ⟨rfl, fun _ h => nomatch h⟩
  | decl hslot =>
    cases ht
    refine ⟨rfl, fun i hi => ?_⟩
    rw [List.mem_singleton.mp hi]
    trivial
  | input =>
    cases ht with
    | input =>
      refine ⟨rfl, fun i hi => ?_⟩
      rw [List.mem_singleton.mp hi]
      trivial
    | arith hop => exact absurd hop (by decide)
    | rel hop => exact absurd hop (by decide)
    | logic hop => simp at hop
  | @bin _ _ _ left right _ _ _ _ _ _ hop hl hr ihl ihr =>
    have hty : HasTy left t ∧ HasTy right t := by
      cases ht with
      | input | not => cases hop
      | arith _ htl htr => exact ⟨htl, htr⟩
      | rel hrel => rcases hrel with rfl | rfl | rfl | rfl | rfl | rfl <;> cases hop
      | logic _ htl htr => exact ⟨htl, htr⟩
    obtain ⟨htl, hwl⟩ := ihl hty.1
    obtain ⟨htr, hwr⟩ := ihr hty.2
    refine ⟨htl, ?_⟩
    simp only [List.forall_mem_append, List.forall_mem_singleton]
    exact ⟨⟨hwl, hwr⟩, htl.trans htr.symm⟩
  | icmp hop hl hr ihl ihr =>
    cases ht with
    | input | not => cases hop
    | arith harith => rcases harith with rfl | rfl | rfl | rfl | rfl <;> cases hop
    | logic hlogic => rcases hlogic with rfl | rfl <;> cases hop
    | rel _ htl htr =>
      obtain ⟨htl, hwl⟩ := ihl htl
      obtain ⟨htr, hwr⟩ := ihr htr
      refine ⟨rfl, ?_⟩
      simp only [List.forall_mem_append, List.forall_mem_singleton]
      exact ⟨⟨hwl, hwr⟩, htl, htr⟩
  | not h ih =>
    cases ht with
    | arith hop => exact absurd hop (by decide)
    | rel hop => exact absurd hop (by decide)
    | logic hop => simp at hop
    | not htr =>
      obtain ⟨hty, hw⟩ := ih htr
      refine ⟨hty, ?_⟩
      simp only [List.forall_mem_append, List.forall_mem_singleton]
      refine ⟨hw, ?_⟩
      rw [hty]
      exact hty

/-- **Only conditions of the right type** are emitted as a truth value by
well-typed instructions. -/
theorem hasTy (h : Emits named r n c is k) (hn : n.IsCond) (hc : c.ty = .i1)
    (hw : ∀ i ∈ is, i.WellTyped) : HasTy n .i1 := by
  induction h with
  | value => cases hc
  | decl => cases hc
  | input => cases hc
  | bin hop hl hr ihl ihr =>
    simp only [List.forall_mem_append, List.forall_mem_singleton] at hw
    obtain ⟨⟨hwl, hwr⟩, heq⟩ := hw
    have hexpr : ∀ {r k l cl is}, Emits named r l cl is k → cl.ty = .i1 → ¬ INode.IsExpr l := by
      intro r k l cl is he hcl hle
      have hty := (he.wellTyped hle.hasTy).1
      rw [hcl] at hty
      cases hty
    rcases hn.cases_operand with ⟨rfl, -⟩ | ⟨-, hle, -⟩ | ⟨-, hle, -⟩ | ⟨rfl, -⟩ | ⟨hlogic, hlc, hrc⟩
    · cases hop
    · exact absurd hle (hexpr hl hc)
    · exact absurd hle (hexpr hl hc)
    · cases hop
    · exact .logic hlogic (ihl hlc hc hwl) (ihr hrc (heq.symm.trans hc) hwr)
  | @icmp _ _ _ _ _ op _ _ _ _ _ hop =>
    rcases hn.cases_operand with ⟨rfl, -⟩ | ⟨hrel | harith, hle, hre⟩ | ⟨rfl, -⟩ | ⟨rfl, -⟩
      | ⟨rfl | rfl, -⟩
    · cases hop
    · exact .rel hrel hle.hasTy hre.hasTy
    · rcases harith.1 with rfl | rfl | rfl | rfl | rfl <;> cases hop
    all_goals cases hop
  | not h ih =>
    simp only [List.forall_mem_append, List.forall_mem_singleton] at hw
    rcases hn.cases_operand with ⟨hop, -⟩ | ⟨hop | ⟨hop, -⟩, -⟩ | ⟨hop, -⟩ | ⟨-, -, hrc⟩
      | ⟨hop | hop, -⟩
    · cases hop
    · exact absurd hop (by decide)
    · exact absurd hop (by decide)
    · cases hop
    · exact .not (ih hrc hc hw.1)
    · cases hop
    · cases hop

end Emits

/-! ## Values -/

/-- A value of the interpreter in a register of a type. -/
def encode : Ty → Int32 → Word
  | .i32, v => .word v
  | .i1, v => .bit (v ≠ 0)

/-- **The memory holds the values of the visible variables**, each in the
slot of its name. -/
def Stored (named : String → Option ℕ) (env : INode.Env) (vals : ℕ → Option Int32)
    (mem : ℕ → Option Word) : Prop :=
  ∀ x id, env x = some id →
    ∃ v slot, vals id = some v ∧ named x = some slot ∧ mem slot = some (.word v)

/-- The visible variables have slots. -/
theorem Stored.named {named : String → Option ℕ} {env : INode.Env} {vals : ℕ → Option Int32}
    {mem : ℕ → Option Word} (h : Stored named env vals mem) {n : INode} (hn : n.Reads env) :
    n.Named named :=
  hn.named fun x id hx => by
    obtain ⟨_, slot, -, hslot, -⟩ := h x id hx
    rw [hslot]
    rfl

/-- A register number that is taken before `q`. -/
def Value.Below (q : ℕ) : Value → Prop
  | .const _ => True
  | .reg _ p => p < q

/-- **What evaluating straight-line code has done**: `c` has the value `w`,
`inputs` integers were read, and memory and the registers below `r` are as
they were. -/
structure Yields (s s' : State Stdio) (c : Value) (w : Word) (r inputs : ℕ) : Prop where
  /-- The value. -/
  value : s'.eval c = some w
  /-- The memory. -/
  mem : s'.mem = s.mem
  /-- What was read. -/
  world : s'.world = s.world.skip inputs
  /-- The registers in use. -/
  below : ∀ q < r, s'.regs q = s.regs q

/-- A value in a register that was not written since. -/
theorem Yields.eval_eq {s s' : State Stdio} {c cl : Value} {w : Word} {r inputs : ℕ}
    (h : Yields s s' c w r inputs) (hcl : Value.Below r cl) : s'.eval cl = s.eval cl := by
  cases cl with
  | const => rfl
  | reg ty q => exact h.below q hcl

/-- **Two operands and an operation**: its result goes to the next
register. -/
theorem Yields.result {s s₁ s₂ : State Stdio} {cl cr : Value} {wl wr w : Word}
    {r k m i j : ℕ} {ty : Ty} (hl : Yields s s₁ cl wl r i) (hr : Yields s₁ s₂ cr wr (r + k) j) :
    Yields s (s₂.setReg (r + (k + m)) (some w)) (.reg ty (r + (k + m))) w r (i + j) where
  value := eval_setReg_self _ _ _ _
  mem := hr.mem.trans hl.mem
  world := by rw [Stdio.skip_add, ← hl.world]; exact hr.world
  below q hq := by
    rw [setReg_regs_of_ne _ _ (by omega), hr.below q (Nat.lt_add_right k hq), hl.below q hq]

/-- The instruction computes what the operation does. -/
theorem Operation.eval_binOp {op : Operation} {b : BinOp} {t : Ty} (hb : op.binOp = some b)
    (ht : t = .i32 ∧ op.IsArith ∨ t = .i1 ∧ (op = .and ∨ op = .or)) (x y : Int32) :
    b.eval (encode t x) (encode t y) = (op.apply x y).map (encode t) := by
  rcases ht with ⟨rfl, harith⟩ | ⟨rfl, hlogic⟩
  · rcases harith with rfl | rfl | rfl | rfl | rfl <;> cases hb
    · rfl
    · rfl
    · rfl
    · simp only [encode, BinOp.eval, Operation.apply]
      split <;> rfl
    · simp only [encode, BinOp.eval, Operation.apply]
      split <;> rfl
  · rcases hlogic with rfl | rfl <;> cases hb <;> by_cases hx : x = 0 <;> by_cases hy : y = 0 <;>
      simp [encode, BinOp.eval, Operation.apply, ofBool, hx, hy]

/-- The predicate holds where the comparison yields 1. -/
theorem Operation.apply_pred {op : Operation} {p : Pred} (hp : op.pred = some p) (x y : Int32) :
    op.apply x y = some (ofBool (p.holds x y)) := by
  cases op <;> cases hp <;> rfl

/-- A truth value is encoded as itself. -/
theorem encode_ofBool (b : Bool) : encode .i1 (ofBool b) = .bit b := by
  cases b <;> rfl

namespace Emits

variable {named : String → Option ℕ} {r k : ℕ} {n : INode} {c : Value} {is : List Instr} {t : Ty}
  {F : Code} {s : State Stdio} {env : INode.Env} {vals : ℕ → Option Int32}

/-- The value is in a register written by then. -/
theorem value_below (h : Emits named r n c is k) : Value.Below (r + k) c := by
  cases h with
  | value => trivial
  | decl | input => exact Nat.lt_succ_self r
  | bin | icmp | not => exact Nat.add_lt_add_left (Nat.lt_succ_self _) r

/-- The types of the operands of an operation. -/
theorem binOp_cases {left right : INode} {op : Operation} {b : BinOp} (hb : op.binOp = some b)
    (ht : HasTy (.operand left op right) t) :
    op ≠ .stdIn ∧ op ≠ .not ∧ HasTy left t ∧ HasTy right t
      ∧ (t = .i32 ∧ op.IsArith ∨ t = .i1 ∧ (op = .and ∨ op = .or)) := by
  refine ⟨?_, ?_, ?_⟩
  · rintro rfl
    cases hb
  · rintro rfl
    cases hb
  · cases ht with
    | input | not => cases hb
    | arith hop htl htr => exact ⟨htl, htr, Or.inl ⟨rfl, hop⟩⟩
    | rel hrel => rcases hrel with rfl | rfl | rfl | rfl | rfl | rfl <;> cases hb
    | logic hop htl htr => exact ⟨htl, htr, Or.inr ⟨rfl, hop⟩⟩

/-- The types of the operands of a comparison. -/
theorem pred_cases {left right : INode} {op : Operation} {p : Pred} (hp : op.pred = some p)
    (ht : HasTy (.operand left op right) t) :
    op ≠ .stdIn ∧ op ≠ .not ∧ HasTy left .i32 ∧ HasTy right .i32 ∧ t = .i1 := by
  refine ⟨?_, ?_, ?_⟩
  · rintro rfl
    cases hp
  · rintro rfl
    cases hp
  · cases ht with
    | input | not => cases hp
    | arith harith => rcases harith with rfl | rfl | rfl | rfl | rfl <;> cases hp
    | rel _ htl htr => exact ⟨htl, htr, rfl⟩
    | logic hop => rcases hop with rfl | rfl <;> cases hp

/-- **Code computes the meaning of a node**, if there is one and enough to
read; otherwise it breaks. -/
def Computes (F : Code) (vals : ℕ → Option Int32) (r : ℕ) (n : INode) (c : Value)
    (is : List Instr) (t : Ty) (s : State Stdio) : Prop :=
  (∃ v, n.meaning vals s.world.next = some v ∧ s.world.CanRead n.inputs
      ∧ ∃ s', Leads pcllib F is s s' ∧ Yields s s' c (encode t v) r n.inputs)
    ∨ (n.meaning vals s.world.next = none ∨ ¬ s.world.CanRead n.inputs) ∧ Breaks pcllib F is s

/-- **The code of two operands** computes both, or breaks. -/
theorem computes_both {left right : INode} {op : Operation} {cl cr : Value} {il ir : List Instr}
    {m : ℕ} (hin : op ≠ .stdIn) (hnot : op ≠ .not) (hcl : Value.Below (r + k) cl)
    (hl : Computes F vals r left cl il t s)
    (hr : ∀ s', s'.mem = s.mem → Computes F vals (r + k) right cr ir t s') :
    (∃ x y, (∀ v, op.apply x y = v → (INode.operand left op right).meaning vals s.world.next = v)
        ∧ s.world.CanRead (INode.operand left op right).inputs
        ∧ ∃ s', Leads pcllib F (il ++ ir) s s' ∧ s'.eval cl = some (encode t x)
          ∧ s'.eval cr = some (encode t y)
          ∧ ∀ ty w, Yields s (s'.setReg (r + (k + m)) (some w)) (.reg ty (r + (k + m))) w r
            (INode.operand left op right).inputs)
      ∨ ((INode.operand left op right).meaning vals s.world.next = none
          ∨ ¬ s.world.CanRead (INode.operand left op right).inputs)
        ∧ Breaks pcllib F (il ++ ir) s := by
  have hinputs : (INode.operand left op right).inputs = left.inputs + right.inputs := if_neg hin
  have hmeaning : (INode.operand left op right).meaning vals s.world.next
      = (left.meaning vals s.world.next).bind fun a =>
        (right.meaning vals fun k => s.world.next (left.inputs + k)).bind fun b => op.apply a b := by
    rw [INode.meaning, if_neg hin, if_neg hnot]
  rw [hinputs, Stdio.canRead_add, hmeaning]
  rcases hl with ⟨x, hx, hio, s₁, hlead₁, hy₁⟩ | ⟨hbad, hb⟩
  · rw [hx, Option.bind_some, ← Stdio.next_skip, ← hy₁.world]
    rcases hr s₁ hy₁.mem with ⟨y, hy, hio', s₂, hlead₂, hy₂⟩ | ⟨hbad, hb⟩
    · refine Or.inl ⟨x, y, fun v hv => ?_, ⟨hio, hio'⟩, s₂, hlead₁.append hlead₂,
        (hy₂.eval_eq hcl).trans hy₁.value, hy₂.value, fun ty w => hy₁.result hy₂⟩
      rw [hy, Option.bind_some, hv]
    · refine Or.inr ⟨hbad.imp (fun h => ?_) (fun h h' => h h'.2), Breaks.append_right hlead₁ hb⟩
      rw [h, Option.bind_none]
  · refine Or.inr ⟨hbad.imp (fun h => ?_) (fun h h' => h h'.1), hb.append_left ir⟩
    rw [h, Option.bind_none]

/-- **The emitted code computes the meaning.** -/
theorem computes (h : Emits named r n c is k) (ht : HasTy n t) (henv : n.Reads env)
    (hs : Stored named env vals s.mem) : Computes F vals r n c is t s := by
  induction h generalizing s t with
  | value =>
    cases ht
    exact Or.inl ⟨_, rfl, Or.inl rfl, s, .nil s, rfl, rfl, rfl, fun _ _ => rfl⟩
  | @decl r id slot x hslot =>
    cases ht
    obtain ⟨v, slot', hv, hslot', hmem⟩ := hs x id henv
    cases hslot'.symm.trans hslot
    refine Or.inl ⟨v, hv, Or.inl rfl, _, leads_load s r slot, ?_, rfl, rfl,
      fun q hq => setReg_regs_of_ne _ _ hq.ne⟩
    rw [eval_setReg_self, hmem]
    rfl
  | @input r =>
    cases ht with
    | input =>
      -- a read that fails stops the code
      by_cases hio : (s.world.skip 1).failed = true
      · exact Or.inr ⟨Or.inr fun h => by simp [Stdio.CanRead, INode.inputs, hio] at h,
          breaks_input (if_pos hio)⟩
      · exact Or.inl ⟨_, rfl, Or.inr (Bool.eq_false_iff.mpr hio), _, leads_input (if_neg hio),
          eval_setReg_self s .i32 r _, rfl, rfl, fun q hq => setReg_regs_of_ne s _ hq.ne⟩
    | arith hop => exact absurd hop (by decide)
    | rel hop => exact absurd hop (by decide)
    | logic hop => simp at hop
  | @bin r k m left right op b cl cr il ir hb hl hr ihl ihr =>
    obtain ⟨hin, hnot, htl, htr, hop⟩ := binOp_cases hb ht
    rcases computes_both (m := m) hin hnot hl.value_below (ihl htl henv.1 hs)
      (fun s' hmem => ihr htr henv.2 (hmem ▸ hs)) with
      ⟨x, y, happ, hio, s', hlead, hx, hy, hres⟩ | ⟨hbad, hbreak⟩
    · have heval := Operation.eval_binOp hb hop x y
      cases hv : op.apply x y with
      | some v =>
        rw [hv, Option.map_some] at heval
        exact Or.inl ⟨v, happ _ hv, hio, _, hlead.append (leads_bin hx hy heval), hres _ _⟩
      | none =>
        rw [hv, Option.map_none] at heval
        exact Or.inr ⟨Or.inl (happ _ hv), Breaks.append_right hlead (breaks_bin hx hy heval)⟩
    · exact Or.inr ⟨hbad, hbreak.append_left _⟩
  | @icmp r k m left right op p cl cr il ir hp hl hr ihl ihr =>
    obtain ⟨hin, hnot, htl, htr, rfl⟩ := pred_cases hp ht
    rcases computes_both (m := m) hin hnot hl.value_below (ihl htl henv.1 hs)
      (fun s' hmem => ihr htr henv.2 (hmem ▸ hs)) with
      ⟨x, y, happ, hio, s', hlead, hx, hy, hres⟩ | ⟨hbad, hbreak⟩
    · refine Or.inl ⟨_, happ _ (Operation.apply_pred hp x y), hio, _,
        hlead.append (leads_icmp hx hy), ?_⟩
      rw [encode_ofBool]
      exact hres _ _
    · exact Or.inr ⟨hbad, hbreak.append_left _⟩
  | @not r k right c is h ih =>
    cases ht with
    | arith hop => exact absurd hop (by decide)
    | rel hop => exact absurd hop (by decide)
    | logic hop => simp at hop
    | not htr =>
      have hinputs : (INode.operand .null .not right).inputs = right.inputs := Nat.zero_add _
      have hmeaning : (INode.operand .null .not right).meaning vals s.world.next
          = (right.meaning vals s.world.next).map fun v => ofBool (v = 0) := rfl
      unfold Computes
      rw [hinputs, hmeaning]
      rcases ih htr henv.2 hs with ⟨x, hx, hio, s₁, hlead, hy⟩ | ⟨hbad, hb⟩
      · have hty : CodeGen.allOnes c.ty = .const (.bit true) := by
          rw [(h.wellTyped htr).1]
          rfl
        have heval : BinOp.xor.eval (encode .i1 x) (.bit true)
            = some (encode .i1 (ofBool (x = 0))) := by
          rw [encode_ofBool]
          by_cases hzero : x = 0 <;> simp [encode, BinOp.eval, hzero]
        rw [hty, hx]
        refine Or.inl ⟨_, rfl, hio, _, hlead.append (leads_bin hy.value rfl heval),
          eval_setReg_self _ _ _ _, hy.mem, hy.world, fun q hq => ?_⟩
        rw [setReg_regs_of_ne _ _ (by omega), hy.below q hq]
      · exact Or.inr ⟨hbad.imp_left Option.map_eq_none_iff.mpr, hb.append_left _⟩

/-- Where there is a meaning and enough to read, the code comes to its
end. -/
theorem leads (h : Emits named r n c is k) (ht : HasTy n t) (henv : n.Reads env)
    (hs : Stored named env vals s.mem) {v : Int32} (hv : n.meaning vals s.world.next = some v)
    (hio : s.world.CanRead n.inputs) :
    ∃ s', Leads pcllib F is s s' ∧ Yields s s' c (encode t v) r n.inputs := by
  rcases h.computes (F := F) ht henv hs with ⟨w, hw, -, hlead⟩ | ⟨hbad, -⟩
  · cases hw.symm.trans hv
    exact hlead
  · rcases hbad with hnone | hfail
    · cases hnone.symm.trans hv
    · exact absurd hio hfail

/-- Where the code comes to its end, there is a meaning and enough to
read. -/
theorem of_leads (h : Emits named r n c is k) (ht : HasTy n t) (henv : n.Reads env)
    (hs : Stored named env vals s.mem) {s' : State Stdio} (hlead : Leads pcllib F is s s') :
    (n.meaning vals s.world.next).isSome ∧ s.world.CanRead n.inputs
      ∧ s'.world = s.world.skip n.inputs := by
  rcases h.computes (F := F) ht henv hs with ⟨w, hw, hio, s₁, hlead₁, hy⟩ | ⟨-, hb⟩
  · refine ⟨by rw [hw]; rfl, hio, ?_⟩
    have hworld := congrArg State.world (hlead.unique hlead₁ [])
    exact hworld.trans hy.world
  · exact absurd hb hlead.not_breaks

end Emits

end ParaCL
