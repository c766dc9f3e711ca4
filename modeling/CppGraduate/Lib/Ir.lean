import Mathlib.Data.List.Infix
import Mathlib.Data.Nat.Notation
import Mathlib.Logic.Function.Basic
import Mathlib.Logic.Function.Iterate

/-!
# A typed intermediate representation and its builder

Code is a map from block labels to lists of instructions. Instructions
compute into registers of two types, one bit and 32-bit words, read and
write memory slots, call out for input and output, and end a block with a
branch or a return. What calling out does to the world is a parameter; an
input call may also not come back.

The machine that runs code is a step function on configurations. A step
whose operands are missing or of the wrong type, or that divides where
division is undefined, leaves the configuration `undefined`.

A builder appends instructions at its insertion point and creates blocks.
The lemmas about it say how code that is still being built is run: in any
completed code, a machine that stands where the builder stood before an
instruction was appended executes that instruction and stands where the
builder stands after it. So a compiler's correctness proof can follow the
calls of the builder and never look at the code as a whole.
-/

namespace Ir

/-! ## Values -/

/-- The types of registers. -/
inductive Ty
  /-- One bit. -/
  | i1
  /-- A 32-bit word. -/
  | i32
deriving DecidableEq

/-- What a register can hold. -/
inductive Word
  /-- A value of type `i1`. -/
  | bit (b : Bool)
  /-- A value of type `i32`. -/
  | word (n : Int32)
deriving DecidableEq

/-- The type of a register's content. -/
def Word.ty : Word → Ty
  | .bit _ => .i1
  | .word _ => .i32

/-- An operand: a constant, or the register an earlier instruction wrote. -/
inductive Value
  /-- A constant. -/
  | const (w : Word)
  /-- A register and the type of its content. -/
  | reg (ty : Ty) (r : ℕ)
deriving DecidableEq

/-- The type of an operand. -/
def Value.ty : Value → Ty
  | .const w => w.ty
  | .reg ty _ => ty

/-- The operations on two operands of one type. -/
inductive BinOp
  | add
  | sub
  | mul
  | sdiv
  | srem
  | and
  | or
  | xor
deriving DecidableEq

/-- The signed comparisons. -/
inductive Pred
  | eq
  | ne
  | sgt
  | sge
  | slt
  | sle
deriving DecidableEq

/-- Whether a signed 32-bit division or remainder is defined. -/
def divisible (l r : Int32) : Bool :=
  r ≠ 0 && !(l = Int32.minValue && r = -1)

/-- The result of an operation, where it is defined. -/
def BinOp.eval : BinOp → Word → Word → Option Word
  | .add, .word l, .word r => some (.word (l + r))
  | .sub, .word l, .word r => some (.word (l - r))
  | .mul, .word l, .word r => some (.word (l * r))
  | .sdiv, .word l, .word r => if divisible l r then some (.word (l / r)) else none
  | .srem, .word l, .word r => if divisible l r then some (.word (l % r)) else none
  | .and, .word l, .word r => some (.word (l &&& r))
  | .or, .word l, .word r => some (.word (l ||| r))
  | .xor, .word l, .word r => some (.word (l ^^^ r))
  | .and, .bit l, .bit r => some (.bit (l && r))
  | .or, .bit l, .bit r => some (.bit (l || r))
  | .xor, .bit l, .bit r => some (.bit (l ^^ r))
  | _, _, _ => none

/-- A comparison of two words. -/
def Pred.holds : Pred → Int32 → Int32 → Bool
  | .eq, l, r => l = r
  | .ne, l, r => l ≠ r
  | .sgt, l, r => l > r
  | .sge, l, r => l ≥ r
  | .slt, l, r => l < r
  | .sle, l, r => l ≤ r

/-! ## Instructions and code -/

/-- The instructions, block terminators among them. -/
inductive Instr
  /-- A memory slot comes into being, its content undefined. -/
  | alloca (slot : ℕ)
  /-- `dst` receives the content of a slot. -/
  | load (dst slot : ℕ)
  /-- A slot receives a value. -/
  | store (v : Value) (slot : ℕ)
  /-- `dst` receives the result of an operation. -/
  | bin (dst : ℕ) (op : BinOp) (l r : Value)
  /-- `dst` receives the result of a comparison. -/
  | icmp (dst : ℕ) (p : Pred) (l r : Value)
  /-- `dst` receives a word from outside. -/
  | input (dst : ℕ)
  /-- A word goes outside. -/
  | output (v : Value)
  /-- The block ends and another begins. -/
  | br (target : ℕ)
  /-- The block ends and one of two others begins. -/
  | condBr (cond : Value) (ifTrue ifFalse : ℕ)
  /-- The function returns. -/
  | ret
deriving DecidableEq

/-- Whether the operands have the types the instruction accepts: two
operands of an operation the same, words to compare, to store and to print,
a bit to branch on. -/
def Instr.WellTyped : Instr → Prop
  | .store v _ => v.ty = .i32
  | .bin _ _ l r => l.ty = r.ty
  | .icmp _ _ l r => l.ty = .i32 ∧ r.ty = .i32
  | .output v => v.ty = .i32
  | .condBr c _ _ => c.ty = .i1
  | _ => True

instance (i : Instr) : Decidable i.WellTyped := by
  cases i <;> unfold Instr.WellTyped <;> infer_instance

/-- Code: the instructions of each block. -/
abbrev Code := ℕ → List Instr

/-! ## Running code -/

/-- The world the machine calls: an input call may not return. -/
structure Env (W : Type) where
  /-- The next word from outside and the world after reading it. -/
  input : W → Option (Int32 × W)
  /-- The world after a word went outside. -/
  output : Int32 → W → W

/-- A running machine. -/
structure State (W : Type) where
  /-- The instructions of the block that are still to be executed. -/
  rest : List Instr
  /-- The registers; unwritten and undefined ones hold nothing. -/
  regs : ℕ → Option Word
  /-- The memory slots. -/
  mem : ℕ → Option Word
  /-- The world outside. -/
  world : W

/-- A machine, running or not. -/
inductive Config (W : Type)
  /-- Executing instructions. -/
  | running (s : State W)
  /-- After a return. -/
  | returned (world : W)
  /-- After an input call that did not come back. -/
  | exited (world : W)
  /-- After an instruction without a defined effect. -/
  | undefined (world : W)

/-- The world of a configuration. -/
def Config.world {W : Type} : Config W → W
  | .running s => s.world
  | .returned w => w
  | .exited w => w
  | .undefined w => w

section Machine

variable {W : Type} (E : Env W) (F : Code)

/-- The content of an operand. -/
def State.eval (s : State W) : Value → Option Word
  | .const w => some w
  | .reg _ r => s.regs r

/-- The effect of one instruction. -/
def exec (s : State W) : Instr → Config W
  | .alloca slot => .running { s with mem := Function.update s.mem slot none }
  | .load dst slot => .running { s with regs := Function.update s.regs dst (s.mem slot) }
  | .store v slot =>
    match s.eval v with
    | some w => .running { s with mem := Function.update s.mem slot (some w) }
    | none => .undefined s.world
  | .bin dst op l r =>
    match s.eval l, s.eval r with
    | some a, some b =>
      match op.eval a b with
      | some w => .running { s with regs := Function.update s.regs dst (some w) }
      | none => .undefined s.world
    | _, _ => .undefined s.world
  | .icmp dst p l r =>
    match s.eval l, s.eval r with
    | some (.word a), some (.word b) =>
      .running { s with regs := Function.update s.regs dst (some (.bit (p.holds a b))) }
    | _, _ => .undefined s.world
  | .input dst =>
    match E.input s.world with
    | some (n, w) =>
      .running { s with regs := Function.update s.regs dst (some (.word n)), world := w }
    | none => .exited s.world
  | .output v =>
    match s.eval v with
    | some (.word n) => .running { s with world := E.output n s.world }
    | _ => .undefined s.world
  | .br target => .running { s with rest := F target }
  | .condBr c ifTrue ifFalse =>
    match s.eval c with
    | some (.bit b) => .running { s with rest := F (if b then ifTrue else ifFalse) }
    | _ => .undefined s.world
  | .ret => .returned s.world

/-- One step: the next instruction of the block. -/
def step : Config W → Config W
  | .running s =>
    match s.rest with
    | [] => .undefined s.world
    | i :: rest => exec E F { s with rest := rest } i
  | c => c

/-- The next instruction of the block is executed. -/
theorem step_cons {s : State W} {i : Instr} {rest : List Instr} (h : s.rest = i :: rest) :
    step E F (.running s) = exec E F { s with rest := rest } i := by
  obtain ⟨_, regs, mem, world⟩ := s
  cases h
  rfl

/-- A block does not end without a terminator. -/
theorem step_nil {s : State W} (h : s.rest = []) :
    step E F (.running s) = .undefined s.world := by
  obtain ⟨_, regs, mem, world⟩ := s
  cases h
  rfl

/-- A number of steps. -/
def run (n : ℕ) (c : Config W) : Config W := (step E F)^[n] c

variable {E F}

/-- Steps one after another. -/
theorem run_add (m n : ℕ) (c : Config W) : run E F (m + n) c = run E F n (run E F m c) := by
  rw [Nat.add_comm]
  exact Function.iterate_add_apply _ n m c

/-- A run reached by way of another. -/
theorem run_trans {m n : ℕ} {c d e : Config W} (h : run E F m c = d) (h' : run E F n d = e) :
    run E F (m + n) c = e := by
  rw [run_add, h, h']

/-- A machine that does not run stays as it is. -/
theorem run_stopped {c : Config W} (h : ∀ s, c ≠ .running s) (n : ℕ) : run E F n c = c := by
  induction n with
  | zero => rfl
  | succ n ih =>
    rw [run_add, ih]
    cases c with
    | running s => exact absurd rfl (h s)
    | _ => rfl

/-- A machine that has stopped has stopped for good. -/
theorem run_stopped_of_le {m n : ℕ} {c d : Config W} (h : run E F m c = d)
    (hd : ∀ s, d ≠ .running s) (hmn : m ≤ n) : run E F n c = d := by
  obtain ⟨k, rfl⟩ := Nat.exists_eq_add_of_le hmn
  exact run_trans h (run_stopped hd k)

/-- What every call keeps, every instruction keeps. -/
theorem exec_world {R : W → W → Prop} (hrefl : ∀ w, R w w)
    (hin : ∀ w n w', E.input w = some (n, w') → R w w') (hout : ∀ n w, R w (E.output n w))
    (s : State W) (i : Instr) : R s.world (exec E F s i).world := by
  cases i <;> simp only [exec] <;> repeat' split
  all_goals first
    | exact hrefl _
    | exact hin _ _ _ (by assumption)
    | exact hout _ _

/-- **What every call keeps, every run keeps.** -/
theorem run_world {R : W → W → Prop} (hrefl : ∀ w, R w w)
    (htrans : ∀ u v w, R u v → R v w → R u w)
    (hin : ∀ w n w', E.input w = some (n, w') → R w w') (hout : ∀ n w, R w (E.output n w))
    (n : ℕ) (c : Config W) : R c.world (run E F n c).world := by
  induction n with
  | zero => exact hrefl _
  | succ n ih =>
    refine htrans _ _ _ ih ?_
    rw [run_add]
    show R _ (step E F (run E F n c)).world
    cases run E F n c with
    | running s =>
      cases h : s.rest with
      | nil =>
        rw [step_nil E F h]
        exact hrefl _
      | cons i rest =>
        rw [step_cons E F h]
        exact exec_world hrefl hin hout { s with rest := rest } i
    | returned w => exact hrefl w
    | exited w => exact hrefl w
    | undefined w => exact hrefl w

/-! ### Straight-line code -/

/-- Instructions lead from one state to another, whatever follows them. -/
def Leads (E : Env W) (F : Code) (is : List Instr) (s s' : State W) : Prop :=
  ∀ rest, run E F is.length (.running { s with rest := is ++ rest })
    = .running { s' with rest := rest }

/-- Instructions that are not executed to their end. -/
def Breaks (E : Env W) (F : Code) (is : List Instr) (s : State W) : Prop :=
  ∀ rest s', run E F is.length (.running { s with rest := is ++ rest }) ≠ .running s'

variable {is js : List Instr} {i : Instr} {s s' s'' : State W}

/-- No instructions. -/
theorem Leads.nil (s : State W) : Leads E F [] s s := fun _ => rfl

/-- One instruction. -/
theorem Leads.single
    (h : ∀ rest, exec E F { s with rest := rest } i = .running { s' with rest := rest }) :
    Leads E F [i] s s' := h

/-- One instruction that is not executed to its end. -/
theorem Breaks.single (h : ∀ rest s', exec E F { s with rest := rest } i ≠ .running s') :
    Breaks E F [i] s := h

/-- **Code after code.** -/
theorem Leads.append (h : Leads E F is s s') (h' : Leads E F js s' s'') :
    Leads E F (is ++ js) s s'' := fun rest => by
  rw [List.length_append, List.append_assoc]
  exact run_trans (h (js ++ rest)) (h' rest)

/-- Code that does not come to its end, before other code. -/
theorem Breaks.append_left (h : Breaks E F is s) (js : List Instr) :
    Breaks E F (is ++ js) s := fun rest s' => by
  rw [List.length_append, List.append_assoc, run_add]
  rw [run_stopped (h (js ++ rest))]
  exact h (js ++ rest) s'

/-- Code that does not come to its end, after other code. -/
theorem Breaks.append_right (h : Leads E F is s s') (h' : Breaks E F js s') :
    Breaks E F (is ++ js) s := fun rest s'' => by
  rw [List.length_append, List.append_assoc, run_add, h (js ++ rest)]
  exact h' rest s''

/-- Code comes to its end or it does not. -/
theorem Leads.not_breaks (h : Leads E F is s s') : ¬ Breaks E F is s := fun hb =>
  hb [] _ (h [])

/-- Code leads to one state only, what follows it apart. -/
theorem Leads.unique (h : Leads E F is s s') (h' : Leads E F is s s'') (rest : List Instr) :
    { s' with rest := rest } = { s'' with rest := rest } :=
  Config.running.inj ((h rest).symm.trans (h' rest))

/-! ### Single instructions -/

/-- What follows in the block does not change the content of an operand. -/
@[simp]
theorem eval_rest (s : State W) (rest : List Instr) (v : Value) :
    { s with rest := rest }.eval v = s.eval v := by
  cases v <;> rfl

/-- A state with a new content of a register. -/
def State.setReg (s : State W) (dst : ℕ) (w : Option Word) : State W :=
  { s with regs := Function.update s.regs dst w }

/-- The register written. -/
@[simp]
theorem eval_setReg_self (s : State W) (ty : Ty) (dst : ℕ) (w : Option Word) :
    (s.setReg dst w).eval (.reg ty dst) = w :=
  Function.update_self ..

/-- The other registers. -/
theorem setReg_regs_of_ne (s : State W) {q dst : ℕ} (w : Option Word) (h : q ≠ dst) :
    (s.setReg dst w).regs q = s.regs q :=
  Function.update_of_ne h ..

variable {dst slot : ℕ} {l r v : Value} {op : BinOp} {a b w : Word}

/-- A load. -/
theorem leads_load (s : State W) (dst slot : ℕ) :
    Leads E F [.load dst slot] s (s.setReg dst (s.mem slot)) :=
  Leads.single fun _ => rfl

/-- A store. -/
theorem leads_store (hv : s.eval v = some w) :
    Leads E F [.store v slot] s { s with mem := Function.update s.mem slot (some w) } :=
  Leads.single fun rest => by simp only [exec, eval_rest, hv]

/-- An operation. -/
theorem leads_bin (hl : s.eval l = some a) (hr : s.eval r = some b) (h : op.eval a b = some w) :
    Leads E F [.bin dst op l r] s (s.setReg dst (some w)) :=
  Leads.single fun rest => by simp only [exec, eval_rest, hl, hr, h, State.setReg]

/-- An operation that is not defined. -/
theorem breaks_bin (hl : s.eval l = some a) (hr : s.eval r = some b) (h : op.eval a b = none) :
    Breaks E F [.bin dst op l r] s :=
  Breaks.single fun rest s' hrun => by
    simp only [exec, eval_rest, hl, hr, h] at hrun
    cases hrun

/-- A comparison. -/
theorem leads_icmp {p : Pred} {x y : Int32} (hl : s.eval l = some (.word x))
    (hr : s.eval r = some (.word y)) :
    Leads E F [.icmp dst p l r] s (s.setReg dst (some (.bit (p.holds x y)))) :=
  Leads.single fun rest => by simp only [exec, eval_rest, hl, hr, State.setReg]

/-- An input call that comes back. -/
theorem leads_input {n : Int32} {w : W} (h : E.input s.world = some (n, w)) :
    Leads E F [.input dst] s { s.setReg dst (some (.word n)) with world := w } :=
  Leads.single fun rest => by simp only [exec, h, State.setReg]

/-- An input call that does not come back. -/
theorem breaks_input (h : E.input s.world = none) : Breaks E F [.input dst] s :=
  Breaks.single fun rest s' hrun => by
    simp only [exec, h] at hrun
    cases hrun

/-- An output call. -/
theorem leads_output {n : Int32} (hv : s.eval v = some (.word n)) :
    Leads E F [.output v] s { s with world := E.output n s.world } :=
  Leads.single fun rest => by simp only [exec, eval_rest, hv]

/-- Making slots. -/
theorem exists_leads_alloca (h : ∀ i ∈ is, ∃ slot, i = .alloca slot) (s : State W) :
    ∃ s', Leads E F is s s' ∧ s'.world = s.world := by
  induction is generalizing s with
  | nil => exact ⟨s, .nil s, rfl⟩
  | cons i is ih =>
    obtain ⟨slot, rfl⟩ := h i List.mem_cons_self
    have hone : Leads E F [.alloca slot] s { s with mem := Function.update s.mem slot none } :=
      Leads.single fun _ => rfl
    obtain ⟨s', hlead, hworld⟩ := ih (fun j hj => h j (List.mem_cons_of_mem _ hj)) _
    exact ⟨s', hone.append hlead, hworld⟩

/-- A branch on a truth value. -/
theorem run_condBr {x y : ℕ} {t : Bool} {rest : List Instr} (h : s.rest = .condBr v x y :: rest)
    (hv : s.eval v = some (.bit t)) :
    run E F 1 (.running s) = .running { s with rest := F (if t then x else y) } := by
  show step E F (.running s) = _
  rw [step_cons E F h]
  simp only [exec, eval_rest, hv]

/-- A branch. -/
theorem run_br {x : ℕ} {rest : List Instr} (h : s.rest = .br x :: rest) :
    run E F 1 (.running s) = .running { s with rest := F x } :=
  step_cons E F h

/-- A return. -/
theorem run_ret {rest : List Instr} (h : s.rest = .ret :: rest) :
    run E F 1 (.running s) = .returned s.world :=
  step_cons E F h

end Machine

/-! ## The builder -/

/-- Code under construction. -/
structure Builder where
  /-- The blocks so far. -/
  code : Code
  /-- The label of the next block to be created. -/
  nextBlock : ℕ
  /-- The next register to be written. -/
  nextReg : ℕ
  /-- The block instructions are appended to. -/
  point : ℕ

namespace Builder

/-- A function with an empty entry block, which instructions go to. -/
def start : Builder := ⟨fun _ => [], 1, 0, 0⟩

/-- Append an instruction at the insertion point. -/
def emit (b : Builder) (i : Instr) : Builder :=
  { b with code := Function.update b.code b.point (b.code b.point ++ [i]) }

/-- Append an instruction that writes a register, and take that register's
number. -/
def emitReg (b : Builder) (i : ℕ → Instr) : Builder :=
  { b.emit (i b.nextReg) with nextReg := b.nextReg + 1 }

/-- Append instructions at the insertion point that write the next `regs`
registers. -/
def append (b : Builder) (is : List Instr) (regs : ℕ) : Builder :=
  { b with code := Function.update b.code b.point (b.code b.point ++ is)
           nextReg := b.nextReg + regs }

/-- Put an instruction at the beginning of a block. -/
def prepend (b : Builder) (block : ℕ) (i : Instr) : Builder :=
  { b with code := Function.update b.code block (i :: b.code block) }

/-- A new, empty block. -/
def createBlock (b : Builder) : Builder := { b with nextBlock := b.nextBlock + 1 }

/-- Move the insertion point to the end of a block. -/
def setInsertPoint (b : Builder) (block : ℕ) : Builder := { b with point := block }

/-- End the block with a branch on `c` to one of two new blocks, and go on
in the first of them. -/
def fork (b : Builder) (c : Value) : Builder :=
  ((b.createBlock.createBlock.emit (.condBr c b.nextBlock (b.nextBlock + 1))).setInsertPoint
    b.nextBlock)

/-- End the block with a branch and go on in another block. -/
def join (b : Builder) (i : Instr) (block : ℕ) : Builder := (b.emit i).setInsertPoint block

/-! ### Appending -/

/-- No instruction is nothing. -/
theorem append_nil (b : Builder) : b.append [] 0 = b := by
  unfold append
  rw [List.append_nil, Function.update_eq_self]
  rfl

/-- Instructions after instructions. -/
theorem append_append (b : Builder) (is js : List Instr) (k l : ℕ) :
    (b.append is k).append js l = b.append (is ++ js) (k + l) := by
  unfold append
  simp only [Function.update_self, Function.update_idem, List.append_assoc, Nat.add_assoc]

/-- What was appended can be told from the result. -/
theorem append_inj {b : Builder} {is js : List Instr} {k l : ℕ}
    (h : b.append is k = b.append js l) : is = js := by
  have hcode := congrFun (congrArg Builder.code h) b.point
  simp only [append, Function.update_self] at hcode
  exact List.append_cancel_left hcode

/-! ### What the builder keeps -/

/-- The insertion point is a block there is, and blocks not created are
empty. -/
structure WellFormed (b : Builder) : Prop where
  /-- The insertion point is a block there is. -/
  point_lt : b.point < b.nextBlock
  /-- What was not created is empty. -/
  fresh : ∀ l, b.nextBlock ≤ l → b.code l = []

/-- **Later builders**: code was only appended, to the insertion point and
to blocks created since, and the insertion point stays or is a block created
since. -/
structure Extends (b b' : Builder) : Prop where
  /-- Nothing was removed. -/
  prefix_code : ∀ l, b.code l <+: b'.code l
  /-- No block was removed. -/
  nextBlock_le : b.nextBlock ≤ b'.nextBlock
  /-- No register was taken twice. -/
  nextReg_le : b.nextReg ≤ b'.nextReg
  /-- The other blocks are as they were. -/
  frame : ∀ l, l < b.nextBlock → l ≠ b.point → b'.code l = b.code l
  /-- The insertion point is the same or a new block. -/
  point_eq : b'.point = b.point ∨ b.nextBlock ≤ b'.point

/-- Nothing happened. -/
theorem Extends.refl (b : Builder) : Extends b b :=
  ⟨fun _ => List.prefix_rfl, le_rfl, le_rfl, fun _ _ _ => rfl, Or.inl rfl⟩

/-- One after another. -/
theorem Extends.trans {a b c : Builder} (hab : Extends a b) (hbc : Extends b c) : Extends a c where
  prefix_code l := (hab.prefix_code l).trans (hbc.prefix_code l)
  nextBlock_le := hab.nextBlock_le.trans hbc.nextBlock_le
  nextReg_le := hab.nextReg_le.trans hbc.nextReg_le
  frame l hl hne := by
    rw [hbc.frame l (lt_of_lt_of_le hl hab.nextBlock_le), hab.frame l hl hne]
    rintro rfl
    rcases hab.point_eq with h | h
    · exact hne h
    · exact absurd h (not_le.mpr hl)
  point_eq := by
    rcases hbc.point_eq with h | h
    · rw [h]
      exact hab.point_eq
    · exact Or.inr (hab.nextBlock_le.trans h)

/-- Appending instructions. -/
theorem extends_append (b : Builder) (is : List Instr) (k : ℕ) : Extends b (b.append is k) where
  prefix_code l := by
    by_cases hl : l = b.point
    · subst hl
      simp [append]
    · simp [append, Function.update_of_ne hl]
  nextBlock_le := le_rfl
  nextReg_le := Nat.le_add_right _ _
  frame l _ hne := by simp [append, Function.update_of_ne hne]
  point_eq := Or.inl rfl

/-- Appended instructions keep the builder well formed. -/
theorem WellFormed.append {b : Builder} (h : b.WellFormed) (is : List Instr) (k : ℕ) :
    (b.append is k).WellFormed where
  point_lt := h.point_lt
  fresh l hl := by
    have hne : l ≠ b.point := (lt_of_lt_of_le h.point_lt hl).ne'
    simp only [Builder.append, Function.update_of_ne hne]
    exact h.fresh l hl

/-! ### Branching -/

variable {b b' : Builder} {c : Value}

/-- The new blocks are empty. -/
theorem WellFormed.fork_code (h : b.WellFormed) (c : Value) {l : ℕ} (hl : b.nextBlock ≤ l) :
    (b.fork c).code l = [] := by
  have hne : l ≠ b.point := (lt_of_lt_of_le h.point_lt hl).ne'
  show Function.update b.code b.point _ l = []
  rw [Function.update_of_ne hne, h.fresh l hl]

/-- Branching keeps the builder well formed. -/
theorem WellFormed.fork (h : b.WellFormed) (c : Value) : (b.fork c).WellFormed where
  point_lt := Nat.lt_add_of_pos_right Nat.two_pos
  fresh _ hl := h.fork_code c ((Nat.le_add_right _ 2).trans hl)

/-- Branching appends one instruction and goes on in a new block. -/
theorem extends_fork (b : Builder) (c : Value) : Extends b (b.fork c) where
  prefix_code := (extends_append b [.condBr c b.nextBlock (b.nextBlock + 1)] 0).prefix_code
  nextBlock_le := Nat.le_add_right _ 2
  nextReg_le := le_rfl
  frame := (extends_append b [.condBr c b.nextBlock (b.nextBlock + 1)] 0).frame
  point_eq := Or.inr le_rfl

/-- The second block is not touched while the first one is built, so it is
still empty when it is gone on with. -/
theorem WellFormed.join_code (h : b.WellFormed) (he : Extends (b.fork c) b') (i : Instr) :
    (b'.join i (b.nextBlock + 1)).code (b.nextBlock + 1) = [] := by
  have hne : b.nextBlock + 1 ≠ b'.point := by
    rcases he.point_eq with hp | hp
    · rw [hp]
      exact (Nat.lt_succ_self _).ne'
    · exact (Nat.lt_of_succ_le hp).ne
  have hframe := he.frame (b.nextBlock + 1) (Nat.lt_succ_self _) (Nat.lt_succ_self _).ne'
  show Function.update b'.code b'.point _ (b.nextBlock + 1) = []
  rw [Function.update_of_ne hne]
  exact hframe.trans (h.fork_code c (Nat.le_succ _))

/-- Going on in the second block keeps the builder well formed. -/
theorem WellFormed.join (h : b'.WellFormed) (he : Extends (b.fork c) b') (i : Instr) :
    (b'.join i (b.nextBlock + 1)).WellFormed where
  point_lt := lt_of_lt_of_le (Nat.lt_succ_self _) he.nextBlock_le
  fresh := (h.append [i] 0).fresh

/-- All in all, code was appended, and there are new blocks. -/
theorem extends_join (he : Extends (b.fork c) b') (i : Instr) :
    Extends b (b'.join i (b.nextBlock + 1)) where
  prefix_code l := (((extends_fork b c).trans he).prefix_code l).trans
    ((extends_append b' [i] 0).prefix_code l)
  nextBlock_le := (Nat.le_add_right _ 2).trans he.nextBlock_le
  nextReg_le := he.nextReg_le
  frame l hl hne := by
    have hl' : l < (b.fork c).nextBlock := lt_of_lt_of_le hl (Nat.le_add_right _ 2)
    have hne' : l ≠ b'.point := by
      rcases he.point_eq with hp | hp
      · rw [hp]
        exact hl.ne
      · exact (lt_of_lt_of_le hl' hp).ne
    show Function.update b'.code b'.point _ l = b.code l
    rw [Function.update_of_ne hne', he.frame l hl' hl.ne, (extends_fork b c).frame l hl hne]
  point_eq := Or.inr (Nat.le_succ _)

/-! ### Running code under construction -/

/-- The completed code has everything built so far. -/
def Completes (F : Code) (b : Builder) : Prop := ∀ l, b.code l <+: F l

/-- What completes a later builder completes an earlier one. -/
theorem Completes.of_extends {F : Code} {b b' : Builder} (h : Completes F b')
    (he : Extends b b') : Completes F b := fun l =>
  (he.prefix_code l).trans (h l)

variable {W : Type} {E : Env W} {F : Code} {s : State W} {b : Builder}

/-- A machine stands where the builder stands: what is left of its block is
what is still to be appended. -/
def At (F : Code) (b : Builder) (s : State W) : Prop :=
  s.rest = (F b.point).drop (b.code b.point).length

/-- **The instructions appended next are those executed next.** -/
theorem At.rest_append {is : List Instr} {k : ℕ} (hs : At F b s)
    (hF : Completes F (b.append is k)) :
    ∃ more, s.rest = is ++ more ∧ ∀ s' : State W, s'.rest = more → At F (b.append is k) s' := by
  obtain ⟨more, hmore⟩ := hF b.point
  simp only [append, Function.update_self] at hmore
  refine ⟨more, ?_, fun s' hs' => ?_⟩
  · rw [hs, ← hmore, List.append_assoc, List.drop_left]
  · show s'.rest = (F b.point).drop ((b.append is k).code b.point).length
    simp only [append, Function.update_self]
    rw [hs', ← hmore, List.drop_left]

/-- **Appended straight-line code is executed**, and after it the machine
stands where the builder does. -/
theorem At.leads {is : List Instr} {k : ℕ} {s' : State W} (hs : At F b s)
    (hF : Completes F (b.append is k)) (h : Leads E F is s s') :
    ∃ more, run E F is.length (.running s) = .running { s' with rest := more }
      ∧ At F (b.append is k) { s' with rest := more } := by
  obtain ⟨more, hrest, hat⟩ := hs.rest_append hF
  refine ⟨more, ?_, hat _ rfl⟩
  rw [← h more, ← hrest]

/-- A machine at the beginning of a block stands where a builder does whose
insertion point is that block, still empty. -/
theorem at_of_empty {w : State W} (hrest : w.rest = F b.point) (hempty : b.code b.point = []) :
    At F b w := by
  unfold At
  rw [hrest, hempty]
  rfl

end Builder

end Ir
