import CppGraduate.ParaCL.Nodes
import Mathlib.Logic.Relation

/-!
# Runs of the interpreter

What is common to all runs of `calc`. Reading again and again from the
standard input is described once, as is what every run keeps: a failed input
stays failed, and printed integers stay printed.

A run of `calc` on a node evaluates other nodes, each in some state. The
relation `Sub` says which ones directly, following the order of evaluation,
the conditions and the passes of loops; `Visits` is its closure. A run that
ends without a value in a node it visits ends so as a whole, and a run that
ends without a value has visited a node that did so by itself, unless it was
a loop that did not end.
-/

namespace ParaCL

/-! ## Reading one integer after another -/

namespace Stdio

/-- The streams after `n` reads. -/
def skip (io : Stdio) (n : ℕ) : Stdio := (fun io => io.read.2)^[n] io

/-- What the read after `k` others yields. -/
def next (io : Stdio) (k : ℕ) : Int32 := (io.skip k).read.1

/-- One read. -/
theorem skip_one (io : Stdio) : io.skip 1 = io.read.2 :=
  rfl

/-- Reads one after another. -/
theorem skip_add (io : Stdio) (m n : ℕ) : io.skip (m + n) = (io.skip m).skip n := by
  unfold skip
  rw [Nat.add_comm, Function.iterate_add_apply]

/-- The integers after the first `m`. -/
theorem next_skip (io : Stdio) (m : ℕ) : (io.skip m).next = fun k => io.next (m + k) := by
  funext k
  unfold next
  rw [skip_add]

/-- A read that does not fail finds the streams in order and moves on by
one. -/
theorem read_of_not_failed {io : Stdio} (h : io.read.2.failed = false) :
    io.failed = false ∧ io.read.2.pos = io.pos + 1 := by
  unfold read at *
  cases hf : io.failed with
  | true =>
    rw [hf, if_pos rfl] at h
    rw [hf] at h
    cases h
  | false =>
    rw [hf] at h
    simp only [Bool.false_eq_true, if_false] at h ⊢
    split at h
    · split_ifs at h ⊢
      exact ⟨trivial, rfl⟩
    · cases h

/-- A read prints nothing. -/
theorem read_out (io : Stdio) : io.read.2.out = io.out := by
  unfold read
  split_ifs
  · rfl
  · split
    · split_ifs <;> rfl
    · rfl

/-- Reads that do not fail move on by one each. -/
theorem skip_of_not_failed {io : Stdio} {n : ℕ} (h : (io.skip n).failed = false) :
    io.failed = false ∧ (io.skip n).pos = io.pos + n := by
  induction n with
  | zero => exact ⟨h, rfl⟩
  | succ n ih =>
    rw [skip_add, skip_one] at h ⊢
    obtain ⟨hfail, hpos⟩ := read_of_not_failed h
    obtain ⟨hio, hn⟩ := ih hfail
    exact ⟨hio, by rw [hpos, hn, Nat.add_assoc]⟩

/-- A read does not go back. -/
theorem pos_le_read (io : Stdio) : io.pos ≤ io.read.2.pos := by
  unfold read
  split_ifs
  · exact le_rfl
  · split
    · split_ifs <;> exact Nat.le_succ _
    · exact le_rfl

/-- `io'` comes after `io`: a failure is not undone, what was read is not
read again, and what was printed stays. -/
structure Later (io io' : Stdio) : Prop where
  /-- A failed input stays failed. -/
  failed : io'.failed = false → io.failed = false
  /-- What was read is not read again. -/
  pos : io.pos ≤ io'.pos
  /-- What was printed stays printed. -/
  out : io.out <+: io'.out

theorem Later.refl (io : Stdio) : Later io io :=
  ⟨id, le_rfl, List.prefix_rfl⟩

theorem Later.trans {a b c : Stdio} (hab : Later a b) (hbc : Later b c) : Later a c :=
  ⟨fun h => hab.failed (hbc.failed h), hab.pos.trans hbc.pos, hab.out.trans hbc.out⟩

/-- After a read. -/
theorem later_read (io : Stdio) : Later io io.read.2 :=
  ⟨fun h => (read_of_not_failed h).1, pos_le_read io, by rw [read_out]⟩

/-- After printing. -/
theorem later_print (io : Stdio) (n : Int32) : Later io (io.print n) :=
  ⟨id, le_rfl, List.prefix_append _ _⟩

end Stdio

/-! ## What every run keeps -/

/-- A relation between states that reading, printing and assigning keep. -/
structure Kept (R : St → St → Prop) : Prop where
  /-- Nothing happens. -/
  refl : ∀ a, R a a
  /-- One after another. -/
  trans : ∀ a b c, R a b → R b c → R a c
  /-- Reading. -/
  read : ∀ st : St, R st { st with io := st.io.read.2 }
  /-- Printing. -/
  print : ∀ (st : St) (v : Int32), R st { st with io := st.io.print v }
  /-- Assigning. -/
  assign : ∀ (st : St) (id : ℕ) (v : Int32),
    R st { st with vals := Function.update st.vals id (some v) }

section Keeps

variable {R : St → St → Prop}

/-- A computation takes a state to a related one. -/
def Run.Keeps {α : Type} (R : St → St → Prop) (m : Run α) : Prop := ∀ st, R st (m st).2

/-- Computations one after another. -/
theorem Run.Keeps.bind {α β : Type} {m : Run α} {f : α → Run β} (hR : Kept R)
    (hm : m.Keeps R) (hf : ∀ a, (f a).Keeps R) : (m >>= f).Keeps R := by
  intro st
  have hst := hm st
  match h : m st with
  | (.ok a, st') =>
    rw [Run.bind_ok h]
    rw [h] at hst
    exact hR.trans _ _ _ hst (hf a st')
  | (.error e, st') =>
    rw [Run.bind_error h]
    rw [h] at hst
    exact hst

/-- The operand evaluated next is one of the two. -/
theorem INode.next_eq {left : INode} {op : Operation} {right node : INode} {vs : List Int32}
    (h : next left op right vs = some node) : node = left ∨ node = right := by
  unfold next at h
  split at h
  · split at h
    all_goals first
      | (split at h <;> simp_all)
      | simp_all
  · split at h
    all_goals first
      | (split at h <;> simp_all)
      | simp_all
  · split at h <;> simp_all
  · cases h

/-- What ends at once, with or without a value. -/
theorem Run.Keeps.pure {α : Type} (hR : Kept R) (a : α) : (Pure.pure a : Run α).Keeps R :=
  hR.refl

/-- The passes of a loop. -/
theorem whileLoop_keeps (hR : Kept R) {op scope : Run Int32} (ho : op.Keeps R)
    (hs : scope.Keeps R) (k : ℕ) : (whileLoop op scope k).Keeps R := by
  induction k with
  | zero => exact hR.refl
  | succ k ih =>
    refine ho.bind hR (fun v => ?_)
    split
    · exact .pure hR _
    · exact hs.bind hR (fun _ => ih)

/-- **What reading, printing and assigning keep, every run keeps.** -/
theorem INode.calc_keeps (hR : Kept R) (fuel : ℕ) (n : INode) : (n.calc fuel).Keeps R := by
  have hpure : ∀ {α : Type} (a : α), (pure a : Run α).Keeps R := .pure hR
  have hstop : ∀ {α : Type} (e : Stop), (Run.stop e : Run α).Keeps R := fun _ st => hR.refl st
  induction n with
  | null => exact hstop _
  | value val => exact hpure _
  | decl id varname =>
    intro st
    show R _ (Run.getValue id st).2
    unfold Run.getValue
    split <;> exact hR.refl _
  | emptyScope => exact hpure _
  | addBranch scope branch ihs ihb =>
    exact ihs.bind hR (fun _ => ihb.bind hR (fun _ => hpure _))
  | whileNode op scope iho ihs => exact whileLoop_keeps hR iho ihs fuel
  | ifNode op scope iho ihs =>
    refine iho.bind hR (fun v => ?_)
    split
    · exact hpure _
    · exact ihs.bind hR (fun _ => hpure _)
  | operand left op right ihl ihr =>
    -- the parts of an operation that change the state or stop
    have hdivide : ∀ (f : Int32 → Int32 → Int32) (a b : Int32), (if Ir.divisible a b then pure (f a b)
        else Run.stop (.undefined (.division a b)) : Run Int32).Keeps R := by
      intro f a b
      split
      · exact hpure _
      · exact hstop _
    have hset : ∀ v, (left.setValue v).Keeps R := by
      intro v
      unfold INode.setValue
      split
      · exact fun st => hR.assign st _ v
      · exact hstop _
    have hfinish : ∀ vs, (finish left op vs).Keeps R := by
      intro vs
      unfold finish
      split
      · exact fun st => hR.read st
      · split
        all_goals first
          | exact hpure _
          | exact hstop _
          | exact (hset _).bind hR (fun _ => hpure _)
          | exact Run.Keeps.bind hR (fun st => hR.print st _) (fun _ => hpure _)
      · split
        all_goals first
          | exact hpure _
          | exact hdivide (fun a b => a % b) _ _
      · exact hdivide (fun a b => a / b) _ _
    have hevaluate : ∀ k vs, (evaluate fuel left op right k vs).Keeps R := by
      intro k
      induction k with
      | zero => exact hfinish
      | succ k ih =>
        intro vs
        unfold evaluate
        split
        · exact hfinish vs
        · rename_i node hnext
          refine Run.Keeps.bind hR ?_ (fun v => ih _)
          rcases next_eq hnext with rfl | rfl
          · exact ihl
          · exact ihr
    rw [calc_operand]
    exact hevaluate 3 []

/-- The streams of the second state come after those of the first. -/
def St.Later (st st' : St) : Prop := st.io.Later st'.io

/-- Every run leads to later streams. -/
theorem St.kept_later : Kept St.Later where
  refl a := .refl a.io
  trans _ _ _ := .trans
  read st := Stdio.later_read st.io
  print st := Stdio.later_print st.io
  assign st _ _ := .refl st.io

/-- What has been assigned stays assigned. -/
def St.Grows (st st' : St) : Prop := ∀ id, (st.vals id).isSome → (st'.vals id).isSome

/-- No run takes a value away. -/
theorem INode.calc_grows (fuel : ℕ) (n : INode) (st : St) : st.Grows (n.calc fuel st).2 := by
  have hR : Kept St.Grows := {
    refl := fun _ _ h => h
    trans := fun _ _ _ hab hbc id h => hbc id (hab id h)
    read := fun _ _ h => h
    print := fun _ _ _ h => h
    assign := by
      intro st id v id' h
      show (Function.update st.vals id (some v) id').isSome
      rw [Function.update_apply]
      split
      · rfl
      · exact h }
  exact calc_keeps hR fuel n st

end Keeps

/-! ## The bound on the passes -/

/-- One computation approximates another: they do the same unless the first
one has run out of passes. -/
def Run.Approximates {α : Type} (m m' : Run α) : Prop :=
  ∀ st, (m st).1 ≠ .error .outOfFuel → m' st = m st

/-- Computations one after another. -/
theorem Run.Approximates.bind {α β : Type} {m m' : Run α} {f f' : α → Run β}
    (hm : m.Approximates m') (hf : ∀ a, (f a).Approximates (f' a)) :
    (m >>= f).Approximates (m' >>= f') := by
  intro st hne
  match h : m st with
  | (.ok a, st') =>
    have h' : m' st = (.ok a, st') := by
      rw [hm st (by rw [h]; exact fun he => nomatch he), h]
    rw [Run.bind_ok h] at hne ⊢
    rw [Run.bind_ok h', hf a st' hne]
  | (.error e, st') =>
    rw [Run.bind_error h] at hne ⊢
    have h' : m' st = (.error e, st') := by
      rw [hm st (fun he => hne (by rw [h] at he; cases he; rfl)), h]
    rw [Run.bind_error h']

/-- More passes. -/
theorem whileLoop_approximates {op op' scope scope' : Run Int32} (ho : op.Approximates op')
    (hs : scope.Approximates scope') {k k' : ℕ} (hk : k ≤ k') :
    (whileLoop op scope k).Approximates (whileLoop op' scope' k') := by
  induction k generalizing k' with
  | zero => exact fun st hne => absurd rfl hne
  | succ k ih =>
    obtain ⟨l, rfl⟩ := Nat.exists_eq_add_of_le hk
    rw [Nat.add_right_comm]
    refine ho.bind fun v => ?_
    split
    · exact fun _ _ => rfl
    · exact hs.bind fun _ => ih (Nat.le_add_right k l)

/-- **The bound does not matter** where it is large enough. -/
theorem INode.calc_approximates {fuel fuel' : ℕ} (h : fuel ≤ fuel') (n : INode) :
    (n.calc fuel).Approximates (n.calc fuel') := by
  have hsame : ∀ {α : Type} (m : Run α), m.Approximates m := fun _ _ _ => rfl
  induction n with
  | null | value | decl | emptyScope => exact hsame _
  | addBranch scope branch ihs ihb => exact ihs.bind fun _ => ihb.bind fun _ => hsame _
  | whileNode op scope iho ihs => exact whileLoop_approximates iho ihs h
  | ifNode op scope iho ihs =>
    refine iho.bind fun v => ?_
    split
    · exact hsame _
    · exact ihs.bind fun _ => hsame _
  | operand left op right ihl ihr =>
    have hevaluate : ∀ k vs, (evaluate fuel left op right k vs).Approximates
        (evaluate fuel' left op right k vs) := by
      intro k
      induction k with
      | zero => exact fun vs => hsame _
      | succ k ih =>
        intro vs
        unfold evaluate
        split
        · exact hsame _
        · rename_i node hnext
          refine Run.Approximates.bind ?_ fun v => ih _
          rcases next_eq hnext with rfl | rfl
          · exact ihl
          · exact ihr
    rw [calc_operand, calc_operand]
    exact hevaluate 3 []

/-! ## The evaluations of a run -/

/-- The operands with values `vs` have been evaluated, in order, and the run
stands in the last state. -/
inductive Evaluated (fuel : ℕ) (left : INode) (op : Operation) (right : INode) (st : St) :
    List Int32 → St → Prop
  /-- Before the first operand. -/
  | nil : Evaluated fuel left op right st [] st
  /-- After one more. -/
  | snoc {vs : List Int32} {node : INode} {st' st'' : St} {v : Int32}
    (h : Evaluated fuel left op right st vs st') (hn : INode.next left op right vs = some node)
    (hv : node.calc fuel st' = (.ok v, st'')) : Evaluated fuel left op right st (vs ++ [v]) st''

/-- A loop stands before its condition after `n` passes. -/
inductive LoopHead (fuel : ℕ) (op scope : INode) (st : St) : ℕ → St → Prop
  /-- Before the first pass. -/
  | zero : LoopHead fuel op scope st 0 st
  /-- After one more. -/
  | succ {n : ℕ} {st₁ st₂ st₃ : St} {v w : Int32} (h : LoopHead fuel op scope st n st₁)
    (hop : op.calc fuel st₁ = (.ok v, st₂)) (hv : v ≠ 0)
    (hs : scope.calc fuel st₂ = (.ok w, st₃)) : LoopHead fuel op scope st (n + 1) st₃

/-- **One evaluation calls another**: `calc` of the first node in the first
state calls `calc` of the second node in the second state. -/
inductive Sub (fuel : ℕ) : INode × St → INode × St → Prop
  /-- The branches before the last one. -/
  | scope {scope branch : INode} {st : St} : Sub fuel (.addBranch scope branch, st) (scope, st)
  /-- The last branch. -/
  | branch {scope branch : INode} {st st' : St} {v : Int32}
    (h : scope.calc fuel st = (.ok v, st')) : Sub fuel (.addBranch scope branch, st) (branch, st')
  /-- The condition of an `if`. -/
  | ifOp {op scope : INode} {st : St} : Sub fuel (.ifNode op scope, st) (op, st)
  /-- The body of an `if`. -/
  | ifScope {op scope : INode} {st st' : St} {v : Int32} (h : op.calc fuel st = (.ok v, st'))
    (hv : v ≠ 0) : Sub fuel (.ifNode op scope, st) (scope, st')
  /-- The condition of a `while`, in any pass. -/
  | whileOp {op scope : INode} {st st' : St} {n : ℕ} (hn : n < fuel)
    (h : LoopHead fuel op scope st n st') : Sub fuel (.whileNode op scope, st) (op, st')
  /-- The body of a `while`, in any pass. -/
  | whileScope {op scope : INode} {st st' st'' : St} {n : ℕ} {v : Int32} (hn : n < fuel)
    (h : LoopHead fuel op scope st n st') (hop : op.calc fuel st' = (.ok v, st''))
    (hv : v ≠ 0) : Sub fuel (.whileNode op scope, st) (scope, st'')
  /-- An operand. -/
  | operand {left right node : INode} {op : Operation} {st st' : St} {vs : List Int32}
    (h : Evaluated fuel left op right st vs st') (hn : INode.next left op right vs = some node) :
    Sub fuel (.operand left op right, st) (node, st')

/-- **The evaluations of a run**: itself, what it calls, what that calls,
and so on. -/
def Visits (fuel : ℕ) : INode × St → INode × St → Prop := Relation.ReflTransGen (Sub fuel)

/-- An evaluation visits what it calls and what that visits. -/
theorem Visits.head {fuel : ℕ} {a b c : INode × St} (h : Sub fuel a b) (h' : Visits fuel b c) :
    Visits fuel a c :=
  Relation.ReflTransGen.head h h'

namespace INode

variable {fuel : ℕ} {left right : INode} {op : Operation} {st st' : St} {vs : List Int32}

/-- Where a next operand is, at most two are evaluated. -/
theorem length_le_of_next {node : INode} (h : next left op right vs = some node) :
    vs.length ≤ 2 := by
  unfold next at h
  split at h
  all_goals simp at h ⊢

/-- An evaluation goes on after the operands evaluated so far. -/
theorem evaluate_of_evaluated (h : Evaluated fuel left op right st vs st') :
    evaluate fuel left op right 3 [] st
      = evaluate fuel left op right (3 - vs.length) vs st' := by
  induction h with
  | nil => rfl
  | @snoc vs node _ _ v h hn hv ih =>
    have hlen := length_le_of_next hn
    have hk : 3 - vs.length = 2 - vs.length + 1 := by omega
    have hk' : 3 - (vs ++ [v]).length = 2 - vs.length := by
      rw [List.length_append, List.length_singleton, Nat.succ_sub_succ]
    rw [ih, hk, hk', evaluate, hn]
    exact Run.bind_ok hv

/-- **An evaluation that ends without a value ends the run that called
it.** -/
theorem calc_error_of_sub {n n' : INode} {st st' st'' : St} {e : Stop}
    (h : Sub fuel (n, st) (n', st')) (he : n'.calc fuel st' = (.error e, st'')) :
    n.calc fuel st = (.error e, st'') := by
  have hloop : ∀ {op scope : INode} {st st' : St} {k : ℕ}, LoopHead fuel op scope st k st' →
      k < fuel → whileLoop (op.calc fuel) (scope.calc fuel) fuel st
        = whileLoop (op.calc fuel) (scope.calc fuel) (fuel - k) st' := by
    intro op scope st st' k hk
    induction hk with
    | zero => exact fun _ => rfl
    | succ h hop hv hs ih =>
      intro hlt
      rw [ih (by omega), Nat.sub_add_eq, ← Nat.succ_pred_eq_of_pos (by omega : 0 < fuel - _)]
      rw [whileLoop, Run.bind_ok hop, if_neg hv, Run.bind_ok hs]
      rfl
  cases h with
  | scope => exact Run.bind_error he
  | branch h => exact (Run.bind_ok h).trans (Run.bind_error he)
  | ifOp => exact Run.bind_error he
  | ifScope h hv =>
    refine (Run.bind_ok h).trans ?_
    rw [if_neg hv]
    exact Run.bind_error he
  | whileOp hn h =>
    show whileLoop _ _ fuel st = _
    rw [hloop h hn, ← Nat.succ_pred_eq_of_pos (by omega : 0 < fuel - _)]
    exact Run.bind_error he
  | whileScope hn h hop hv =>
    show whileLoop _ _ fuel st = _
    rw [hloop h hn, ← Nat.succ_pred_eq_of_pos (by omega : 0 < fuel - _), whileLoop,
      Run.bind_ok hop, if_neg hv]
    exact Run.bind_error he
  | @operand _ _ _ _ _ _ vs h hn =>
    have hlen := length_le_of_next hn
    have hk : 3 - vs.length = 2 - vs.length + 1 := by omega
    rw [calc_operand, evaluate_of_evaluated h, hk, evaluate, hn]
    exact Run.bind_error he

/-- So does one the run visits at any depth. -/
theorem calc_error_of_visits {a b : INode × St} {st'' : St} {e : Stop} (h : Visits fuel a b)
    (he : b.1.calc fuel b.2 = (.error e, st'')) : a.1.calc fuel a.2 = (.error e, st'') := by
  induction h using Relation.ReflTransGen.head_induction_on with
  | refl => exact he
  | head hsub _ ih => exact calc_error_of_sub hsub ih

/-- **Where an operation ends without a value**: in an operand, or at the
operation itself, after all operands. -/
theorem calc_operand_eq_error {e : Stop} {st'' : St}
    (h : (operand left op right).calc fuel st = (.error e, st'')) :
    ∃ vs st', Evaluated fuel left op right st vs st'
      ∧ ((∃ node, next left op right vs = some node ∧ node.calc fuel st' = (.error e, st''))
        ∨ finish left op vs st' = (.error e, st'')) := by
  have hfrom : ∀ k vs st', Evaluated fuel left op right st vs st' →
      evaluate fuel left op right k vs st' = (.error e, st'') →
      ∃ vs st', Evaluated fuel left op right st vs st'
        ∧ ((∃ node, next left op right vs = some node ∧ node.calc fuel st' = (.error e, st''))
          ∨ finish left op vs st' = (.error e, st'')) := by
    intro k
    induction k with
    | zero => exact fun vs st' hev he => ⟨vs, st', hev, Or.inr he⟩
    | succ k ih =>
      intro vs st' hev he
      unfold evaluate at he
      cases hn : next left op right vs with
      | none =>
        rw [hn] at he
        exact ⟨vs, st', hev, Or.inr he⟩
      | some node =>
        rw [hn] at he
        rcases Run.bind_eq_error.mp he with hnode | ⟨v, st₁, hv, hrest⟩
        · exact ⟨vs, st', hev, Or.inl ⟨node, hn, hnode⟩⟩
        · exact ih _ _ (hev.snoc hn hv) hrest
  rw [calc_operand] at h
  exact hfrom 3 [] st .nil h

end INode

/-! ## Where a run ends without a value -/

/-- An evaluation ends without a value by what it does itself. -/
inductive Raises (fuel : ℕ) : INode × St → Stop → Prop
  /-- A null pointer. -/
  | null {st : St} : Raises fuel (.null, st) (.undefined .nullPointer)
  /-- A declaration without a value. -/
  | decl {id : ℕ} {x : String} {st : St} (h : st.vals id = none) :
    Raises fuel (.decl id x, st) (.undefined (.uninitialized id))
  /-- An operation on its operands. -/
  | operand {left right : INode} {op : Operation} {st st' st'' : St} {vs : List Int32} {e : Stop}
    (h : Evaluated fuel left op right st vs st') (he : INode.finish left op vs st' = (.error e, st'')) :
    Raises fuel (.operand left op right, st) e

/-- **Every run that ends without a value has visited an evaluation that
did so by itself**, unless a loop did not end. -/
theorem INode.exists_raises {fuel : ℕ} {e : Stop} {n : INode} {st st'' : St}
    (h : n.calc fuel st = (.error e, st'')) :
    e = .outOfFuel ∨ ∃ m, Visits fuel (n, st) m ∧ Raises fuel m e := by
  have hsub : ∀ {n n' : INode} {st st' : St}, Sub fuel (n, st) (n', st') →
      (e = .outOfFuel ∨ ∃ m, Visits fuel (n', st') m ∧ Raises fuel m e) →
      e = .outOfFuel ∨ ∃ m, Visits fuel (n, st) m ∧ Raises fuel m e := fun hs =>
    Or.imp id fun ⟨m, hm, hr⟩ => ⟨m, Visits.head hs hm, hr⟩
  induction n generalizing st st'' with
  | null =>
    cases h
    exact Or.inr ⟨_, Relation.ReflTransGen.refl, .null⟩
  | value | emptyScope => cases congrArg Prod.fst h
  | decl id x =>
    cases hid : st.vals id with
    | some v =>
      simp only [INode.calc, Run.getValue, hid] at h
      cases congrArg Prod.fst h
    | none =>
      simp only [INode.calc, Run.getValue, hid] at h
      cases h
      exact Or.inr ⟨_, Relation.ReflTransGen.refl, .decl hid⟩
  | addBranch scope branch ihs ihb =>
    rcases Run.bind_eq_error.mp h with hs | ⟨v, st₁, hs, h⟩
    · exact hsub .scope (ihs hs)
    · rcases Run.bind_eq_error.mp h with hb | ⟨w, st₂, hb, h⟩
      · exact hsub (.branch hs) (ihb hb)
      · cases congrArg Prod.fst h
  | ifNode op scope iho ihs =>
    rcases Run.bind_eq_error.mp h with ho | ⟨v, st₁, ho, h⟩
    · exact hsub .ifOp (iho ho)
    · split at h
      · cases congrArg Prod.fst h
      · rename_i hv
        rcases Run.bind_eq_error.mp h with hs | ⟨w, st₂, hs, h⟩
        · exact hsub (.ifScope ho hv) (ihs hs)
        · cases congrArg Prod.fst h
  | whileNode op scope iho ihs =>
    -- by induction on the passes still allowed, from any pass on
    have hloop : ∀ k j st', j + k = fuel → LoopHead fuel op scope st j st' →
        whileLoop (op.calc fuel) (scope.calc fuel) k st' = (.error e, st'') →
        e = .outOfFuel ∨ ∃ m, Visits fuel (.whileNode op scope, st) m ∧ Raises fuel m e := by
      intro k
      induction k with
      | zero =>
        intro j st' _ _ hw
        cases hw
        exact Or.inl rfl
      | succ k ih =>
        intro j st' hj hhead hw
        have hlt : j < fuel := hj ▸ Nat.lt_add_of_pos_right (Nat.succ_pos k)
        rcases Run.bind_eq_error.mp hw with ho | ⟨v, st₁, ho, hw⟩
        · exact hsub (.whileOp hlt hhead) (iho ho)
        · split at hw
          · cases congrArg Prod.fst hw
          · rename_i hv
            rcases Run.bind_eq_error.mp hw with hs | ⟨w, st₂, hs, hw⟩
            · exact hsub (.whileScope hlt hhead ho hv) (ihs hs)
            · exact ih (j + 1) st₂ (by rw [← hj, Nat.add_right_comm, Nat.add_assoc])
                (hhead.succ ho hv hs) hw
    exact hloop fuel 0 st (Nat.zero_add _) .zero h
  | operand left op right ihl ihr =>
    obtain ⟨vs, st', hev, ⟨node, hn, hnode⟩ | hfin⟩ := calc_operand_eq_error h
    · refine hsub (.operand hev hn) ?_
      rcases next_eq hn with rfl | rfl
      · exact ihl hnode
      · exact ihr hnode
    · exact Or.inr ⟨_, Relation.ReflTransGen.refl, .operand hev hfin⟩

end ParaCL
