import CppGraduate.ParaCL.Emission
import CppGraduate.ParaCL.OperandOrder

/-!
# Compiled conditions and interpreted ones

A condition agrees with its code in a state when the code is emitted as a
truth value by well-typed instructions and, in every machine whose memory
holds the values of the visible variables, comes to its end with the value
of `calc` and with as much read – whichever operands `calc` evaluates first.

The interpreter takes integers for truth values, skips right operands and
evaluates divisors twice; the code does none of this. A condition and all
the conditions tested in it agree with their code just where the difference
does not show: every leaf is a comparison, no divisor has a `?`, and what is
skipped has no `?` and could have been evaluated – and the input has an
integer for every `?`. This is so where the order of the operands does not
show either; the code has a fixed one.
-/

namespace ParaCL

open Ir

namespace INode

variable {fuel : ℕ} {l r n : INode} {op : Operation} {st st' : St} {v : Int32} {env : Env}

/-! ## Agreement -/

/-- **The code of a condition** comes to an end with the same value and with
as much read. -/
def CodeAgrees (env : Env) (n : INode) (st : St) (v : Int32) (st' : St) : Prop :=
  ∀ (g : CodeGen) (F : Code) (s : State Stdio), Stored g.namedValues env st.vals s.mem →
    s.world = st.io →
    ∃ c is k, n.codegen g = .ok (some c, g.append is k)
      ∧ c.ty = .i1 ∧ (∀ i ∈ is, i.WellTyped)
      ∧ ∃ s', Leads pcllib F is s s' ∧ s'.eval c = some (.bit (v ≠ 0)) ∧ s'.world = st'.io

/-- A condition agrees with its code in a state, where `calc` evaluates the
operands from left to right. -/
def Agrees (env : Env) (fuel : ℕ) (n : INode) (st : St) : Prop :=
  ∀ v st', n.calc fuel st = (.ok v, st') → CodeAgrees env n st v st'

/-- **A condition agrees with its code** in a state, in whatever order `calc`
evaluates the operands. -/
def AgreesAnyOrder (env : Env) (fuel : ℕ) (n : INode) (st : St) : Prop :=
  ∀ v st', (.ok v, st') ∈ n.calcAnyOrder fuel st → CodeAgrees env n st v st'

/-- The conditions tested in a condition: itself, and the operands of `!`,
`&&` and `||` that are evaluated, in the states in which they can be. -/
inductive Tests (fuel : ℕ) : INode × St → INode × St → Prop
  /-- Itself. -/
  | self (a : INode × St) : Tests fuel a a
  /-- In the operand of a negation. -/
  | not {l r : INode} {st : St} {c : INode × St} (h : Tests fuel (r, st) c) :
    Tests fuel (.operand l .not r, st) c
  /-- In a left operand. -/
  | left {l r : INode} {op : Operation} {st : St} {c : INode × St} (hop : op = .and ∨ op = .or)
    (h : Tests fuel (l, st) c) : Tests fuel (.operand l op r, st) c
  /-- In a right operand that is not skipped. -/
  | right {l r : INode} {op : Operation} {st st₁ : St} {a : Int32} {c : INode × St}
    (hop : op = .and ∨ op = .or) (ha : (.ok a, st₁) ∈ l.calcAnyOrder fuel st)
    (hskip : ¬ Skips op a) (h : Tests fuel (r, st₁) c) : Tests fuel (.operand l op r, st) c

/-- **A condition is evaluated alike** by `calc` and by its code. -/
structure Alike (n : INode) (st : St) : Prop where
  /-- Every leaf is a comparison. -/
  ty : HasTy n .i1
  /-- No division has a `?` in its divisor. -/
  divisors : n.InputFreeDivisors
  /-- What is skipped has no `?` and has a meaning. -/
  skipped : n.SkipsPure st.vals st.io.next
  /-- There is an integer for every `?`. -/
  input : st.io.CanRead n.inputs

/-! ## What agreement says -/

/-- **A condition that agrees with its code** has the right type, it has a
meaning, and each `?` was read once. -/
theorem Agrees.spec (h : n.Agrees env fuel st) (hn : n.IsCond) (hr : n.Reads env)
    (hst : env.Assigned st) (hv : n.calc fuel st = (.ok v, st')) :
    HasTy n .i1 ∧ (n.meaning st.vals st.io.next).isSome ∧ st.io.CanRead n.inputs
      ∧ st'.io = st.io.skip n.inputs := by
  -- a machine whose slots are numbered like the declarations
  let g : CodeGen := { CodeGen.start with namedValues := env }
  let s : State Stdio := ⟨[], fun _ => none, fun slot => (st.vals slot).map .word, st.io⟩
  have hs : Stored g.namedValues env st.vals s.mem := by
    intro x id hx
    obtain ⟨w, hw⟩ := Option.isSome_iff_exists.mp (hst x id hx)
    exact ⟨w, id, hw, hx, by show (st.vals id).map _ = _; rw [hw]; rfl⟩
  obtain ⟨c, is, k, hcode, hty, hwell, s', hlead, -, hworld⟩ :=
    h v st' hv g (fun _ => []) s hs rfl
  obtain ⟨c', is', k', he, hcode'⟩ := hn.codegen (g := g) (Stored.named hs hr)
  have hsame := Except.ok.inj (hcode'.symm.trans hcode)
  have hc : c' = c := Option.some.inj (congrArg Prod.fst hsame)
  have his : is' = is :=
    Builder.append_inj (congrArg CodeGen.builder (congrArg Prod.snd hsame))
  rw [hc, his] at he
  have hi1 := he.hasTy hn hty hwell
  obtain ⟨hm, hio, hskip⟩ := he.of_leads hi1 hr hs hlead
  exact ⟨hi1, hm, hio, hworld.symm.trans hskip⟩

/-- A condition without `?` that has a meaning skips nothing that has a
`?` or no meaning. -/
theorem skipsPure_of_inputs_eq_zero {vals : ℕ → Option Int32} {ints : ℕ → Int32} (hn : n.IsCond)
    (hm : (n.meaning vals ints).isSome) (hzero : n.inputs = 0) : n.SkipsPure vals ints := by
  induction n generalizing ints with
  | operand l op r ihl ihr =>
    by_cases hpure : (operand l op r).NoAndOr
    · exact hpure.skipsPure vals ints
    · obtain ⟨v, hv⟩ := Option.isSome_iff_exists.mp hm
      rcases hn.cases_operand with ⟨rfl, rfl, rfl⟩ | ⟨hop, hl, hr⟩ | ⟨rfl, hl, hr⟩ | ⟨rfl, rfl, hr⟩
        | ⟨hop, hl, hr⟩
      · exact absurd ⟨by decide, by decide, trivial, trivial⟩ hpure
      · refine absurd ⟨?_, ?_, hl.noAndOr, hr.noAndOr⟩ hpure <;>
        · rintro rfl
          exact absurd hop (by decide)
      · exact absurd ⟨by decide, by decide, hl.noAndOr, hr.noAndOr⟩ hpure
      · obtain ⟨w, hw, -⟩ := Option.map_eq_some_iff.mp hv
        have hr0 : r.inputs = 0 := (Nat.zero_add _).symm.trans hzero
        refine ⟨trivial, ?_, fun a ha => nomatch ha⟩
        rw [shift_null]
        exact ihr hr (by rw [hw]; rfl) hr0
      · have hin : op ≠ .stdIn := by rintro rfl; simp at hop
        have hnot : op ≠ .not := by rintro rfl; simp at hop
        obtain ⟨a, b, ha, hb, -⟩ := (meaning_operand_eq_some hin hnot).mp hv
        have hsum : l.inputs + r.inputs = 0 := (if_neg hin).symm.trans hzero
        obtain ⟨hl0, hr0⟩ := Nat.add_eq_zero_iff.mp hsum
        have hmr : (r.meaning vals fun k => ints (l.inputs + k)).isSome := by
          rw [hb]
          rfl
        exact ⟨ihl hl (by rw [ha]; rfl) hl0, ihr hr hmr hr0, fun _ _ _ => ⟨hr0, hmr⟩⟩
  | _ => trivial

/-- A tree without `?` has none in a divisor. -/
theorem inputFreeDivisors_of_inputs_eq_zero {n : INode} (h : n.inputs = 0) :
    n.InputFreeDivisors := by
  induction n with
  | operand l op r ihl ihr =>
    unfold inputs at h
    split_ifs at h
    obtain ⟨hl, hr⟩ := Nat.add_eq_zero_iff.mp h
    exact ⟨ihl hl, ihr hr, fun _ => hr⟩
  | _ => trivial

/-! ## Where the tested conditions agree -/

/-- Where as much is read as there are `?`, no divisor has one. -/
theorem inputFreeDivisors_of_skip (hn : n.IsCond) (hpure : n.NoAndOr)
    (hv : n.calc fuel st = (.ok v, st')) (hio : st.io.CanRead n.inputs)
    (hskip : st'.io = st.io.skip n.inputs) : n.InputFreeDivisors := by
  rcases hio with hzero | hfail
  · exact inputFreeDivisors_of_inputs_eq_zero hzero
  · rw [← reads_eq_inputs_iff hn]
    have hreads : st.io.skip n.reads = st.io.skip n.inputs := by
      rw [← hskip, skip_reads_of_calc hn hpure hv, St.skip_io]
    have hpos := (Stdio.skip_of_not_failed hfail).2
    have hfail' : (st.io.skip n.reads).failed = false := by rw [hreads, hfail]
    rw [← hreads, (Stdio.skip_of_not_failed hfail').2] at hpos
    exact Nat.add_left_cancel hpos

/-- **Conditions that agree in all they test are evaluated alike.** -/
theorem alike_of_agrees (hn : n.IsCond) (hr : n.Reads env) (hst : env.Assigned st)
    (hv : n.calc fuel st = (.ok v, st'))
    (h : ∀ b, Tests fuel (n, st) b → b.1.Agrees env fuel b.2) : n.Alike st := by
  induction n generalizing st st' v with
  | value | decl =>
    obtain ⟨hty, -, hio, -⟩ := (h _ (.self _)).spec hn hr hst hv
    exact ⟨hty, trivial, trivial, hio⟩
  | operand l op r ihl ihr =>
    obtain ⟨hty, hm, hio, hskip⟩ := (h _ (.self _)).spec hn hr hst hv
    -- without `&&` and `||` the calculation skips nothing either
    by_cases hpure : (operand l op r).NoAndOr
    · exact ⟨hty, inputFreeDivisors_of_skip hn hpure hv hio hskip, hpure.skipsPure _ _, hio⟩
    · rcases hn.cases_operand with ⟨rfl, rfl, rfl⟩ | ⟨hop, hl, hre⟩ | ⟨rfl, hl, hre⟩
        | ⟨rfl, rfl, hrc⟩ | ⟨hop, hlc, hrc⟩
      · exact absurd ⟨by decide, by decide, trivial, trivial⟩ hpure
      · refine absurd ⟨?_, ?_, hl.noAndOr, hre.noAndOr⟩ hpure <;>
        · rintro rfl
          exact absurd hop (by decide)
      · exact absurd ⟨by decide, by decide, hl.noAndOr, hre.noAndOr⟩ hpure
      · obtain ⟨a, st₁, ha, -⟩ := Run.bind_eq_ok.mp hv
        have hr' := ihr hrc hr.2 hst ha fun b hb => h b (.not hb)
        refine ⟨hty, ⟨trivial, hr'.divisors, fun h => nomatch h⟩, ⟨trivial, ?_, fun a ha => nomatch ha⟩,
          hio⟩
        rw [shift_null]
        exact hr'.skipped
      · have hin : op ≠ .stdIn := by rintro rfl; simp at hop
        have hnot : op ≠ .not := by rintro rfl; simp at hop
        have hdiv : op ≠ .div := by rintro rfl; simp at hop
        obtain ⟨a, st₁, ha, hv⟩ := calc_logic_eq_ok hop hv
        have hl' := ihl hlc hr.1 hst ha fun b hb => h b (.left hop hb)
        have hmem : (.ok a, st₁) ∈ l.calcAnyOrder fuel st := ha ▸ l.calc_mem_calcAnyOrder fuel st
        obtain ⟨hma, rfl⟩ := meaning_of_calc hlc hl'.divisors hl'.skipped ha
        have hinputs : (operand l op r).inputs = l.inputs + r.inputs := if_neg hin
        rcases hv with ⟨hshort, -, rfl⟩ | ⟨hshort, b, hb, -⟩
        · -- the code evaluates the skipped operand too, so it can have no `?`
          rw [hinputs, Stdio.canRead_add] at hio
          rw [hinputs, Stdio.skip_add] at hskip
          have hr0 : r.inputs = 0 := Stdio.eq_zero_of_skip hio.2 hskip.symm
          obtain ⟨w, hw⟩ := Option.isSome_iff_exists.mp hm
          obtain ⟨-, b, -, hmb, -⟩ := (meaning_operand_eq_some hin hnot).mp hw
          have hmr : (r.meaning st.vals fun k => st.io.next (l.inputs + k)).isSome := by
            rw [hmb]
            rfl
          refine ⟨hty, ⟨hl'.divisors, inputFreeDivisors_of_inputs_eq_zero hr0, fun _ => hr0⟩,
            ⟨hl'.skipped, skipsPure_of_inputs_eq_zero hrc hmr hr0, fun _ _ _ => ⟨hr0, hmr⟩⟩, ?_⟩
          rw [hinputs, Stdio.canRead_add]
          exact hio
        · have hst' : env.Assigned (st.skip l.inputs) := hst
          have hr' := ihr hrc hr.2 hst' hb fun b hb => h b (.right hop hmem hshort hb)
          have hskipped := hr'.skipped
          rw [St.next_skip] at hskipped
          refine ⟨hty, ⟨hl'.divisors, hr'.divisors, fun h => absurd h hdiv⟩,
            ⟨hl'.skipped, hskipped, fun a' ha' hskip' => ?_⟩, hio⟩
          cases ha'.symm.trans hma
          exact absurd hskip' hshort
  | _ => exact hn.elim

/-- What is evaluated alike is so in the operand of a negation. -/
theorem Alike.not (h : (operand l .not r).Alike st) (hn : (operand l .not r).IsCond) :
    r.Alike st := by
  obtain ⟨hty, ⟨-, hdr, -⟩, ⟨-, hsr, -⟩, hio⟩ := h
  obtain ⟨rfl, -⟩ : l = .null ∧ r.IsCond := hn
  rw [shift_null] at hsr
  refine ⟨?_, hdr, hsr, (Stdio.canRead_add.mp hio).2⟩
  cases hty with
  | rel hrel => simp [Operation.IsRel] at hrel
  | not htr => exact htr
  | logic hlogic => simp at hlogic

/-- So is it in the operands of a logical operation, in the right one after
the left one. -/
theorem Alike.logic (h : (operand l op r).Alike st) (hop : op = .and ∨ op = .or) :
    l.Alike st ∧ r.Alike (st.skip l.inputs) := by
  obtain ⟨hty, ⟨hdl, hdr, -⟩, ⟨hsl, hsr, -⟩, hio⟩ := h
  have hin : op ≠ .stdIn := by rintro rfl; simp at hop
  rw [show (operand l op r).inputs = l.inputs + r.inputs from if_neg hin, Stdio.canRead_add] at hio
  rw [← St.next_skip] at hsr
  cases hty with
  | rel hrel => rcases hop with rfl | rfl <;> simp [Operation.IsRel] at hrel
  | not => simp at hop
  | logic _ htl htr => exact ⟨⟨htl, hdl, hsl, hio.1⟩, htr, hdr, hsr, hio.2⟩

/-- **What is evaluated alike agrees with its code.** -/
theorem Alike.agrees (h : n.Alike st) (hn : n.IsCond) (hr : n.Reads env) :
    n.Agrees env fuel st := by
  intro v st' hv g F s hs hworld
  obtain ⟨hm, rfl⟩ := meaning_of_calc hn h.divisors h.skipped hv
  obtain ⟨c, is, k, he, hcode⟩ := hn.codegen (g := g) (Stored.named hs hr)
  obtain ⟨hty, hwell⟩ := he.wellTyped h.ty
  obtain ⟨s', hlead, hy⟩ := he.leads (F := F) h.ty hr hs (by rw [hworld]; exact hm)
    (by rw [hworld]; exact h.input)
  exact ⟨c, is, k, hcode, hty, hwell, s', hlead, hy.value, by rw [hy.world, hworld]; rfl⟩

/-- **What is evaluated alike is so in all the conditions tested in it**, where
the order of the operands does not show. -/
theorem Alike.tests {a b : INode × St} (hab : Tests fuel a b) (h : a.1.Alike a.2)
    (hn : a.1.IsCond) (hr : a.1.Reads env) (hfree : VisitsOrderFree fuel a.1 a.2) :
    b.1.Alike b.2 ∧ b.1.IsCond ∧ b.1.Reads env ∧ VisitsOrderFree fuel b.1 b.2 := by
  induction hab with
  | self => exact ⟨h, hn, hr, hfree⟩
  | not _ ih => exact ih (h.not hn) hn.2 hr.2 (hfree.sub (.operand .nil rfl))
  | @left l r op st c hop _ ih =>
    have hlc : l.IsCond := by rcases hop with rfl | rfl <;> exact hn.1
    have hfirst : next l op r [] = some l := by rcases hop with rfl | rfl <;> rfl
    exact ih (h.logic hop).1 hlc hr.1 (hfree.sub (.operand .nil hfirst))
  | @right l r op st st₁ a c hop ha hskip _ ih =>
    obtain ⟨hlc, hrc⟩ : l.IsCond ∧ r.IsCond := by rcases hop with rfl | rfl <;> exact hn
    obtain ⟨hl, hr'⟩ := h.logic hop
    have hfirst : next l op r [] = some l := by rcases hop with rfl | rfl <;> rfl
    have hsecond : next l op r [a] = some r := by
      rcases hop with rfl | rfl
      · exact if_neg fun h => hskip (Or.inl ⟨rfl, h⟩)
      · exact if_pos (by_contra fun h => hskip (Or.inr ⟨rfl, h⟩))
    -- the left operand has yielded its meaning
    have hcalc := (hlc.covers (hfree.sub (.operand .nil hfirst))).eq_of_ok ha
    obtain ⟨-, rfl⟩ := meaning_of_calc hlc hl.divisors hl.skipped hcalc
    exact ih hr' hrc hr.2 (hfree.sub (.operand (Evaluated.nil.snoc hfirst hcalc) hsecond))

end INode

/-- **Compiled conditions mean what interpreted ones mean** – the condition
itself and every condition tested in it, whichever operands `calc` evaluates
first – just where they are evaluated alike, if no operation that is evaluated
has a `?` in both operands, but for symmetric ones on the same expression
twice. -/
theorem LExpr.agrees_iff_alike {p : Parser} {e : LExpr} {n : INode} {fuel : ℕ} {st st' : St}
    {v : Int32} (hp : e.parse p = .ok n) (hst : INode.Env.Assigned p.env st)
    (hfree : INode.VisitsOrderFree fuel n st) (hv : (.ok v, st') ∈ n.calcAnyOrder fuel st) :
    (∀ b, INode.Tests fuel (n, st) b → b.1.AgreesAnyOrder p.env fuel b.2) ↔ n.Alike st := by
  obtain ⟨hn, hr⟩ := LExpr.parse_spec hp
  constructor
  · intro h
    have hleft := (hn.covers hfree).eq_of_ok hv
    refine INode.alike_of_agrees hn hr hst hleft fun b hb v st' hcalc => ?_
    exact h b hb v st' (hcalc ▸ b.1.calc_mem_calcAnyOrder fuel b.2)
  · intro h b hb v st' hmem
    obtain ⟨hb', hbn, hbr, hbfree⟩ := INode.Alike.tests hb h hn hr hfree
    exact hb'.agrees hbn hbr v st' ((hbn.covers hbfree).eq_of_ok hmem)

/-- `?>0 && 2>1` agrees with its code. -/
theorem LExpr.agrees_twoComparisons :
    (INode.operand (.operand (.operand .null .stdIn .null) .greater (.value 0)) .and
      (.operand (.value 2) .greater (.value 1))).AgreesAnyOrder Parser.start.env 0
      (St.start (.ofList [5])) := by
  refine (@LExpr.agrees_iff_alike Parser.start
    (.and (.rel .input .greater (.value 0)) (.rel (.value 2) .greater (.value 1))) _ 0
    (St.start (.ofList [5])) _ 1 rfl (fun _ _ h => nomatch h) (fun l op r st hv => ?_)
    (List.mem_cons_self)).mpr ⟨?_, ?_, ?_, Or.inr rfl⟩ _ (.self _)
  · refine INode.Everywhere.visits hv (P := INode.OrderFree) ?_
    simp [INode.Everywhere, INode.OrderFree, INode.inputs, RelOp.operation, Operation.IsArith,
      Operation.IsRel]
  · exact .logic (Or.inl rfl) (.rel (by decide) .input .value) (.rel (by decide) .value .value)
  · simp [INode.InputFreeDivisors, RelOp.operation]
  · exact ⟨INode.NoAndOr.skipsPure (by simp [INode.NoAndOr, RelOp.operation]) _ _,
      INode.NoAndOr.skipsPure (by simp [INode.NoAndOr, RelOp.operation]) _ _,
      fun _ _ _ => ⟨rfl, rfl⟩⟩

/-- The code of the condition `1` is no truth value. -/
theorem LExpr.not_agrees_one :
    ¬ ∀ (p : Parser) (e : LExpr) (n : INode) (fuel : ℕ) (st st' : St) (v : Int32),
      e.parse p = .ok n → INode.Env.Assigned p.env st → (.ok v, st') ∈ n.calcAnyOrder fuel st →
      n.AgreesAnyOrder p.env fuel st := by
  intro h
  have hmem : (.ok 1, St.start (.ofList []))
      ∈ (INode.value 1).calcAnyOrder 0 (St.start (.ofList [])) :=
    List.mem_singleton.mpr rfl
  obtain ⟨c, is, k, hcode, hty, -⟩ := h Parser.start (.expr (.value 1)) _ 0 (St.start (.ofList []))
    _ 1 rfl (fun _ _ h => nomatch h) hmem 1 _ hmem CodeGen.start (fun _ => [])
    ⟨[], fun _ => none, fun _ => none, .ofList []⟩ (fun _ _ h => nomatch h) rfl
  have hc := Option.some.inj (congrArg Prod.fst (Except.ok.inj hcode))
  rw [← hc] at hty
  cases hty

end ParaCL
