import CppGraduate.ParaCL.Interpreter
import CppGraduate.ParaCL.Emission

/-!
# Regular runs

An expression or a condition is regular in a state when it has a meaning
there and `calc` follows it: no division has a `?` in its divisor, and what
`&&` and `||` skip has no `?` and a meaning. Then `calc` yields that meaning
and reads one integer for each `?`.

A run of a statement is regular when whatever it evaluates is, where it is
evaluated; when the conditions it tests are truth values; and when no
assignment it executes declares a variable and reads it as well. This is
about the steps of the run, not about the statement: what is not executed
does not matter.
-/

namespace ParaCL

namespace INode

variable {fuel : ℕ} {l r n : INode} {op : Operation} {st st' : St} {v : Int32} {env : Env}

/-! ## Evaluations -/

/-- **An evaluation that follows the meaning.** -/
structure Regular (n : INode) (st : St) : Prop where
  /-- No division has a `?` in its divisor. -/
  divisors : n.InputFreeDivisors
  /-- What is skipped has no `?` and has a meaning. -/
  skipped : n.SkipsPure st.vals st.io.next
  /-- There is a meaning: variables have values and divisions are in range. -/
  defined : (n.meaning st.vals st.io.next).isSome

/-- The parts of an operation on two operands follow their meanings, the
right one after the left one. -/
theorem Regular.parts (h : (operand l op r).Regular st) (hin : op ≠ .stdIn) (hnot : op ≠ .not) :
    l.Regular st ∧ r.Regular (st.skip l.inputs) := by
  obtain ⟨⟨hdl, hdr, -⟩, ⟨hsl, hsr, -⟩, hdef⟩ := h
  obtain ⟨v, hv⟩ := Option.isSome_iff_exists.mp hdef
  obtain ⟨a, b, ha, hb, -⟩ := (meaning_operand_eq_some hin hnot).mp hv
  refine ⟨⟨hdl, hsl, by rw [ha]; rfl⟩, hdr, ?_, ?_⟩
  · rw [St.next_skip]
    exact hsr
  · rw [St.next_skip, St.skip_vals, hb]
    rfl

/-- **Where there is a meaning, `calc` yields it**, and reads one integer
for each `?`. -/
theorem Regular.calc_eq (h : n.Regular st) (hn : n.IsCond) (fuel : ℕ) :
    ∃ v, n.meaning st.vals st.io.next = some v
      ∧ n.calc fuel st = (.ok v, st.skip n.inputs) := by
  induction n generalizing st with
  | value val => exact ⟨val, rfl, rfl⟩
  | decl id x =>
    obtain ⟨v, hv⟩ := Option.isSome_iff_exists.mp h.defined
    refine ⟨v, hv, ?_⟩
    show Run.getValue id st = _
    unfold Run.getValue
    rw [show st.vals id = some v from hv]
    rfl
  | operand l op r ihl ihr =>
    obtain ⟨v, hv⟩ := Option.isSome_iff_exists.mp h.defined
    refine ⟨v, hv, ?_⟩
    rcases hn.cases_operand with ⟨rfl, rfl, rfl⟩ | ⟨hop, hle, hre⟩ | ⟨rfl, hle, hre⟩
      | ⟨rfl, rfl, hrc⟩ | ⟨hop, hlc, hrc⟩
    · cases hv
      rfl
    · have hin : op ≠ .stdIn := by
        rintro rfl
        exact absurd hop (by decide)
      have hnot : op ≠ .not := by
        rintro rfl
        exact absurd hop (by decide)
      obtain ⟨hl, hr⟩ := h.parts hin hnot
      obtain ⟨a, ha, hca⟩ := ihl hl hle.isCond
      obtain ⟨b, hb, hcb⟩ := ihr hr hre.isCond
      rw [St.next_skip] at hb
      rw [meaning_binary hin hnot ha hb] at hv
      rw [calc_binary hop hle.isNull, Run.bind_ok hca, Run.bind_ok hcb, inputs, if_neg hin,
        ← St.skip_skip]
      exact Operation.perform_eq_ok.mpr ⟨hv, rfl⟩
    · obtain ⟨hl, hr⟩ := h.parts (by decide) (by decide)
      have hzero : r.inputs = 0 := h.divisors.2.2 rfl
      obtain ⟨a, ha, hca⟩ := ihl hl hle.isCond
      obtain ⟨b, hb, hcb⟩ := ihr hr hre.isCond
      -- the divisor reads nothing, so its first evaluation yields the same
      have hfirst : r.Regular st := by
        refine ⟨hr.divisors, hre.noAndOr.skipsPure _ _, ?_⟩
        rw [meaning_of_inputs_eq_zero hzero _ _ (st.skip l.inputs).io.next]
        exact hr.defined
      obtain ⟨b', hb', hcb'⟩ := ihr hfirst hre.isCond
      rw [meaning_of_inputs_eq_zero hzero _ _ (st.skip l.inputs).io.next] at hb'
      cases hb'.symm.trans hb
      rw [hzero, St.skip_zero] at hcb hcb'
      rw [St.next_skip] at hb
      rw [meaning_binary (by decide) (by decide) ha hb] at hv
      have hne : b ≠ 0 := by
        rintro rfl
        cases hv
      show (r.calc fuel >>= fun val => _) st = _
      rw [Run.bind_ok hcb', if_neg hne, Run.bind_ok hca, Run.bind_ok hcb, inputs,
        if_neg (by decide), hzero, quotient_eq]
      exact Operation.perform_eq_ok.mpr ⟨hv, rfl⟩
    · have hr : r.Regular st := by
        have hsk := h.skipped.2.1
        rw [shift_null] at hsk
        refine ⟨h.divisors.2.1, hsk, ?_⟩
        obtain ⟨w, hw, -⟩ := Option.map_eq_some_iff.mp hv
        rw [hw]
        rfl
      obtain ⟨a, ha, hca⟩ := ihr hr hrc
      have hmean : some (ofBool (a = 0)) = some v := by
        rw [← hv, meaning, if_neg (by decide), if_pos rfl, ha, Option.map_some]
      rw [← Option.some.inj hmean, inputs, if_neg (by decide)]
      show (r.calc fuel >>= fun b => _) st = _
      rw [Run.bind_ok hca, show null.inputs = 0 from rfl, Nat.zero_add]
      rfl
    · have hin : op ≠ .stdIn := by rintro rfl; simp at hop
      have hnot : op ≠ .not := by rintro rfl; simp at hop
      obtain ⟨hl, hr⟩ := h.parts hin hnot
      obtain ⟨a, ha, hca⟩ := ihl hl hlc
      obtain ⟨b, hb, hcb⟩ := ihr hr hrc
      rw [St.next_skip] at hb
      rw [meaning_binary hin hnot ha hb] at hv
      have hskip : Skips op a → r.inputs = 0 := fun hs => (h.skipped.2.2 a ha hs).1
      rw [inputs, if_neg hin, ← St.skip_skip]
      rcases hop with rfl | rfl
      · cases hv
        show (l.calc fuel >>= fun val => _) st = _
        rw [Run.bind_ok hca]
        by_cases hzero : a = 0
        · rw [if_pos hzero, hskip (Or.inl ⟨rfl, hzero⟩), St.skip_zero]
          simp [hzero, ofBool]
        · rw [if_neg hzero, Run.bind_ok hcb]
          simp [hzero]
      · cases hv
        show (l.calc fuel >>= fun val => _) st = _
        rw [Run.bind_ok hca]
        by_cases hzero : a = 0
        · rw [if_pos hzero, Run.bind_ok hcb]
          simp [hzero]
        · rw [if_neg hzero, hskip (Or.inr ⟨rfl, hzero⟩), St.skip_zero]
          simp [hzero, ofBool]
  | _ => exact hn.elim

/-! ## Runs of statements -/

/-- **A condition that is tested** is a truth value and follows its
meaning. -/
structure RegularTest (op : INode) (st : St) : Prop where
  /-- Every leaf is a comparison. -/
  ty : HasTy op .i1
  /-- It follows its meaning. -/
  regular : op.Regular st

/-- **A regular run**, from a state and with `env` visible: each condition
and each right-hand side is regular in each state in which the run evaluates
it, and no assignment that is executed reads the variable it declares. -/
def RegularRun (fuel : ℕ) : INode → Env → St → Prop
  | .addBranch scope branch, env, st =>
    scope.RegularRun fuel env st ∧ ∀ v st', scope.calc fuel st = (.ok v, st') →
      branch.RegularRun fuel (scope.scopeAfter env) st'
  | .ifNode op scope, env, st =>
    op.RegularTest st ∧ ∀ v st', op.calc fuel st = (.ok v, st') → v ≠ 0 →
      scope.RegularRun fuel env st'
  | .whileNode op scope, env, st =>
    ∀ k st₁, k < fuel → LoopHead fuel op scope st k st₁ →
      op.RegularTest st₁ ∧ ∀ v st₂, op.calc fuel st₁ = (.ok v, st₂) → v ≠ 0 →
        scope.RegularRun fuel env st₂
  | .operand l op r, env, st =>
    r.Regular st ∧ (op = .assign → ∀ id x, l = .decl id x → env x = none → ¬ r.ReadsDecl id)
  | _, _, _ => True

/-- What an operation that is a statement does once its right operand has a
value. -/
theorem Scoped.calc_operand {l r : INode} {op : Operation} (h : (operand l op r).Scoped env)
    {st' : St} {v : Int32} (hv : r.calc fuel st = (.ok v, st')) :
    ∃ w st'', (operand l op r).calc fuel st = (.ok w, st'') := by
  rcases h with ⟨rfl, rfl, -, -⟩ | ⟨rfl, id, x, rfl, -, -, -⟩
  · exact ⟨0, _, Run.bind_ok hv⟩
  · exact ⟨v, _, Run.bind_ok hv⟩

/-- **A regular run comes to a normal end or to none.** -/
theorem RegularRun.eq_outOfFuel (h : n.RegularRun fuel env st) (hs : n.Scoped env) {e : Stop}
    {st' : St} (he : n.calc fuel st = (.error e, st')) : e = .outOfFuel := by
  induction n generalizing env st st' with
  | emptyScope => cases congrArg Prod.fst he
  | addBranch scope branch ihs ihb =>
    rcases Run.bind_eq_error.mp he with hscope | ⟨v, st₁, hscope, he⟩
    · exact ihs h.1 hs.1 hscope
    · rcases Run.bind_eq_error.mp he with hbranch | ⟨w, st₂, -, he⟩
      · exact ihb (h.2 v st₁ hscope) hs.2 hbranch
      · cases congrArg Prod.fst he
  | ifNode op scope _ ihs =>
    obtain ⟨v, -, hop⟩ := h.1.regular.calc_eq hs.1 fuel
    rcases Run.bind_eq_error.mp he with hop' | ⟨w, st₁, hop', he⟩
    · cases congrArg Prod.fst (hop.symm.trans hop')
    · split_ifs at he with hw
      · cases congrArg Prod.fst he
      · rcases Run.bind_eq_error.mp he with hscope | ⟨u, st₂, -, he⟩
        · exact ihs (h.2 w st₁ hop' hw) hs.2.2 hscope
        · cases congrArg Prod.fst he
  | whileNode op scope _ ihs =>
    -- by induction on the passes still allowed, from any pass on
    have hloop : ∀ j k st₁, k + j = fuel → LoopHead fuel op scope st k st₁ →
        whileLoop (op.calc fuel) (scope.calc fuel) j st₁ = (.error e, st') → e = .outOfFuel := by
      intro j
      induction j with
      | zero =>
        intro k st₁ _ _ hw
        cases hw
        rfl
      | succ j ih =>
        intro k st₁ hk hhead hw
        obtain ⟨htest, hbody⟩ := h k st₁ (hk ▸ Nat.lt_add_of_pos_right (Nat.succ_pos j)) hhead
        obtain ⟨v, -, hop⟩ := htest.regular.calc_eq hs.1 fuel
        rw [whileLoop, Run.bind_ok hop] at hw
        split_ifs at hw with hv
        · cases congrArg Prod.fst hw
        · rcases Run.bind_eq_error.mp hw with hscope | ⟨u, st₂, hscope, hw⟩
          · exact ihs (hbody v _ hop hv) hs.2.2 hscope
          · exact ih (k + 1) st₂ (by rw [← hk, Nat.add_right_comm, Nat.add_assoc])
              (hhead.succ hop hv hscope) hw
    exact hloop fuel 0 st (Nat.zero_add _) .zero he
  | operand l op r =>
    have hr : r.IsCond := by
      rcases hs with ⟨-, -, hr, -⟩ | ⟨-, _, _, -, -, hr, -⟩
      · exact hr.isCond
      · exact hr.isCond
    obtain ⟨v, -, hv⟩ := h.1.calc_eq hr fuel
    obtain ⟨w, st'', hw⟩ := hs.calc_operand hv
    cases congrArg Prod.fst (hw.symm.trans he)
  | _ => exact hs.elim

end INode

end ParaCL
