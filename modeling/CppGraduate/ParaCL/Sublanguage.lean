import CppGraduate.ParaCL.Regular

/-!
# The sublanguage without division and logical operations

Trees whose expressions use literals, variables, `?` and the operations
`+`, `-` and `*`, whose conditions are single comparisons, and in which no
assignment that declares its name reads it. Their runs are regular, from a
state where the visible variables have values: nothing is skipped, nothing
is read twice and nothing is undefined.

What is visible grows along the branches of a scope, and no declaration is
visible under two names; so an assignment changes one visible variable.
-/

namespace ParaCL

open Ir

namespace INode

variable {fuel : ℕ} {n : INode} {st : St} {env env' : Env}

/-! ## The trees -/

/-- Expressions of literals, variables, `?`, `+`, `-` and `*`. -/
def Polynomial : INode → Prop
  | .value _ | .decl _ _ => True
  | .operand l op r =>
    if op = .stdIn then l = .null ∧ r = .null
    else (op = .plus ∨ op = .minus ∨ op = .mul) ∧ l.Polynomial ∧ r.Polynomial
  | _ => False

/-- Comparisons of such expressions. -/
def Comparison : INode → Prop
  | .operand l op r => op.IsRel ∧ l.Polynomial ∧ r.Polynomial
  | _ => False

/-- **The trees of the sublanguage**, where `env` is visible. -/
def Plain (env : Env) : INode → Prop
  | .emptyScope => True
  | .addBranch scope branch => scope.Plain env ∧ branch.Plain (scope.scopeAfter env)
  | .whileNode op scope | .ifNode op scope => op.Comparison ∧ scope.Plain env
  | .operand l op r =>
    r.Polynomial ∧ (op = .assign → ∀ id x, l = .decl id x → env x = none → ¬ r.ReadsDecl id)
  | _ => False

/-- They are expressions. -/
theorem Polynomial.isExpr (h : n.Polynomial) : n.IsExpr := by
  induction n with
  | value | decl => trivial
  | operand l op r ihl ihr =>
    unfold Polynomial at h
    unfold IsExpr
    split_ifs at h ⊢
    · exact h
    · refine ⟨?_, ihl h.2.1, ihr h.2.2⟩
      rcases h.1 with rfl | rfl | rfl <;> decide
  | _ => exact h.elim

/-- Without division, no divisor has a `?`. -/
theorem Polynomial.inputFreeDivisors (h : n.Polynomial) : n.InputFreeDivisors := by
  induction n with
  | operand l op r ihl ihr =>
    unfold Polynomial at h
    split_ifs at h with hin
    · obtain ⟨rfl, rfl⟩ := h
      exact ⟨trivial, trivial, fun _ => rfl⟩
    · refine ⟨ihl h.2.1, ihr h.2.2, ?_⟩
      rintro rfl
      simp at h
  | _ => trivial

/-- Comparisons have the type of truth values. -/
theorem Comparison.hasTy (h : n.Comparison) : HasTy n .i1 := by
  cases n with
  | operand l op r => exact .rel h.1 h.2.1.isExpr.hasTy h.2.2.isExpr.hasTy
  | _ => exact h.elim

/-- Nothing in them is skipped. -/
theorem Comparison.noAndOr (h : n.Comparison) : n.NoAndOr := by
  cases n with
  | operand l op r =>
    obtain ⟨hop, hl, hr⟩ := h
    refine ⟨?_, ?_, hl.isExpr.noAndOr, hr.isExpr.noAndOr⟩ <;>
    · rintro rfl
      exact absurd hop (by decide)
  | _ => exact h.elim

/-- No divisor in them has a `?`. -/
theorem Comparison.inputFreeDivisors (h : n.Comparison) : n.InputFreeDivisors := by
  cases n with
  | operand l op r =>
    obtain ⟨hop, hl, hr⟩ := h
    refine ⟨hl.inputFreeDivisors, hr.inputFreeDivisors, ?_⟩
    rintro rfl
    exact absurd hop (by decide)
  | _ => exact h.elim

/-! ## Evaluation -/

/-- An operation on two operands that have meanings has one. -/
theorem isSome_meaning_operand {l r : INode} {op : Operation} {vals : ℕ → Option Int32}
    (hop : op.IsRel ∨ op = .plus ∨ op = .minus ∨ op = .mul)
    (hl : ∀ ints, (l.meaning vals ints).isSome) (hr : ∀ ints, (r.meaning vals ints).isSome)
    (ints : ℕ → Int32) : ((operand l op r).meaning vals ints).isSome := by
  obtain ⟨a, ha⟩ := Option.isSome_iff_exists.mp (hl ints)
  obtain ⟨b, hb⟩ := Option.isSome_iff_exists.mp (hr fun k => ints (l.inputs + k))
  obtain ⟨v, hv⟩ := Operation.exists_apply hop a b
  have hin : op ≠ .stdIn := by
    rintro rfl
    exact absurd hop (by decide)
  have hnot : op ≠ .not := by
    rintro rfl
    exact absurd hop (by decide)
  rw [meaning_binary hin hnot ha hb, hv]
  rfl

/-- **Expressions of the sublanguage have meanings.** -/
theorem Polynomial.isSome_meaning (h : n.Polynomial) (hr : n.Reads env) (hst : env.Assigned st)
    (ints : ℕ → Int32) : (n.meaning st.vals ints).isSome := by
  induction n generalizing ints with
  | value v => rfl
  | decl id x => exact hst x id hr
  | operand l op r ihl ihr =>
    unfold Polynomial at h
    split_ifs at h with hin
    · rw [meaning, if_pos hin]
      rfl
    · exact isSome_meaning_operand (Or.inr h.1) (ihl h.2.1 hr.1) (ihr h.2.2 hr.2) ints
  | _ => exact h.elim

/-- They are regular. -/
theorem Polynomial.regular (h : n.Polynomial) (hr : n.Reads env) (hst : env.Assigned st) :
    n.Regular st :=
  ⟨h.inputFreeDivisors, h.isExpr.noAndOr.skipsPure _ _, h.isSome_meaning hr hst _⟩

/-- So are its comparisons, as conditions that are tested. -/
theorem Comparison.regularTest (h : n.Comparison) (hr : n.Reads env) (hst : env.Assigned st) :
    n.RegularTest st := by
  refine ⟨h.hasTy, h.inputFreeDivisors, h.noAndOr.skipsPure _ _, ?_⟩
  cases n with
  | operand l op r =>
    exact isSome_meaning_operand (Or.inl h.1) (h.2.1.isSome_meaning hr.1 hst)
      (h.2.2.isSome_meaning hr.2 hst) _
  | _ => exact h.elim

/-! ## What is visible -/

/-- More is visible. -/
def Env.Le (env env' : Env) : Prop := ∀ x id, env x = some id → env' x = some id

/-- No declaration is visible under two names. -/
def Env.Inj (env : Env) : Prop := ∀ x y id, env x = some id → env y = some id → x = y

/-- What an assignment declares was not visible before, or is what was. -/
theorem Resolves.le {id : ℕ} {x : String} (h : Resolves env id x) :
    env.Le (Function.update env x (some id)) := by
  intro y i hy
  rw [Function.update_apply]
  split_ifs with hyx
  · rcases h with hx | ⟨hx, -⟩
    · rw [← hx, ← hyx, hy]
    · rw [hyx, hx] at hy
      cases hy
  · exact hy

/-- It is not visible under another name. -/
theorem Resolves.inj {id : ℕ} {x : String} (h : Resolves env id x) (hinj : env.Inj) :
    Env.Inj (Function.update env x (some id)) := by
  have hother : ∀ y, env y = some id → y = x := by
    intro y hy
    rcases h with hx | ⟨-, hnew⟩
    · exact hinj y x id hy hx
    · exact absurd hy (hnew y)
  intro y z i hy hz
  rw [Function.update_apply] at hy hz
  split_ifs at hy hz with hyx hzx hzx
  · rw [hyx, hzx]
  · cases hy
    rw [hyx, hother z hz]
  · cases hz
    rw [hzx, hother y hy]
  · exact hinj y z i hy hz

/-- What a branch declares becomes visible. -/
theorem Scoped.branchAfter (h : n.Scoped env) (hinj : env.Inj) :
    env.Le (n.branchAfter env) ∧ Env.Inj (n.branchAfter env) := by
  unfold INode.branchAfter
  split
  · rcases h with ⟨hop, -⟩ | ⟨-, id, x, hl, hres, -⟩
    · cases hop
    · cases hl
      exact ⟨hres.le, hres.inj hinj⟩
  · exact ⟨fun _ _ h => h, hinj⟩

/-- So does what the branches of a scope declare. -/
theorem Scoped.scopeAfter (h : n.Scoped env) (hinj : env.Inj) :
    env.Le (n.scopeAfter env) ∧ Env.Inj (n.scopeAfter env) := by
  induction n with
  | addBranch scope branch ihs _ =>
    obtain ⟨hle, hinj'⟩ := ihs h.1
    obtain ⟨hle', hinj''⟩ := Scoped.branchAfter h.2 hinj'
    exact ⟨fun x id hx => hle' x id (hle x id hx), hinj''⟩
  | _ => exact ⟨fun _ _ h => h, hinj⟩

/-- What is visible after a node: after the branches of a scope, or after an
assignment. -/
def after (env : Env) (n : INode) : Env := n.branchAfter (n.scopeAfter env)

/-- **The statements that are operations**: an output, or an assignment,
whose right-hand side reads what was visible before if it does not read the
variable it declares. -/
theorem Scoped.cases_operand {l r : INode} {op : Operation} (h : (operand l op r).Scoped env)
    (hown : op = .assign → ∀ id x, l = .decl id x → env x = none → ¬ r.ReadsDecl id) :
    (op = .stdOut ∧ l = .null ∧ r.IsExpr ∧ r.Reads env)
      ∨ (op = .assign ∧ ∃ id x, l = .decl id x ∧ Resolves env id x ∧ r.IsExpr
          ∧ r.Reads env) := by
  rcases h with h | ⟨rfl, id, x, rfl, hres, hr, hreads⟩
  · exact Or.inl h
  · refine Or.inr ⟨rfl, id, x, rfl, hres, hr, ?_⟩
    rcases hres with hx | ⟨hx, -⟩
    · rwa [Function.update_eq_self_iff.mpr hx.symm] at hreads
    · exact hreads.of_not_readsDecl (hown rfl id x rfl hx)

/-- **Runs of the sublanguage are regular** where the visible variables have
values. -/
theorem Plain.regularRun (h : n.Plain env) (hs : n.Scoped env) (hst : env.Assigned st)
    (fuel : ℕ) : n.RegularRun fuel env st := by
  induction n generalizing env st with
  | emptyScope => trivial
  | addBranch scope branch ihs ihb =>
    exact ⟨ihs h.1 hs.1 hst, fun v st' hv => ihb h.2 hs.2 (assigned_scopeAfter hst hv)⟩
  | ifNode op scope _ ihs =>
    refine ⟨h.1.regularTest hs.2.1 hst, fun v st' hv _ => ?_⟩
    exact ihs h.2 hs.2.2 (hst.grows (grows_of_calc hv))
  | whileNode op scope _ ihs =>
    intro k st₁ _ hhead
    have hst₁ := hst.grows (grows_of_loopHead hhead)
    refine ⟨h.1.regularTest hs.2.1 hst₁, fun v st₂ hv _ => ?_⟩
    exact ihs h.2 hs.2.2 (hst₁.grows (grows_of_calc hv))
  | operand l op r =>
    refine ⟨?_, h.2⟩
    rcases hs.cases_operand h.2 with ⟨-, -, -, hr⟩ | ⟨-, _, _, -, -, -, hr⟩
    · exact h.1.regular hr hst
    · exact h.1.regular hr hst
  | _ => exact h.elim

end INode

end ParaCL
