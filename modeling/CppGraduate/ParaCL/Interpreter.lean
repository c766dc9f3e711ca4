import CppGraduate.ParaCL.Meaning

/-!
# What runs of the interpreter guarantee

Two guarantees, each with the condition under which `calc` gives it. An
expression is evaluated once, operand by operand, where no division has a
`?` in its divisor: the test against zero and the division evaluate the
divisor separately. Every declaration has a value when it is read where no
assignment that gives a variable its first value reads that variable: the
name is visible on the right-hand side already.

The second one is about whole runs. What is known of the nodes a run visits
goes from an evaluation to those it calls.
-/

namespace ParaCL

variable {fuel : ℕ} {left right : INode} {op : Operation} {st st' st'' : St}

/-! ## Expressions are evaluated once -/

/-- **One evaluation reads each `?` once and yields the meaning** just where
no division has a `?` in its divisor. -/
theorem LExpr.evaluatedOnce_iff {p : Parser} {e : LExpr} {n : INode} {v : Int32}
    (hp : e.parse p = .ok n) (hn : n.NoAndOr) (hv : n.calc fuel st = (.ok v, st'))
    (hio : st'.io.failed = false) :
    (st'.io.pos = st.io.pos + n.inputs ∧ n.meaning st.vals st.io.next = some v)
      ↔ n.InputFreeDivisors := by
  have hcond : n.IsCond := (LExpr.parse_spec hp).1
  constructor
  · rintro ⟨hpos, -⟩
    have hst := INode.skip_reads_of_calc hcond hn hv
    subst hst
    have hreads := (Stdio.skip_of_not_failed hio).2
    rw [← INode.reads_eq_inputs_iff hcond]
    exact Nat.add_left_cancel (hreads.symm.trans hpos)
  · intro hd
    obtain ⟨hm, rfl⟩ := INode.meaning_of_calc hcond hd (hn.skipsPure _ _) hv
    exact ⟨(Stdio.skip_of_not_failed hio).2, hm⟩

/-- An input of integers. -/
def Stdio.ofList (l : List ℤ) : Stdio where
  tok k := (l[k]?).elim .eof .int
  pos := 0
  failed := false
  out := []

/-- The state in which a run begins: nothing has been assigned. -/
def St.start (io : Stdio) : St := ⟨fun _ => none, io⟩

/-- `?/2` reads once. -/
theorem LExpr.evaluatedOnce_half :
    (((INode.operand (.operand .null .stdIn .null) .div (.value 2)).calc 0
        (St.start (.ofList [7]))).2.io.pos = 0 + 1
      ∧ (INode.operand (.operand .null .stdIn .null) .div (.value 2)).meaning
        (fun _ => none) (Stdio.ofList [7]).next = some 3)
      ↔ (INode.operand (.operand .null .stdIn .null) .div (.value 2)).InputFreeDivisors :=
  @LExpr.evaluatedOnce_iff 0 (St.start (.ofList [7])) _ Parser.start
    (.expr (.div .input (.value 2))) _ 3 rfl (by simp [INode.NoAndOr]) rfl rfl

/-- `6/?` reads twice: with 1 and then 2 it divides by 2. -/
theorem LExpr.not_evaluatedOnce_sixOver :
    ¬ ∀ (p : Parser) (e : LExpr) (n : INode) (fuel : ℕ) (st st' : St) (v : Int32),
      e.parse p = .ok n → n.NoAndOr → n.calc fuel st = (.ok v, st') → st'.io.failed = false →
      st'.io.pos = st.io.pos + n.inputs ∧ n.meaning st.vals st.io.next = some v := by
  intro h
  have hpos := (h Parser.start (.expr (.div (.value 6) .input)) _ 0 (St.start (.ofList [1, 2])) _ 3
    rfl (by simp [INode.NoAndOr]) rfl rfl).1
  exact absurd hpos (by decide)

/-! ## The nodes a run visits -/

namespace INode

/-- Assignments, outputs and negations evaluate their right operand only. -/
theorem next_of_unary {node : INode} {vs : List Int32}
    (hop : op = .assign ∨ op = .stdOut ∨ op = .not) (h : next left op right vs = some node) :
    node = right := by
  unfold next at h
  rcases hop with rfl | rfl | rfl
  all_goals
    split at h
    · exact (Option.some.inj h).symm
    · cases h
    · cases h
    · cases h

/-- Every operation in the tree has a property. -/
def Everywhere (P : INode → Operation → INode → Prop) : INode → Prop
  | .operand l op r => P l op r ∧ l.Everywhere P ∧ r.Everywhere P
  | .addBranch l r | .whileNode l r | .ifNode l r => l.Everywhere P ∧ r.Everywhere P
  | _ => True

/-- What every operation in a tree has, every operation visited has. -/
theorem Everywhere.visits {P : INode → Operation → INode → Prop} {n : INode}
    (hv : Visits fuel (n, st) (.operand left op right, st')) (h : n.Everywhere P) :
    P left op right := by
  have hall : ∀ m, Visits fuel (n, st) m → m.1.Everywhere P := by
    intro m hm
    induction hm with
    | refl => exact h
    | tail _ hsub ih =>
      cases hsub with
      | scope | ifOp | whileOp => exact ih.1
      | branch | ifScope | whileScope => exact ih.2
      | operand _ hn =>
        rcases next_eq hn with rfl | rfl
        · exact ih.2.1
        · exact ih.2.2
  exact (hall _ hv).1

/-- The order of evaluation of an operation that evaluates both operands
once. -/
theorem next_binary (hop : op.IsRel ∨ op.IsArith ∧ op ≠ .div) (hl : left.isNull = false)
    (right : INode) (v : Int32) :
    next left op right [] = some left ∧ next left op right [v] = some right := by
  unfold Operation.IsRel Operation.IsArith at hop
  cases op
  case plus | minus => simp [next, hl]
  case div | assign | stdOut | stdIn | not | and | or => simp at hop
  all_goals exact ⟨rfl, rfl⟩

/-- The meaning of an expression without `?` does not depend on the
input. -/
theorem meaning_of_inputs_eq_zero {n : INode} (h : n.inputs = 0) (vals : ℕ → Option Int32)
    (ints ints' : ℕ → Int32) : n.meaning vals ints = n.meaning vals ints' := by
  induction n generalizing ints ints' with
  | operand l op r ihl ihr =>
    unfold inputs at h
    unfold meaning
    split_ifs at h ⊢ with hin hnot
    · obtain ⟨hl, hr⟩ := Nat.add_eq_zero_iff.mp h
      rw [ihr hr ints ints']
    · obtain ⟨hl, hr⟩ := Nat.add_eq_zero_iff.mp h
      rw [ihl hl ints ints', ihr hr (fun k => ints (l.inputs + k)) (fun k => ints' (l.inputs + k))]
  | _ => rfl

end INode

/-! ## Assigned before read -/

namespace INode

/-- Every visible declaration has a value. -/
def Env.Assigned (env : Env) (st : St) : Prop := ∀ x id, env x = some id → (st.vals id).isSome

/-- Values stay. -/
theorem Env.Assigned.grows {env : Env} (h : env.Assigned st) (hst : st.Grows st') :
    env.Assigned st' := fun x id hx => hst id (h x id hx)

/-- A run that came to an end took no value away. -/
theorem grows_of_calc {n : INode} {v : Int32} (h : n.calc fuel st = (.ok v, st')) :
    st.Grows st' := by
  have hst := calc_grows fuel n st
  rwa [h] at hst

/-- Nor did the passes of a loop. -/
theorem grows_of_loopHead {o s : INode} {k : ℕ} (h : LoopHead fuel o s st k st') :
    st.Grows st' := by
  induction h with
  | zero => exact fun _ h => h
  | succ _ hop _ hs ih => exact fun id h => grows_of_calc hs id (grows_of_calc hop id (ih id h))

/-- **An assignment that was executed** has given its declaration a value,
and with it all that is visible afterwards. -/
theorem assigned_branchAfter {env : Env} {n : INode} {v : Int32} (h : env.Assigned st)
    (hv : n.calc fuel st = (.ok v, st')) : (n.branchAfter env).Assigned st' := by
  have hst := h.grows (grows_of_calc hv)
  unfold branchAfter
  split
  · rename_i id x r
    obtain ⟨a, st₁, -, hv⟩ := Run.bind_eq_ok.mp hv
    obtain ⟨_, st₂, hset, hv⟩ := Run.bind_eq_ok.mp hv
    cases hset
    cases hv
    intro y i hy
    rw [Function.update_apply] at hy
    split_ifs at hy
    · cases hy
      show (Function.update st₁.vals id (some _) id).isSome
      rw [Function.update_self]
      rfl
    · exact hst y i hy
  · exact hst

/-- So it is for the branches of a scope. -/
theorem assigned_scopeAfter {env : Env} {n : INode} {v : Int32} (h : env.Assigned st)
    (hv : n.calc fuel st = (.ok v, st')) : (n.scopeAfter env).Assigned st' := by
  induction n generalizing st' v with
  | addBranch scope branch ihs _ =>
    obtain ⟨a, st₁, hs, hv⟩ := Run.bind_eq_ok.mp hv
    obtain ⟨b, st₂, hb, hv⟩ := Run.bind_eq_ok.mp hv
    cases hv
    exact assigned_branchAfter (ihs hs) hb
  | _ => exact h.grows (grows_of_calc hv)

/-- What does not read a declaration does not need it visible. -/
theorem Reads.of_not_readsDecl {env : Env} {n : INode} {id : ℕ} {x : String}
    (h : n.Reads (Function.update env x (some id))) (hn : ¬ n.ReadsDecl id) : n.Reads env := by
  induction n with
  | decl i y =>
    unfold Reads at h ⊢
    rw [Function.update_apply] at h
    split_ifs at h
    · exact absurd (Option.some.inj h).symm hn
    · exact h
  | operand l op r ihl ihr =>
    exact ⟨ihl h.1 (fun hl => hn (Or.inl hl)), ihr h.2 (fun hr => hn (Or.inr hr))⟩
  | _ => exact h

/-- **Where a run stands**: in a tree whose visible declarations all have
values. -/
def Placed (n : INode) (st : St) : Prop :=
  ∃ env : Env, env.Assigned st ∧ (n.Scoped env ∨ n.Reads env)

/-- The operands of a tree that reads what is visible read what is
visible. -/
theorem Reads.next {env : Env} {node : INode} {vs : List Int32}
    (h : (operand left op right).Reads env) (hn : next left op right vs = some node) :
    node.Reads env := by
  rcases next_eq hn with rfl | rfl
  · exact h.1
  · exact h.2

/-- Operands evaluated so far took no value away. -/
theorem grows_of_evaluated {vs : List Int32} (h : Evaluated fuel left op right st vs st') :
    st.Grows st' := by
  induction h with
  | nil => exact fun _ h => h
  | snoc _ _ hv ih => exact fun id h => grows_of_calc hv id (ih id h)

/-- **What holds where a run stands holds where it goes**, if an assignment
to a declaration without a value does not read it. -/
theorem Placed.sub {a b : INode × St} (h : Placed a.1 a.2) (hsub : Sub fuel a b)
    (hfirst : ∀ id x r, a.1 = .operand (.decl id x) .assign r → a.2.vals id = none →
      ¬ r.ReadsDecl id) : Placed b.1 b.2 := by
  obtain ⟨env, henv, h⟩ := h
  cases hsub with
  | scope =>
    obtain ⟨hscope, -⟩ := h.resolve_right id
    exact ⟨env, henv, Or.inl hscope⟩
  | branch hs =>
    obtain ⟨-, hbranch⟩ := h.resolve_right id
    exact ⟨_, assigned_scopeAfter henv hs, Or.inl hbranch⟩
  | ifOp =>
    obtain ⟨-, hreads, -⟩ := h.resolve_right id
    exact ⟨env, henv, Or.inr hreads⟩
  | ifScope hop =>
    obtain ⟨-, -, hscope⟩ := h.resolve_right id
    exact ⟨env, henv.grows (grows_of_calc hop), Or.inl hscope⟩
  | whileOp _ hhead =>
    obtain ⟨-, hreads, -⟩ := h.resolve_right id
    exact ⟨env, henv.grows (grows_of_loopHead hhead), Or.inr hreads⟩
  | whileScope _ hhead hop =>
    obtain ⟨-, -, hscope⟩ := h.resolve_right id
    exact ⟨env, (henv.grows (grows_of_loopHead hhead)).grows (grows_of_calc hop), Or.inl hscope⟩
  | @operand left right node op st st' vs hev hn =>
    have hgrows : st.Grows st' := grows_of_evaluated hev
    -- an output, an assignment, or a part of a condition
    rcases h with (⟨rfl, -, -, hreads⟩ | ⟨rfl, id, x, rfl, hres, -, hreads⟩) | hreads
    · rw [next_of_unary (Or.inr (Or.inl rfl)) hn]
      exact ⟨env, henv.grows hgrows, Or.inr hreads⟩
    · rw [next_of_unary (Or.inl rfl) hn]
      cases hid : st.vals id with
      | none =>
        exact ⟨env, henv.grows hgrows,
          Or.inr (hreads.of_not_readsDecl (hfirst id x right rfl hid))⟩
      | some v =>
        -- the declaration has a value already, from an earlier pass
        refine ⟨_, fun y i hy => ?_, Or.inr hreads⟩
        rw [Function.update_apply] at hy
        split_ifs at hy
        · cases hy
          exact hgrows id (by rw [hid]; rfl)
        · exact hgrows i (henv y i hy)
    · exact ⟨env, henv.grows hgrows, Or.inr (hreads.next hn)⟩

end INode

/-- **Declarations are assigned before they are read** in every run of an
accepted program whose assignments do not read a declaration they give its
first value. -/
theorem parseProgram_assigned {ss : Stms} {root : INode} {g : CodeGen} {io : Stdio}
    (hp : parseProgram ss = .ok (root, g))
    (hfirst : ∀ id x r st, Visits fuel (root, St.start io) (.operand (.decl id x) .assign r, st) →
      st.vals id = none → ¬ r.ReadsDecl id)
    {id : ℕ} {x : String} (hv : Visits fuel (root, St.start io) (.decl id x, st)) :
    (st.vals id).isSome := by
  have hplaced : ∀ m, Visits fuel (root, St.start io) m → INode.Placed m.1 m.2 := by
    intro m hm
    induction hm with
    | refl => exact ⟨fun _ => none, (fun _ _ h => nomatch h), Or.inl (parseProgram_spec hp).1⟩
    | @tail a b ha hsub ih =>
      refine ih.sub hsub (fun id x r hnode => ?_)
      obtain ⟨n, st₁⟩ := a
      cases hnode
      exact hfirst id x r st₁ ha
  obtain ⟨env, henv, h⟩ := hplaced _ hv
  exact henv x id (h.resolve_left fun hscoped => hscoped)

/-- `x = 1; print x;` reads what was assigned. -/
theorem parseProgram_assigned_copy :
    (((INode.operand (.decl 0 "x") .assign (.value 1)).calc 0
      (St.start (.ofList []))).2.vals 0).isSome := by
  have hv : Visits 0 (INode.addBranch (.addBranch .emptyScope
        (.operand (.decl 0 "x") .assign (.value 1)))
      (.operand .null .stdOut (.decl 0 "x")), St.start (.ofList [])) (.decl 0 "x", _) :=
    Visits.head (.branch rfl) (Visits.head (.operand .nil rfl) Relation.ReflTransGen.refl)
  refine @parseProgram_assigned 0 _ (.next (.first (.assign "x" (.value 1)))
    (.stm (.output (.name "x")))) (.addBranch (.addBranch .emptyScope
      (.operand (.decl 0 "x") .assign (.value 1))) (.operand .null .stdOut (.decl 0 "x")))
    _ (.ofList []) rfl (fun id x r st hm _ => ?_) 0 "x" hv
  have hliteral := INode.Everywhere.visits hm
    (P := fun _ op r => op = .assign → r = .value 1) (by simp [INode.Everywhere])
  rw [hliteral rfl]
  exact fun h => h

/-- `x = x + 1;` reads what was not. -/
theorem not_assigned_increment :
    ¬ ∀ (ss : Stms) (root : INode) (g : CodeGen) (io : Stdio) (fuel id : ℕ) (x : String) (st : St),
      parseProgram ss = .ok (root, g) → Visits fuel (root, St.start io) (.decl id x, st) →
      (st.vals id).isSome := by
  intro h
  -- the run reads `x` on the right before it assigns to it
  have hv : Visits 0 (INode.addBranch .emptyScope (.operand (.decl 0 "x") .assign
      (.operand (.decl 0 "x") .plus (.value 1))), St.start (.ofList []))
      (.decl 0 "x", St.start (.ofList [])) :=
    Visits.head (.branch rfl) (Visits.head (.operand .nil rfl)
      (Visits.head (.operand .nil rfl) Relation.ReflTransGen.refl))
  exact absurd (h (.first (.assign "x" (.plus (.name "x") (.value 1)))) _ _ _ 0 0 "x" _ rfl hv)
    (by decide)

end ParaCL
