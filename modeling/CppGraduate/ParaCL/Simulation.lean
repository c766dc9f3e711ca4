import CppGraduate.ParaCL.Sublanguage

/-!
# The simulation of the interpreter by the generated code

Runs of the interpreter and of the machine are compared by triples: from
related states, a computation of the interpreter that yields a value is
matched by steps of the machine that lead to related states, and one whose
loops do not end within the bound is matched by at least as many steps,
with as much read and printed. The triples compose like the computations.

Statements follow the calls of the builder. A machine stands where the
builder stood, and after the statement it stands where the builder stands;
meanwhile the memory holds the values of the visible variables. For a loop
the condition is emitted twice, and the machine is before one of the two
whenever the interpreter is before its condition.

This holds of every statement from every state from which its run is
regular; so the triples name the state of the interpreter they begin in.
-/

namespace ParaCL

open Ir

/-! ## Triples -/

section Triples

variable {α β : Type} {F : Code} {lo hi : ℕ} {P P' : St → State Stdio → Prop}

/-- **A computation is simulated** by the machine, from states related by
`P` to states related by `Q`: in `lo` steps or more to a value, and in `hi`
or more where it has run out of passes. -/
def Sim (F : Code) (lo hi : ℕ) (P : St → State Stdio → Prop) (m : Run α)
    (Q : α → St → State Stdio → Prop) : Prop :=
  ∀ st s, P st s → (m st).2.io.failed = false →
    (∃ a st' k s', m st = (.ok a, st') ∧ lo ≤ k ∧ run pcllib F k (.running s) = .running s'
        ∧ Q a st' s')
      ∨ ∃ st' k s', m st = (.error .outOfFuel, st') ∧ hi ≤ k
        ∧ run pcllib F k (.running s) = .running s' ∧ s'.world = st'.io

/-- The computation that does nothing. -/
theorem Sim.pure (a : α) (hi : ℕ) : Sim F 0 hi P (Pure.pure a) fun _ => P := fun st s h _ =>
  Or.inl ⟨a, st, 0, s, rfl, le_rfl, rfl, h⟩

/-- Less is required, and less is promised. -/
theorem Sim.mono {m : Run α} {Q Q' : α → St → State Stdio → Prop} {lo' hi' : ℕ}
    (h : Sim F lo hi P m Q) (hlo : lo' ≤ lo) (hhi : hi' ≤ hi) (hP : ∀ st s, P' st s → P st s)
    (hQ : ∀ a st s, Q a st s → Q' a st s) : Sim F lo' hi' P' m Q' := by
  intro st s hs hio
  rcases h st s (hP st s hs) hio with ⟨a, st', k, s', hm, hk, hrun, hq⟩ | ⟨st', k, s', hm, hk, hrun⟩
  · exact Or.inl ⟨a, st', k, s', hm, hlo.trans hk, hrun, hQ a st' s' hq⟩
  · exact Or.inr ⟨st', k, s', hm, hhi.trans hk, hrun⟩

/-- The machine goes on by itself after the computation. -/
theorem Sim.then_steps {m : Run α} {Q Q' : α → St → State Stdio → Prop}
    (h : Sim F lo hi P m Q) (hsteps : ∀ a st s, Q a st s →
      ∃ k s', run pcllib F k (.running s) = .running s' ∧ Q' a st s') : Sim F lo hi P m Q' := by
  intro st s hs hio
  rcases h st s hs hio with ⟨a, st', k, s', hm, hk, hrun, hq⟩ | hout
  · obtain ⟨l, s'', hrun', hq'⟩ := hsteps a st' s' hq
    exact Or.inl ⟨a, st', k + l, s'', hm, Nat.le_add_right_of_le hk, run_trans hrun hrun', hq'⟩
  · exact Or.inr hout

/-- **Computations one after another.** What follows does not undo a failed
read. -/
theorem Sim.bind {m : Run α} {f : α → Run β} {R : α → St → State Stdio → Prop}
    {Q : β → St → State Stdio → Prop} {lo' hi' : ℕ} (hm : Sim F lo hi P m R)
    (hf : ∀ a, Sim F lo' hi' (R a) (f a) Q) (hlater : ∀ a, (f a).Keeps St.Later) :
    Sim F (lo + lo') (min hi (lo + hi')) P (m >>= f) Q := by
  intro st s hs hio
  have hfirst : (m st).2.io.failed = false := by
    match h : m st with
    | (.ok a, st') =>
      rw [Run.bind_ok h] at hio
      exact (hlater a st').failed hio
    | (.error e, st') =>
      rw [Run.bind_error h] at hio
      exact hio
  rcases hm st s hs hfirst with ⟨a, st', k, s', h, hk, hrun, hr⟩ | ⟨st', k, s', h, hk, hrun, hw⟩
  · rw [Run.bind_ok h] at hio ⊢
    rcases hf a st' s' hr hio with ⟨b, st'', l, s'', h', hl, hrun', hq⟩
      | ⟨st'', l, s'', h', hl, hrun', hw⟩
    · exact Or.inl ⟨b, st'', k + l, s'', h', Nat.add_le_add hk hl, run_trans hrun hrun', hq⟩
    · exact Or.inr ⟨st'', k + l, s'', h', (min_le_right _ _).trans (Nat.add_le_add hk hl),
        run_trans hrun hrun', hw⟩
  · exact Or.inr ⟨st', k, s', Run.bind_error h, (min_le_left _ _).trans hk, hrun, hw⟩

/-- The same with one bound for both. -/
theorem Sim.seq {m : Run α} {f : α → Run β} {R : α → St → State Stdio → Prop}
    {Q : β → St → State Stdio → Prop} (hm : Sim F 0 hi P m R)
    (hf : ∀ a, Sim F 0 hi (R a) (f a) Q) (hlater : ∀ a, (f a).Keeps St.Later) :
    Sim F 0 hi P (m >>= f) Q :=
  (hm.bind hf hlater).mono le_rfl (by rw [Nat.zero_add, min_self]) (fun _ _ h => h)
    fun _ _ _ h => h

/-- A computation that yields a value is simulated by steps that lead to
related states. -/
theorem Sim.of_ok {m : Run α} {Q : α → St → State Stdio → Prop}
    (h : ∀ st s, P st s → (m st).2.io.failed = false →
      ∃ a st' k s', m st = (.ok a, st') ∧ lo ≤ k ∧ run pcllib F k (.running s) = .running s'
        ∧ Q a st' s') : Sim F lo hi P m Q := fun st s hs hio =>
  Or.inl (h st s hs hio)

/-- From one state of the interpreter. -/
def From (st₀ : St) (P : St → State Stdio → Prop) : St → State Stdio → Prop := fun st s =>
  st = st₀ ∧ P st s

/-- **Computations one after another**, where what comes second is known to
begin where the first one ends. -/
theorem Sim.bind_from {m : Run α} {f : α → Run β} {R : α → St → State Stdio → Prop}
    {Q : β → St → State Stdio → Prop} {lo' hi' : ℕ} {st₀ : St} (hm : Sim F lo hi (From st₀ P) m R)
    (hf : ∀ a st₁, m st₀ = (.ok a, st₁) → Sim F lo' hi' (From st₁ (R a)) (f a) Q)
    (hlater : ∀ a, (f a).Keeps St.Later) :
    Sim F (lo + lo') (min hi (lo + hi')) (From st₀ P) (m >>= f) Q := by
  have hm' : Sim F lo hi (From st₀ P) m fun a st s => m st₀ = (.ok a, st) ∧ R a st s := by
    rintro st s ⟨rfl, hs⟩ hio
    exact (hm st s ⟨rfl, hs⟩ hio).imp_left fun ⟨a, st', k, s', h, hk, hrun, hr⟩ =>
      ⟨a, st', k, s', h, hk, hrun, h, hr⟩
  exact hm'.bind (fun a st s hs hio => hf a st hs.1 st s ⟨rfl, hs.2⟩ hio) hlater

/-- The same with one bound for both. -/
theorem Sim.seq_from {m : Run α} {f : α → Run β} {R : α → St → State Stdio → Prop}
    {Q : β → St → State Stdio → Prop} {st₀ : St} (hm : Sim F 0 hi (From st₀ P) m R)
    (hf : ∀ a st₁, m st₀ = (.ok a, st₁) → Sim F 0 hi (From st₁ (R a)) (f a) Q)
    (hlater : ∀ a, (f a).Keeps St.Later) : Sim F 0 hi (From st₀ P) (m >>= f) Q :=
  (hm.bind_from hf hlater).mono le_rfl (by rw [Nat.zero_add, min_self]) (fun _ _ h => h)
    fun _ _ _ h => h

/-- Less is required of the machine, and less is promised. -/
theorem Sim.mono_from {m : Run α} {Q Q' : α → St → State Stdio → Prop} {st₀ : St}
    (h : Sim F lo hi (From st₀ P) m Q) (hP : ∀ st s, P' st s → P st s)
    (hQ : ∀ a st s, Q a st s → Q' a st s) : Sim F lo hi (From st₀ P') m Q' :=
  h.mono le_rfl le_rfl (fun st s hs => ⟨hs.1, hP st s hs.2⟩) hQ

end Triples

/-! ## Matching states -/

/-- **The machine matches the interpreter**: its memory holds the values of
the visible variables, and as much was read and printed. -/
structure Matches (named : String → Option ℕ) (env : INode.Env) (st : St) (s : State Stdio) :
    Prop where
  /-- The values of the visible variables. -/
  stored : Stored named env st.vals s.mem
  /-- The standard streams. -/
  world : s.world = st.io

namespace Matches

variable {named : String → Option ℕ} {env env' : INode.Env} {st : St} {s s' : State Stdio}

/-- Less is visible. -/
theorem mono (h : Matches named env' st s) (hle : env.Le env') : Matches named env st s :=
  ⟨fun x id hx => h.stored x id (hle x id hx), h.world⟩

/-- The visible variables have values. -/
theorem assigned (h : Matches named env st s) : env.Assigned st := fun x id hx => by
  obtain ⟨v, -, hv, -⟩ := h.stored x id hx
  rw [hv]
  rfl

/-- After an evaluation that only reads. -/
theorem skip {c : Value} {w : Word} {r n : ℕ} (h : Matches named env st s)
    (hy : Yields s s' c w r n) (rest : List Instr) :
    Matches named env (st.skip n) { s' with rest := rest } where
  stored := by
    show Stored named env st.vals s'.mem
    rw [hy.mem]
    exact h.stored
  world := hy.world.trans (congrArg (Stdio.skip · n) h.world)

/-- **After an assignment** to the declaration of a name and a store to the
slot of that name. -/
theorem assign {id slot : ℕ} {x : String} {v : Int32} (h : Matches named env st s)
    (hres : INode.Resolves env id x) (hinj : env.Inj) (hslot : named x = some slot)
    (hslots : ∀ y z slot, named y = some slot → named z = some slot → y = z) :
    Matches named (Function.update env x (some id))
      { st with vals := Function.update st.vals id (some v) }
      { s with mem := Function.update s.mem slot (some (.word v)) } where
  stored y i hy := by
    show ∃ w slot', Function.update st.vals id (some v) i = some w ∧ named y = some slot'
      ∧ Function.update s.mem slot (some (.word v)) slot' = some (.word w)
    have hyi := hy
    rw [Function.update_apply] at hy
    split_ifs at hy with hyx
    · cases hy
      rw [hyx]
      exact ⟨v, slot, Function.update_self .., hslot, Function.update_self ..⟩
    · obtain ⟨w, slot', hw, hslot', hmem⟩ := h.stored y i hy
      have hi : i ≠ id := by
        rintro rfl
        exact hyx (hres.inj hinj y x i hyi (Function.update_self ..))
      have hs : slot' ≠ slot := by
        rintro rfl
        exact hyx (hslots y x slot' hslot' hslot)
      refine ⟨w, slot', ?_, hslot', ?_⟩
      · rw [Function.update_of_ne hi, hw]
      · rw [Function.update_of_ne hs, hmem]
  world := h.world

end Matches

/-! ## Conditions and loops -/

section Loops

variable {F : Code} {named : String → Option ℕ} {env : INode.Env} {fuel : ℕ} {n : INode} {t : Ty}
  {st₀ : St}

/-- **The code of an expression follows its regular evaluation.** -/
theorem Emits.leads_of_regular {r k : ℕ} {c : Value} {is : List Instr} {st : St}
    {s : State Stdio} (he : Emits named r n c is k) (hn : n.IsCond) (ht : HasTy n t)
    (hreg : n.Regular st) (hr : n.Reads env) (hm : Matches named env st s) (fuel : ℕ)
    (hio : (n.calc fuel st).2.io.failed = false) :
    ∃ v s', n.calc fuel st = (.ok v, st.skip n.inputs) ∧ Leads pcllib F is s s'
      ∧ Yields s s' c (encode t v) r n.inputs := by
  obtain ⟨v, hmean, hv⟩ := hreg.calc_eq hn fuel
  rw [hv] at hio
  obtain ⟨s', hlead, hy⟩ := he.leads (F := F) ht hr hm.stored (by rw [hm.world]; exact hmean)
    (by rw [hm.world]; exact Or.inr hio)
  exact ⟨v, s', hv, hlead, hy⟩

/-- The machine is before the code of a condition and a branch on it. -/
def Before (named : String → Option ℕ) (op : INode) (body merge : ℕ) (s : State Stdio) : Prop :=
  ∃ r c is k rest, Emits named r op c is k ∧ s.rest = is ++ .condBr c body merge :: rest

/-- **A condition and the branch on it.** -/
theorem INode.RegularTest.sim {op : INode} (h : op.RegularTest st₀) (hn : op.IsCond)
    (hr : op.Reads env) (F : Code) (fuel body merge : ℕ) :
    Sim F 1 fuel (From st₀ fun st s => Before named op body merge s ∧ Matches named env st s)
      (op.calc fuel)
      fun v st s => s.rest = F (if v = 0 then merge else body) ∧ Matches named env st s := by
  refine Sim.of_ok fun st s hs hio => ?_
  obtain ⟨rfl, ⟨r, c, is, k, rest, he, hrest⟩, hm⟩ := hs
  obtain ⟨v, s', hv, hlead, hy⟩ := he.leads_of_regular (F := F) hn h.ty h.regular hr hm fuel hio
  have hcode := hlead (.condBr c body merge :: rest)
  rw [← hrest] at hcode
  have hbranch := run_condBr (E := pcllib) (F := F)
    (s := { s' with rest := .condBr c body merge :: rest })
    rfl ((eval_rest s' _ c).trans hy.value)
  refine ⟨v, _, is.length + 1, _, hv, Nat.le_add_left 1 _, run_trans hcode hbranch, ?_,
    hm.skip hy _⟩
  by_cases hzero : v = 0 <;> simp [hzero]

/-- **The passes of a loop**, from the guard or from the latch. What holds
before the condition, with a number of passes still allowed, is such that
the condition can be tested and the body leads there again. -/
theorem whileLoop_sim {op : INode} {scope : Run Int32} {body merge : ℕ} (L : ℕ → St → Prop)
    (hop : op.IsCond) (hr : op.Reads env) (hlater : scope.Keeps St.Later)
    (htest : ∀ j st, L (j + 1) st → op.RegularTest st)
    (hscope : ∀ j st v st₁, L (j + 1) st → op.calc fuel st = (.ok v, st₁) → v ≠ 0 →
      Sim F 0 fuel (From st₁ fun st s => s.rest = F body ∧ Matches named env st s) scope
        fun _ st s => Before named op body merge s ∧ Matches named env st s)
    (hnext : ∀ j st v st₁ w st₂, L (j + 1) st → op.calc fuel st = (.ok v, st₁) → v ≠ 0 →
      scope st₁ = (.ok w, st₂) → L j st₂)
    {j : ℕ} (hj : j ≤ fuel) (hL : L j st₀) :
    Sim F 0 j (From st₀ fun st s => Before named op body merge s ∧ Matches named env st s)
      (whileLoop (op.calc fuel) scope j)
      fun _ st s => s.rest = F merge ∧ Matches named env st s := by
  have hopl := INode.calc_keeps St.kept_later fuel op
  induction j generalizing st₀ with
  | zero => exact fun st s hs _ => Or.inr ⟨st, 0, s, rfl, le_rfl, rfl, hs.2.2.world⟩
  | succ j ih =>
    have hrest := whileLoop_keeps St.kept_later hopl hlater j
    have hpass : ∀ (v : Int32) st₁, op.calc fuel st₀ = (.ok v, st₁) → Sim F 0 j
        (From st₁ fun st s => s.rest = F (if v = 0 then merge else body) ∧ Matches named env st s)
        (if v = 0 then pure 0 else scope >>= fun _ => whileLoop (op.calc fuel) scope j)
        fun _ st s => s.rest = F merge ∧ Matches named env st s := by
      intro v st₁ hv
      by_cases hzero : v = 0
      · simp only [if_pos hzero]
        exact (Sim.pure (0 : Int32) j).mono le_rfl le_rfl (fun _ _ h => h.2) fun _ _ _ h => h
      · simp only [if_neg hzero]
        have hbody := (hscope j st₀ v st₁ hL hv hzero).bind_from
          (fun w st₂ hw => ih (Nat.le_of_succ_le hj) (hnext j st₀ v st₁ w st₂ hL hv hzero hw))
          fun _ => hrest
        exact hbody.mono le_rfl (by rw [Nat.zero_add]; exact le_min (Nat.le_of_succ_le hj) le_rfl)
          (fun _ _ h => h) fun _ _ _ h => h
    refine (((htest j st₀ hL).sim hop hr F fuel body merge).bind_from hpass fun v => ?_).mono
      (Nat.zero_le _) ?_ (fun _ _ h => h) fun _ _ _ h => h
    · split
      · exact .pure St.kept_later _
      · exact hlater.bind St.kept_later fun _ => hrest
    · rw [Nat.add_comm 1 j]
      exact le_min hj le_rfl

end Loops

/-! ## Statements -/

/-- The machine is where the generator is, and matches the interpreter. -/
def Here (F : Code) (g : CodeGen) (env : INode.Env) (st : St) (s : State Stdio) : Prop :=
  Builder.At F g.builder s ∧ Matches g.namedValues env st s

/-- **What generating the code of a statement does**: code is appended, and
in completed code the machine follows the statement from where the generator
was to where it is. -/
structure Translated (env : INode.Env) (n : INode) (g g' : CodeGen) : Prop where
  /-- No declaration is made. -/
  named : g'.namedValues = g.namedValues
  /-- Code is appended. -/
  later : Builder.Extends g.builder g'.builder
  /-- The generator is in order. -/
  wellFormed : g'.builder.WellFormed
  /-- The code follows the statement. -/
  sim : ∀ F, Builder.Completes F g'.builder → ∀ fuel,
    Sim F 0 fuel (Here F g env) (n.calc fuel) fun _ => Here F g' (n.after env)

/-- The same where the run is regular. -/
structure Follows (env : INode.Env) (n : INode) (g g' : CodeGen) : Prop where
  /-- No declaration is made. -/
  named : g'.namedValues = g.namedValues
  /-- Code is appended. -/
  later : Builder.Extends g.builder g'.builder
  /-- The generator is in order. -/
  wellFormed : g'.builder.WellFormed
  /-- The code follows the statement. -/
  sim : ∀ F, Builder.Completes F g'.builder → ∀ fuel st₀, n.RegularRun fuel env st₀ →
    Sim F 0 fuel (From st₀ (Here F g env)) (n.calc fuel) fun _ => Here F g' (n.after env)

namespace CodeGen

/-- The generator after a branch on `c` to two new blocks. -/
def fork (g : CodeGen) (c : Value) : CodeGen := { g with builder := g.builder.fork c }

/-- The generator after a branch, in another block. -/
def join (g : CodeGen) (i : Instr) (block : ℕ) : CodeGen :=
  { g with builder := g.builder.join i block }

/-- The beginning of an `if`. -/
theorem startIf_eq (c : Value) (g : CodeGen) :
    startIf (some c) g = .ok (g.builder.nextBlock + 1, g.fork c) :=
  rfl

/-- The end of an `if`. -/
theorem endIf_eq (block : ℕ) (g : CodeGen) : endIf block g = .ok ((), g.join (.br block) block) :=
  rfl

/-- The beginning of a `while`. -/
theorem startWhile_eq (c : Value) (g : CodeGen) :
    startWhile (some c) g
      = .ok ((g.builder.nextBlock, g.builder.nextBlock + 1), g.fork c) :=
  rfl

/-- The end of a `while`. -/
theorem endWhile_eq (c : Value) (bbs : ℕ × ℕ) (g : CodeGen) :
    endWhile (some c) bbs g = .ok ((), g.join (.condBr c bbs.1 bbs.2) bbs.2) :=
  rfl

end CodeGen

section Statements

variable {env : INode.Env} {n : INode} {g g' : CodeGen} {F : Code}

/-- Before the code of a condition that is emitted next, with the branch on
it. -/
theorem Here.before {op : INode} {c : Value} {is : List Instr} {r k body merge : ℕ} {st : St}
    {s : State Stdio} (h : Here F g env st s) (he : Emits g.namedValues r op c is k)
    (hF : Builder.Completes F ((g.builder.append is k).append [.condBr c body merge] 0)) :
    Before g.namedValues op body merge s := by
  rw [Builder.append_append] at hF
  obtain ⟨more, hrest, -⟩ := h.1.rest_append hF
  refine ⟨r, c, is, k, more, he, ?_⟩
  rw [hrest, List.append_assoc]
  rfl

/-- **An operation** whose code is straight-line and follows its
evaluation. -/
theorem Follows.straight {is : List Instr} {k : ℕ} (hg : g.builder.WellFormed)
    (h : ∀ F fuel st s, n.RegularRun fuel env st → Matches g.namedValues env st s →
      (n.calc fuel st).2.io.failed = false →
      ∃ v st' s', n.calc fuel st = (.ok v, st') ∧ Leads pcllib F is s s'
        ∧ ∀ rest, Matches g.namedValues (n.after env) st' { s' with rest := rest }) :
    Follows env n g (g.append is k) where
  named := rfl
  later := Builder.extends_append _ is k
  wellFormed := hg.append is k
  sim F hF fuel st₀ hreg := Sim.of_ok fun st s hs hio => by
    obtain ⟨rfl, hhere⟩ := hs
    obtain ⟨v, st', s', hv, hlead, hm⟩ := h F fuel st s hreg hhere.2 hio
    obtain ⟨more, hrun, hat⟩ := hhere.1.leads hF hlead
    exact ⟨v, st', is.length, _, hv, Nat.zero_le _, hrun, hat, hm more⟩

/-- **Branches of a scope**, one after another. -/
theorem Follows.addBranch {scope branch : INode} {g₁ g₂ : CodeGen}
    (hs : Follows env scope g g₁) (hb : Follows (scope.scopeAfter env) branch g₁ g₂)
    (hle : (scope.scopeAfter env).Le (scope.after env))
    (hle' : (branch.branchAfter (scope.scopeAfter env)).Le (branch.after (scope.scopeAfter env))) :
    Follows env (.addBranch scope branch) g g₂ where
  named := hb.named.trans hs.named
  later := hs.later.trans hb.later
  wellFormed := hb.wellFormed
  sim F hF fuel st₀ hreg := by
    have hscope := (hs.sim F (hF.of_extends hb.later) fuel st₀ hreg.1).mono le_rfl le_rfl
      (fun _ _ h => h) fun _ st s (h : Here F g₁ (scope.after env) st s) =>
        And.intro h.1 (h.2.mono hle)
    have hbranch : ∀ v st₁, scope.calc fuel st₀ = (.ok v, st₁) →
        Sim F 0 fuel (From st₁ (Here F g₁ (scope.scopeAfter env)))
          (branch.calc fuel >>= fun _ => pure (0 : Int32))
          fun _ => Here F g₂ (branch.branchAfter (scope.scopeAfter env)) := fun v st₁ hv =>
      ((hb.sim F hF fuel st₁ (hreg.2 v st₁ hv)).mono le_rfl le_rfl (fun _ _ h => h)
        fun _ st s (h : Here F g₂ (branch.after (scope.scopeAfter env)) st s) =>
          And.intro h.1 (h.2.mono hle')).seq (fun _ => Sim.pure (0 : Int32) fuel) fun _ =>
            .pure St.kept_later _
    exact hscope.seq_from hbranch fun _ =>
      (INode.calc_keeps St.kept_later fuel branch).bind St.kept_later
        fun _ => .pure St.kept_later _

/-- At the beginning of the first new block. -/
theorem Here.fork {c : Value} {st : St} {s : State Stdio} (hg : g.builder.WellFormed)
    (hrest : s.rest = F g.builder.nextBlock) (hm : Matches g.namedValues env st s) :
    Here F (g.fork c) env st s :=
  ⟨Builder.at_of_empty hrest (hg.fork_code c le_rfl), hm⟩

/-- At the beginning of the second new block. -/
theorem Here.join {c : Value} {i : Instr} {st : St} {s : State Stdio} (hg : g.builder.WellFormed)
    (hlater : Builder.Extends (g.builder.fork c) g'.builder)
    (hrest : s.rest = F (g.builder.nextBlock + 1)) (hm : Matches g'.namedValues env st s) :
    Here F (g'.join i (g.builder.nextBlock + 1)) env st s :=
  ⟨Builder.at_of_empty hrest (hg.join_code hlater i), hm⟩

/-- **An `if`**: the condition, the branch on it, and the body. -/
theorem Follows.ifNode {op scope : INode} {c : Value} {is : List Instr} {k : ℕ}
    (hop : op.IsCond) (hr : op.Reads env) (hg : g.builder.WellFormed)
    (he : Emits g.namedValues g.builder.nextReg op c is k)
    (hs : Follows env scope ((g.append is k).fork c) g') (hle : env.Le (scope.after env)) :
    Follows env (.ifNode op scope) g
      (g'.join (.br (g.builder.nextBlock + 1)) (g.builder.nextBlock + 1)) where
  named := hs.named
  later := (Builder.extends_append _ is k).trans (Builder.extends_join hs.later _)
  wellFormed := hs.wellFormed.join hs.later _
  sim F hF fuel st₀ hreg := by
    have hg₁ : (g.append is k).builder.WellFormed := hg.append is k
    have hF' : Builder.Completes F (g'.builder.append [.br (g.builder.nextBlock + 1)] 0) := hF
    have hF₂ : Builder.Completes F g'.builder := hF'.of_extends (Builder.extends_append _ _ 0)
    have hF₁ : Builder.Completes F ((g.append is k).builder.fork c) := hF₂.of_extends hs.later
    -- the body, and the branch at its end
    have hbody : ∀ st₁, scope.RegularRun fuel env st₁ → Sim F 0 fuel
        (From st₁ fun st s => s.rest = F g.builder.nextBlock ∧ Matches g.namedValues env st s)
        (scope.calc fuel)
        fun _ => Here F (g'.join (.br (g.builder.nextBlock + 1)) (g.builder.nextBlock + 1)) env := by
      intro st₁ hreg₁
      refine Sim.then_steps ((hs.sim F hF₂ fuel st₁ hreg₁).mono_from
        (fun st s h => Here.fork hg₁ h.1 h.2) fun _ _ _ h => h) fun _ st s h => ?_
      obtain ⟨more, hrest, -⟩ := h.1.rest_append hF'
      refine ⟨1, _, run_br hrest, Here.join (g := g.append is k) hg₁ hs.later rfl ?_⟩
      exact ⟨(h.2.mono hle).stored, h.2.world⟩
    have hcond := (hreg.1.sim hop hr F fuel g.builder.nextBlock (g.builder.nextBlock + 1)).mono
      (Nat.zero_le 1) le_rfl
      (fun st s (h : From st₀ (Here F g env) st s) => And.intro h.1 ⟨h.2.before he hF₁, h.2.2⟩)
      fun _ _ _ h => h
    have hnext : ∀ (v : Int32) st₁, op.calc fuel st₀ = (.ok v, st₁) → Sim F 0 fuel
        (From st₁ fun st s => s.rest = F (if v = 0 then g.builder.nextBlock + 1
          else g.builder.nextBlock) ∧ Matches g.namedValues env st s)
        (if v = 0 then pure 0 else scope.calc fuel >>= fun _ => pure 0 : Run Int32)
        fun _ => Here F (g'.join (.br (g.builder.nextBlock + 1)) (g.builder.nextBlock + 1)) env := by
      intro v st₁ hv
      by_cases hzero : v = 0
      · simp only [if_pos hzero]
        refine (Sim.pure (0 : Int32) fuel).mono le_rfl le_rfl (fun st s h => ?_) fun _ _ _ h => h
        exact Here.join (g := g.append is k) hg₁ hs.later h.2.1 (hs.named ▸ h.2.2)
      · simp only [if_neg hzero]
        exact (hbody st₁ (hreg.2 v st₁ hv hzero)).seq (fun _ => Sim.pure (0 : Int32) fuel) fun _ =>
          .pure St.kept_later _
    refine hcond.seq_from hnext fun v => ?_
    split
    · exact .pure St.kept_later _
    · exact (INode.calc_keeps St.kept_later fuel scope).bind St.kept_later
        fun _ => .pure St.kept_later _

/-- **A `while`**: the condition, the branch on it, the body, and the
condition and the branch again. -/
theorem Follows.whileNode {op scope : INode} {c c' : Value} {is is' : List Instr} {k k' : ℕ}
    (hop : op.IsCond) (hr : op.Reads env) (hg : g.builder.WellFormed)
    (he : Emits g.namedValues g.builder.nextReg op c is k)
    (hs : Follows env scope ((g.append is k).fork c) g')
    (he' : Emits g'.namedValues g'.builder.nextReg op c' is' k') (hle : env.Le (scope.after env)) :
    Follows env (.whileNode op scope) g
      ((g'.append is' k').join (.condBr c' g.builder.nextBlock (g.builder.nextBlock + 1))
        (g.builder.nextBlock + 1)) where
  named := hs.named
  later := (Builder.extends_append _ is k).trans
    (Builder.extends_join (hs.later.trans (Builder.extends_append _ is' k')) _)
  wellFormed := Builder.WellFormed.join (hs.wellFormed.append is' k')
    (hs.later.trans (Builder.extends_append _ is' k')) _
  sim F hF fuel st₀ hreg := by
    have hg₁ : (g.append is k).builder.WellFormed := hg.append is k
    have hlater := hs.later.trans (Builder.extends_append _ is' k')
    have hF' : Builder.Completes F ((g'.builder.append is' k').append
      [.condBr c' g.builder.nextBlock (g.builder.nextBlock + 1)] 0) := hF
    have hF₂ : Builder.Completes F g'.builder :=
      hF'.of_extends ((Builder.extends_append _ is' k').trans (Builder.extends_append _ _ 0))
    have hF₁ : Builder.Completes F ((g.append is k).builder.fork c) := hF₂.of_extends hs.later
    have hbody : ∀ st₁, scope.RegularRun fuel env st₁ → Sim F 0 fuel
        (From st₁ fun st s => s.rest = F g.builder.nextBlock ∧ Matches g.namedValues env st s)
        (scope.calc fuel)
        fun _ st s => Before g.namedValues op g.builder.nextBlock (g.builder.nextBlock + 1) s
          ∧ Matches g.namedValues env st s := by
      intro st₁ hreg₁
      refine (hs.sim F hF₂ fuel st₁ hreg₁).mono_from (fun st s h => Here.fork hg₁ h.1 h.2)
        fun _ st s h => ?_
      have hbefore := Here.before h he' hF'
      have hm := h.2.mono hle
      rw [hs.named] at hbefore hm
      exact ⟨hbefore, hm⟩
    -- the passes so far and those still allowed are all the passes there may be
    refine (whileLoop_sim (fun j st => ∃ i, i + j = fuel ∧ LoopHead fuel op scope st₀ i st) hop hr
      (INode.calc_keeps St.kept_later fuel scope)
      (fun j st ⟨i, hi, hhead⟩ => (hreg i st (by omega) hhead).1)
      (fun j st v st₁ ⟨i, hi, hhead⟩ hv hne =>
        hbody st₁ ((hreg i st (by omega) hhead).2 v st₁ hv hne))
      (fun j st v st₁ w st₂ ⟨i, hi, hhead⟩ hv hne hw =>
        ⟨i + 1, by omega, hhead.succ hv hne hw⟩) le_rfl ⟨0, Nat.zero_add _, .zero⟩).mono_from
      (fun st s h => ⟨h.before he hF₁, h.2⟩) fun _ st s h =>
        Here.join (g := g.append is k) hg₁ hlater h.1 (hs.named ▸ h.2)

/-- **An output.** -/
theorem Follows.output {r : INode} {c : Value} {is : List Instr} {k : ℕ} (h : r.IsExpr)
    (hr : r.Reads env) (hg : g.builder.WellFormed)
    (he : Emits g.namedValues g.builder.nextReg r c is k) :
    Follows env (.operand .null .stdOut r) g (g.append (is ++ [.output c]) k) := by
  refine .straight hg fun F fuel st s hreg hm hio => ?_
  obtain ⟨v, hv⟩ : ∃ v, r.calc fuel st = (.ok v, st.skip r.inputs) := by
    obtain ⟨v, -, hv⟩ := hreg.1.calc_eq h.isCond fuel
    exact ⟨v, hv⟩
  have hcalc : (INode.operand .null .stdOut r).calc fuel st
      = (.ok 0, { st.skip r.inputs with io := (st.skip r.inputs).io.print v }) := Run.bind_ok hv
  rw [hcalc] at hio
  obtain ⟨w, s', hw, hlead, hy⟩ := he.leads_of_regular (F := F) h.isCond h.hasTy hreg.1 hr hm fuel
    (by rw [hv]; exact hio)
  cases congrArg Prod.fst (hw.symm.trans hv)
  have hm' := hm.skip hy []
  exact ⟨0, _, _, hcalc, hlead.append (leads_output hy.value), fun rest =>
    ⟨hm'.stored, congrArg (Stdio.print · v) hm'.world⟩⟩

/-- **An assignment**: the value the left-hand side had is loaded first and
not used. -/
theorem Follows.assign {r : INode} {id slot : ℕ} {x : String} {c : Value} {is : List Instr}
    {k : ℕ} (hs : (INode.operand (.decl id x) .assign r).Scoped env) (hinj : env.Inj)
    (hg : g.builder.WellFormed) (hslot : g.namedValues x = some slot)
    (hslots : ∀ y z slot, g.namedValues y = some slot → g.namedValues z = some slot → y = z)
    (he : Emits g.namedValues (g.builder.nextReg + 1) r c is k) :
    Follows env (.operand (.decl id x) .assign r) g
      (g.append (([.load g.builder.nextReg slot] ++ is) ++ [.store c slot]) (1 + k)) := by
  refine .straight hg fun F fuel st s hreg hm hio => ?_
  obtain ⟨hop, -⟩ | ⟨-, _, _, hl, hres, h, hr⟩ := hs.cases_operand hreg.2
  · cases hop
  cases hl
  obtain ⟨v, hv⟩ : ∃ v, r.calc fuel st = (.ok v, st.skip r.inputs) := by
    obtain ⟨v, -, hv⟩ := hreg.1.calc_eq h.isCond fuel
    exact ⟨v, hv⟩
  have hcalc : (INode.operand (.decl id x) .assign r).calc fuel st = (.ok v,
      { st.skip r.inputs with vals := Function.update (st.skip r.inputs).vals id (some v) }) :=
    Run.bind_ok hv
  rw [hcalc] at hio
  have hload := leads_load (E := pcllib) (F := F) s g.builder.nextReg slot
  have hm₀ : Matches g.namedValues env st (s.setReg g.builder.nextReg (s.mem slot)) :=
    ⟨hm.stored, hm.world⟩
  obtain ⟨w, s', hw, hlead, hy⟩ := he.leads_of_regular (F := F) h.isCond h.hasTy hreg.1 hr hm₀
    fuel (by rw [hv]; exact hio)
  cases congrArg Prod.fst (hw.symm.trans hv)
  refine ⟨v, _, _, hcalc, (hload.append hlead).append (leads_store hy.value), fun rest => ?_⟩
  exact (hm₀.skip hy rest).assign hres hinj hslot hslots

end Statements

/-! ## The translation -/

namespace INode

variable {env : Env} {n : INode} {g : CodeGen}

/-- What a branch makes visible is visible after it. -/
theorem Scoped.branchAfter_le (h : n.Scoped env) (hinj : env.Inj) :
    (n.branchAfter env).Le (n.after env) := by
  cases n with
  | addBranch scope branch => exact (Scoped.scopeAfter h hinj).1
  | _ => exact fun _ _ h => h

/-- What the branches of a scope make visible is visible after it. -/
theorem Scoped.scopeAfter_le (h : n.Scoped env) (hinj : env.Inj) :
    (n.scopeAfter env).Le (n.after env) := by
  cases n with
  | operand l op r => exact (Scoped.branchAfter h hinj).1
  | _ => exact fun _ _ h => h

/-- What was visible is visible after a node. -/
theorem Scoped.le_after (h : n.Scoped env) (hinj : env.Inj) : env.Le (n.after env) :=
  fun x id hx => h.scopeAfter_le hinj x id ((h.scopeAfter hinj).1 x id hx)

/-- **The code of every statement follows its regular runs.** -/
theorem Scoped.follows (hs : n.Scoped env) (hinj : env.Inj) (hn : n.Named g.namedValues)
    (hg : g.builder.WellFormed)
    (hslots : ∀ y z slot, g.namedValues y = some slot → g.namedValues z = some slot → y = z) :
    ∃ r g', n.codegen g = .ok (r, g') ∧ Follows env n g g' := by
  induction n generalizing env g with
  | emptyScope =>
    refine ⟨none, g, rfl, rfl, .refl _, hg, fun F hF fuel st₀ _ => ?_⟩
    exact (Sim.pure (0 : Int32) fuel).mono le_rfl le_rfl (fun _ _ h => h.2) fun _ _ _ h => h
  | addBranch scope branch ihs ihb =>
    obtain ⟨hle, hinj'⟩ := hs.1.scopeAfter hinj
    obtain ⟨r₁, g₁, hc₁, ht₁⟩ := ihs hs.1 hinj hn.1 hg hslots
    obtain ⟨r₂, g₂, hc₂, ht₂⟩ := ihb hs.2 hinj' (ht₁.named ▸ hn.2) ht₁.wellFormed
      (ht₁.named ▸ hslots)
    exact ⟨none, g₂, (Gen.bind_ok hc₁).trans (Gen.bind_ok hc₂),
      ht₁.addBranch ht₂ (hs.1.scopeAfter_le hinj) (hs.2.branchAfter_le hinj')⟩
  | ifNode op scope _ ihs =>
    obtain ⟨hop, hr, hs'⟩ := hs
    obtain ⟨c, is, k, he, hc⟩ := hop.codegen hn.1
    have hg₁ : (g.append is k).builder.WellFormed := hg.append is k
    obtain ⟨r, g', hc', ht⟩ := ihs (g := (g.append is k).fork c) hs' hinj hn.2 (hg₁.fork c) hslots
    refine ⟨none, _, ?_, ht.ifNode hop hr hg he (hs'.le_after hinj)⟩
    refine (Gen.bind_ok hc).trans ((Gen.bind_ok (CodeGen.startIf_eq c _)).trans ?_)
    exact (Gen.bind_ok hc').trans (Gen.bind_ok (CodeGen.endIf_eq _ g'))
  | whileNode op scope _ ihs =>
    obtain ⟨hop, hr, hs'⟩ := hs
    obtain ⟨c, is, k, he, hc⟩ := hop.codegen hn.1
    have hg₁ : (g.append is k).builder.WellFormed := hg.append is k
    obtain ⟨r, g', hc', ht⟩ := ihs (g := (g.append is k).fork c) hs' hinj hn.2 (hg₁.fork c) hslots
    -- the condition is emitted again at the end of the body
    have hn' : op.Named g'.namedValues := by
      rw [ht.named]
      exact hn.1
    obtain ⟨c', is', k', he', hc''⟩ := hop.codegen hn'
    refine ⟨none, _, ?_, ht.whileNode hop hr hg he he' (hs'.le_after hinj)⟩
    refine (Gen.bind_ok hc).trans ((Gen.bind_ok (CodeGen.startWhile_eq c _)).trans ?_)
    refine (Gen.bind_ok hc').trans ((Gen.bind_ok hc'').trans ?_)
    exact Gen.bind_ok (CodeGen.endWhile_eq c' _ _)
  | operand l op r =>
    have hs' := hs
    rcases hs with ⟨rfl, rfl, hexpr, hr⟩ | ⟨rfl, id, x, rfl, -, hexpr, -⟩
    · obtain ⟨c, is, k, he, hc⟩ := hexpr.isCond.codegen hn.2
      refine ⟨none, _, ?_, .output hexpr hr hg he⟩
      rw [INode.codegen, hexpr.isNull]
      refine (Gen.bind_ok (Gen.pure_apply _ _)).trans ((Gen.bind_ok hc).trans ?_)
      show Except.ok (none, (g.append is k).append [.output c] 0) = _
      rw [CodeGen.append_append]
      rfl
    · -- the left-hand side is loaded too, into a register nothing reads
      obtain ⟨slot, hslot⟩ := Option.isSome_iff_exists.mp hn.1
      have hload : (decl id x).codegen g = .ok (some (.reg .i32 g.builder.nextReg),
          g.append [.load g.builder.nextReg slot] 1) := CodeGen.addDeclRead_eq hslot
      obtain ⟨c, is, k, he, hc⟩ := hexpr.isCond.codegen
        (g := g.append [.load g.builder.nextReg slot] 1) hn.2
      rw [CodeGen.append_append] at hc
      refine ⟨none, _, ?_, .assign hs' hinj hg hslot hslots he⟩
      rw [INode.codegen, hexpr.isNull]
      refine (Gen.bind_ok hload).trans ((Gen.bind_ok hc).trans ?_)
      rw [if_pos rfl]
      have hstore := CodeGen.addDeclWrite_eq (g := g.append ([.load g.builder.nextReg slot] ++ is)
        (1 + k)) hslot c
      rw [CodeGen.append_append] at hstore
      exact hstore
  | _ => exact hs.elim

/-- **Every tree of the sublanguage is translated**: its runs are regular. -/
theorem Plain.translated (hp : n.Plain env) (hs : n.Scoped env) (hinj : env.Inj)
    (hn : n.Named g.namedValues) (hg : g.builder.WellFormed)
    (hslots : ∀ y z slot, g.namedValues y = some slot → g.namedValues z = some slot → y = z) :
    ∃ r g', n.codegen g = .ok (r, g') ∧ Translated env n g g' := by
  obtain ⟨r, g', hcode, ht⟩ := hs.follows hinj hn hg hslots
  refine ⟨r, g', hcode, ht.named, ht.later, ht.wellFormed, fun F hF fuel st s hs' hio => ?_⟩
  exact ht.sim F hF fuel st (hp.regularRun hs hs'.2.assigned fuel) st s ⟨rfl, hs'⟩ hio

end INode

end ParaCL
