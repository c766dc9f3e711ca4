import CppGraduate.ParaCL.Compiler
import CppGraduate.ParaCL.OperandOrder

/-!
# When the input runs out

The library the code is linked with ends the program when a read fails. The
interpreter takes what the failed read left, which is mostly zero, and goes
on. So the two print the same, and a failed read ends both, just where no
read fails – in runs that are regular and in which the order of the operands
does not show, as others may differ for other reasons.
-/

namespace ParaCL

open Ir

/-- **A run of the interpreter**, in any order of the operands: its end under
each bound on the passes. -/
def IsRun (root : INode) (io : Stdio) (ends : ℕ → Except Stop Int32 × St) : Prop :=
  ∀ fuel, ends fuel ∈ root.calcAnyOrder fuel (St.start io)

/-- **What is promised when the input runs out**: the same integers are
printed, as many as there are, and a failed read ends the run. -/
structure EndsAlike (ends : ℕ → Except Stop Int32 × St) (code : Code) (io : Stdio) : Prop where
  /-- What one prints the other prints. -/
  printed : ∀ l : List Int32, (∃ fuel, l <+: (ends fuel).2.io.out)
    ↔ ∃ k, l <+: (run pcllib code k (entry code io)).world.out
  /-- After a failed read the interpreter ends without a value. -/
  calc_ends : ∀ fuel, (ends fuel).2.io.failed = true →
    ∃ what, (ends fuel).1 = .error (.exception what)
  /-- In a read that fails the code exits. -/
  code_ends : ∀ k s dst rest, run pcllib code k (entry code io) = .running s →
    s.rest = .input dst :: rest → s.world.read.2.failed = true →
    run pcllib code (k + 1) (entry code io) = .exited s.world

variable {root : INode} {g : CodeGen} {code : Code} {io : Stdio}

/-- The library ends the program when a read fails. -/
theorem run_input_failed {k dst : ℕ} {s : State Stdio} {rest : List Instr}
    (hrun : run pcllib code k (entry code io) = .running s) (hrest : s.rest = .input dst :: rest)
    (hfail : s.world.read.2.failed = true) :
    run pcllib code (k + 1) (entry code io) = .exited s.world := by
  refine run_trans hrun ?_
  show step pcllib code (.running s) = _
  rw [step_cons _ _ hrest]
  have hnone : pcllib.input s.world = none := if_pos hfail
  unfold exec
  rw [hnone]

/-- Where the code agrees with the interpreter, the same is printed. -/
theorem Agreement.printed (h : Agreement root code io) (l : List Int32) :
    (∃ fuel, l <+: (root.calc fuel (St.start io)).2.io.out)
      ↔ ∃ k, l <+: (run pcllib code k (entry code io)).world.out := by
  constructor
  · rintro ⟨fuel, hl⟩
    obtain ⟨k, hk⟩ := h.follows fuel
    exact ⟨k, by rwa [hk]⟩
  · rintro ⟨k, hl⟩
    obtain ⟨fuel, hlater⟩ := h.leads k
    exact ⟨fuel, hl.trans hlater.out⟩

/-- **A regular run in any order** is the one from left to right. -/
theorem IsRun.eq_calc {env : INode.Env} {ends : ℕ → Except Stop Int32 × St}
    (h : IsRun root io ends) (hs : root.Scoped env)
    (hreg : ∀ fuel, root.RegularRun fuel env (St.start io))
    (hfree : ∀ fuel, INode.VisitsOrderFree fuel root (St.start io)) :
    ends = fun fuel => root.calc fuel (St.start io) := by
  funext fuel
  have hlike := hs.covers (hfree fuel) _ (h fuel)
  match hcalc : root.calc fuel (St.start io) with
  | (.ok v, st) =>
    rw [hcalc] at hlike
    exact hlike
  | (.error e, st) =>
    cases (hreg fuel).eq_outOfFuel hs hcalc
    rw [hcalc] at hlike
    exact hlike.eq_of_outOfFuel

/-- **A regular run of an accepted program** ends as the code does, with the
same printed, just where no read fails, whichever operands it evaluates
first, if no operation it evaluates has a `?` in both operands, but for
symmetric ones on the same expression twice. -/
theorem parseProgram_endsAlike_iff {ss : Stms} (hp : parseProgram ss = .ok (root, g))
    (hreg : ∀ fuel, root.RegularRun fuel (fun _ => none) (St.start io))
    (hfree : ∀ fuel, INode.VisitsOrderFree fuel root (St.start io)) :
    ∃ code, compile root g = .ok code ∧ ∀ ends, IsRun root io ends →
      (EndsAlike ends code io ↔ ∀ fuel, (ends fuel).2.io.failed = false) := by
  obtain ⟨hscoped, hnamed, hg⟩ := parseProgram_spec hp
  obtain ⟨r, g', hcode, ht⟩ := hscoped.follows (fun _ _ _ h => nomatch h) hnamed
    hg.wellFormed hg.slot_inj
  refine ⟨_, compile_eq hcode, fun ends hrun => ?_⟩
  rw [hrun.eq_calc hscoped hreg hfree]
  refine ⟨fun hends fuel => ?_, fun hio => ?_⟩
  · by_contra hfail
    obtain ⟨what, hwhat⟩ := hends.calc_ends fuel (by simpa using hfail)
    cases (hreg fuel).eq_outOfFuel hscoped (Prod.ext hwhat rfl)
  · obtain ⟨code, hcompile, hagree⟩ := agreement_of_sim (root.after fun _ => none) hg hcode
      ht.later (fun F hF fuel => ht.sim F hF fuel _ (hreg fuel)) hio
    cases (compile_eq hcode).symm.trans hcompile
    refine ⟨hagree.printed, fun fuel hfail => ?_, fun k s dst rest => run_input_failed⟩
    rw [hio fuel] at hfail
    cases hfail

/-- `x = ?; print 6 / x;` -/
def sixOver : Stms :=
  .next (.first (.assign "x" .input)) (.stm (.output (.div (.value 6) (.name "x"))))

/-- Its tree. -/
def sixOverTree : INode :=
  .addBranch
    (.addBranch .emptyScope (.operand (.decl 0 "x") .assign (.operand .null .stdIn .null)))
    (.operand .null .stdOut (.operand (.value 6) .div (.decl 0 "x")))

/-- With the input 3, it prints 2 interpreted and compiled. -/
theorem parseProgram_endsAlike_sixOver :
    ∃ code, compile sixOverTree (CodeGen.start.addDecl "x") = .ok code
      ∧ EndsAlike (fun fuel => sixOverTree.calc fuel (St.start (.ofList [3]))) code
        (.ofList [3]) := by
  have hp : parseProgram sixOver = .ok (sixOverTree, CodeGen.start.addDecl "x") := rfl
  have hreg : ∀ fuel, sixOverTree.RegularRun fuel (fun _ => none) (St.start (.ofList [3])) := by
    intro fuel
    refine ⟨⟨trivial, fun v st' hv => ⟨?_, fun _ _ _ _ _ h => h.elim id id⟩⟩, fun v st' hv => ?_⟩
    · refine ⟨⟨trivial, trivial, fun _ => rfl⟩, ?_, rfl⟩
      exact INode.NoAndOr.skipsPure (by simp [INode.NoAndOr]) _ _
    · cases hv
      refine ⟨⟨⟨trivial, trivial, fun _ => rfl⟩, ?_, rfl⟩, fun h => absurd h (by decide)⟩
      exact INode.NoAndOr.skipsPure (by simp [INode.NoAndOr]) _ _
  have hfree : ∀ fuel, INode.VisitsOrderFree fuel sixOverTree (St.start (.ofList [3])) := by
    intro fuel l op r st hv
    refine INode.Everywhere.visits hv (P := INode.OrderFree) ?_
    simp [sixOverTree, INode.Everywhere, INode.OrderFree, INode.inputs, Operation.IsArith,
      Operation.IsRel]
  obtain ⟨code, hcompile, hiff⟩ := parseProgram_endsAlike_iff hp hreg hfree
  exact ⟨code, hcompile, (hiff _ fun fuel => sixOverTree.calc_mem_calcAnyOrder fuel _).mpr
    fun fuel => rfl⟩

/-- The tree of `print ?;`. -/
def printInputTree : INode :=
  .addBranch .emptyScope (.operand .null .stdOut (.operand .null .stdIn .null))

/-- Its code prints nothing on an empty input. -/
theorem printInput_out {code : Code} (hcode : compile printInputTree CodeGen.start = .ok code)
    (k : ℕ) : (run pcllib code k (entry code (.ofList []))).world.out = [] := by
  -- the first instruction is the read
  have hfirst : (match compile printInputTree CodeGen.start with
      | .ok c => match run pcllib c 1 (entry c (.ofList [])) with
        | .exited w => decide (w.out = [])
        | _ => false
      | .error _ => false) = true := by decide +kernel
  rw [hcode] at hfirst
  cases k with
  | zero => rfl
  | succ k =>
    cases hrun : run pcllib code 1 (entry code (.ofList [])) with
    | exited w =>
      rw [run_stopped_of_le hrun (fun _ h => nomatch h) (Nat.succ_le_succ (Nat.zero_le k))]
      simp only [hrun, decide_eq_true_eq] at hfirst
      exact hfirst
    | _ => simp only [hrun, Bool.false_eq_true] at hfirst

/-- **On an empty input** `print ?;` prints 0 interpreted, and nothing
compiled. -/
theorem not_endsAlike_printInput :
    ¬ ∀ (ss : Stms) (root : INode) (g : CodeGen) (code : Code) (io : Stdio)
      (ends : ℕ → Except Stop Int32 × St), parseProgram ss = .ok (root, g) →
      compile root g = .ok code → IsRun root io ends → EndsAlike ends code io := by
  intro h
  have hp : parseProgram (.first (.output .input)) = .ok (printInputTree, CodeGen.start) := rfl
  obtain ⟨hscoped, hnamed, hg⟩ := parseProgram_spec hp
  obtain ⟨r, g', hcode, -⟩ := hscoped.follows (fun _ _ _ h => nomatch h) hnamed hg.wellFormed
    hg.slot_inj
  have hends :=
    h _ _ _ _ (.ofList []) (fun fuel => printInputTree.calc fuel _) hp (compile_eq hcode)
    fun fuel => printInputTree.calc_mem_calcAnyOrder fuel _
  obtain ⟨k, hk⟩ := (hends.printed [0]).mp ⟨0, List.prefix_rfl⟩
  rw [printInput_out (compile_eq hcode)] at hk
  exact absurd hk (by decide)

end ParaCL
