import CppGraduate.ParaCL.Simulation

/-!
# The compiler agrees with the interpreter

The finished function, run from its entry, does what the interpreter does
with the tree it was generated from, on the sublanguage and on an input with
an integer for every `?` that is evaluated: either both come to an end, with
the same integers read and printed, or neither does, and then neither reads
or prints anything the other does not.
-/

namespace ParaCL

open Ir

/-! ## Agreement -/

/-- **The code does what the interpreter does.** -/
structure Agreement (root : INode) (code : Code) (io : Stdio) : Prop where
  /-- Both come to an end in the same way: with the same read and printed. -/
  ends : ∀ io', (∃ fuel v st', root.calc fuel (St.start io) = (.ok v, st') ∧ st'.io = io')
    ↔ ∃ k, run pcllib code k (entry code io) = .returned io'
  /-- The interpreter comes to a normal end or to none. -/
  calc_normal : ∀ fuel e st', root.calc fuel (St.start io) = (.error e, st') → e = .outOfFuel
  /-- So does the code. -/
  code_normal : ∀ k w, run pcllib code k (entry code io) ≠ .undefined w
    ∧ run pcllib code k (entry code io) ≠ .exited w
  /-- What the interpreter reads and prints in some passes, the code does. -/
  follows : ∀ fuel, ∃ k,
    (run pcllib code k (entry code io)).world = (root.calc fuel (St.start io)).2.io
  /-- What the code reads and prints in some steps, the interpreter does. -/
  leads : ∀ k, ∃ fuel,
    (run pcllib code k (entry code io)).world.Later (root.calc fuel (St.start io)).2.io

variable {root : INode} {g : CodeGen} {io : Stdio}

/-- After its declarations, the generator is in order. -/
theorem CodeGen.Declaring.wellFormed (h : g.Declaring) : g.builder.WellFormed where
  point_lt := by
    rw [h.point, h.nextBlock]
    exact Nat.one_pos
  fresh l hl := h.others l (Nat.one_le_iff_ne_zero.mp (h.nextBlock ▸ hl))

/-- **The machine makes the slots** and is then where the generator was
after the declarations. -/
theorem CodeGen.Declaring.run_entry (h : g.Declaring) (io : Stdio) {code : Code}
    (hcode : Builder.Completes code g.builder) :
    ∃ k s, run pcllib code k (ParaCL.entry code io) = .running s
      ∧ Here code g (fun _ => none) (St.start io) s := by
  obtain ⟨more, hmore⟩ := hcode 0
  obtain ⟨s, hlead, hworld⟩ := exists_leads_alloca (E := pcllib) (F := code) h.entry
    (⟨[], fun _ => none, fun _ => none, io⟩ : State Stdio)
  have hrun := hlead more
  rw [hmore] at hrun
  refine ⟨_, _, hrun, ?_, fun _ _ h => (nomatch h), hworld⟩
  show more = (code g.builder.point).drop (g.builder.code g.builder.point).length
  rw [h.point, ← hmore, List.drop_left]

/-- Every call of the library leads to later streams. -/
theorem run_later {code : Code} (k : ℕ) (c : Config Stdio) :
    c.world.Later (run pcllib code k c).world := by
  refine run_world Stdio.Later.refl (fun _ _ _ => Stdio.Later.trans) (fun io n io' h => ?_)
    (fun n io => Stdio.later_print io n) k c
  obtain ⟨-, hread⟩ := Option.ite_none_left_eq_some.mp
    (show (if io.read.2.failed then none else some io.read) = some (n, io') from h)
  have hlater := Stdio.later_read io
  rw [Option.some.inj hread] at hlater
  exact hlater

/-- **One bound on the passes**: the interpreter comes to an end and the
code returns, or the interpreter runs out of passes and the code is still
running after at least as many steps. -/
theorem agreement_of_fuel {code : Code}
    (h : ∀ fuel, (∃ v st' k, root.calc fuel (St.start io) = (.ok v, st')
          ∧ run pcllib code k (entry code io) = .returned st'.io)
        ∨ ∃ st' k s', root.calc fuel (St.start io) = (.error .outOfFuel, st') ∧ fuel ≤ k
          ∧ run pcllib code k (entry code io) = .running s' ∧ s'.world = st'.io) :
    Agreement root code io := by
  -- a machine that has stopped has returned what the interpreter ends with
  have hstopped : ∀ k c, run pcllib code k (entry code io) = c → (∀ s, c ≠ .running s) →
      ∃ fuel v st', root.calc fuel (St.start io) = (.ok v, st') ∧ c = .returned st'.io := by
    intro k c hrun hc
    rcases h k with ⟨v, st', l, hcalc, hret⟩ | ⟨st', l, s', -, hk, hrun', -⟩
    · refine ⟨k, v, st', hcalc, ?_⟩
      have hmax := run_stopped_of_le hrun hc (le_max_left k l)
      rw [run_stopped_of_le hret (fun _ h => nomatch h) (le_max_right k l)] at hmax
      exact hmax.symm
    · rw [run_stopped_of_le hrun hc hk] at hrun'
      exact absurd hrun' (hc s')
  refine ⟨fun io' => ⟨?_, ?_⟩, ?_, fun k w => ⟨?_, ?_⟩, fun fuel => ?_, fun k => ?_⟩
  · rintro ⟨fuel, v, st', hcalc, rfl⟩
    rcases h fuel with ⟨w, st'', k, hcalc', hret⟩ | ⟨st'', k, s', hcalc', -⟩
    · cases hcalc.symm.trans hcalc'
      exact ⟨k, hret⟩
    · cases congrArg Prod.fst (hcalc.symm.trans hcalc')
  · rintro ⟨k, hret⟩
    obtain ⟨fuel, v, st', hcalc, heq⟩ := hstopped k _ hret (fun _ h => nomatch h)
    cases heq
    exact ⟨fuel, v, st', hcalc, rfl⟩
  · intro fuel e st' hcalc
    rcases h fuel with ⟨w, st'', k, hcalc', -⟩ | ⟨st'', k, s', hcalc', -⟩
    · cases congrArg Prod.fst (hcalc.symm.trans hcalc')
    · cases congrArg Prod.fst (hcalc.symm.trans hcalc')
      rfl
  · intro hrun
    obtain ⟨_, _, _, -, heq⟩ := hstopped k _ hrun (fun _ h => nomatch h)
    cases heq
  · intro hrun
    obtain ⟨_, _, _, -, heq⟩ := hstopped k _ hrun (fun _ h => nomatch h)
    cases heq
  · rcases h fuel with ⟨v, st', k, hcalc, hret⟩ | ⟨st', k, s', hcalc, -, hrun, hworld⟩
    · exact ⟨k, by rw [hcalc, hret]; rfl⟩
    · exact ⟨k, by rw [hcalc, hrun]; exact hworld⟩
  · have hbefore : ∀ {l c}, run pcllib code l (entry code io) = c → k ≤ l →
        (run pcllib code k (entry code io)).world.Later c.world := by
      intro l c hrun hl
      obtain ⟨m, rfl⟩ := Nat.exists_eq_add_of_le hl
      rw [← hrun, run_add]
      exact run_later m _
    refine ⟨k, ?_⟩
    rcases h k with ⟨v, st', l, hcalc, hret⟩ | ⟨st', l, s', hcalc, hk, hrun, hworld⟩
    · rw [hcalc]
      rcases le_total k l with hl | hl
      · exact hbefore hret hl
      · rw [run_stopped_of_le hret (fun _ h => nomatch h) hl]
        exact .refl _
    · rw [hcalc]
      show (run pcllib code k (entry code io)).world.Later st'.io
      rw [← hworld]
      exact hbefore hrun hk

/-- The finished function ends with a return. -/
theorem compile_eq {r : Option Value} {g' : CodeGen} (h : root.codegen g = .ok (r, g')) :
    compile root g = .ok (g'.builder.append [.ret] 0).code := by
  unfold compile
  rw [Gen.bind_ok h]
  rfl

/-- **From a simulation to agreement.** The code is finished by a return. -/
theorem agreement_of_sim {r : Option Value} {g' : CodeGen} (env : INode.Env) (hg : g.Declaring)
    (hcode : root.codegen g = .ok (r, g')) (hlater : Builder.Extends g.builder g'.builder)
    (hsim : ∀ F, Builder.Completes F g'.builder → ∀ fuel,
      Sim F 0 fuel (From (St.start io) (Here F g fun _ => none)) (root.calc fuel)
        fun _ => Here F g' env)
    (hio : ∀ fuel, (root.calc fuel (St.start io)).2.io.failed = false) :
    ∃ code, compile root g = .ok code ∧ Agreement root code io := by
  refine ⟨_, compile_eq hcode, agreement_of_fuel fun fuel => ?_⟩
  have hF : Builder.Completes (g'.builder.append [.ret] 0).code (g'.builder.append [.ret] 0) :=
    fun _ => List.prefix_rfl
  have hF' := hF.of_extends (Builder.extends_append _ _ 0)
  obtain ⟨k₀, s₀, hrun₀, hhere⟩ := hg.run_entry io (hF'.of_extends hlater)
  rcases hsim _ hF' fuel _ s₀ ⟨rfl, hhere⟩ (hio fuel) with
    ⟨v, st', k, s, hcalc, -, hrun, hend⟩ | ⟨st', k, s, hcalc, hk, hrun, hworld⟩
  · obtain ⟨more, hrest, -⟩ := hend.1.rest_append hF
    refine Or.inl ⟨v, st', k₀ + k + 1, hcalc, ?_⟩
    rw [← hend.2.world]
    exact run_trans (run_trans hrun₀ hrun) (run_ret hrest)
  · exact Or.inr ⟨st', k₀ + k, s, hcalc, hk.trans (Nat.le_add_left _ _), run_trans hrun₀ hrun,
      hworld⟩

/-- **The compiler agrees with the interpreter** on every accepted program
of the sublanguage, with an integer for every `?` that is evaluated. -/
theorem parseProgram_compile_agreement {ss : Stms} (hp : parseProgram ss = .ok (root, g))
    (hplain : root.Plain fun _ => none)
    (hio : ∀ fuel, (root.calc fuel (St.start io)).2.io.failed = false) :
    ∃ code, compile root g = .ok code ∧ Agreement root code io := by
  obtain ⟨hscoped, hnamed, hg⟩ := parseProgram_spec hp
  obtain ⟨r, g', hcode, ht⟩ := hplain.translated hscoped (fun _ _ _ h => nomatch h) hnamed
    hg.wellFormed hg.slot_inj
  refine agreement_of_sim (root.after fun _ => none) hg hcode ht.later (fun F hF fuel => ?_) hio
  exact (ht.sim F hF fuel).mono le_rfl le_rfl (fun _ _ h => h.2) fun _ _ _ h => h

/-- `x = ?; while (x > 0) { print x; x = x - 1; }` -/
def countdown : Stms :=
  .next (.first (.assign "x" .input))
    (.stm (.whileStm (.rel (.name "x") .greater (.value 0)) (.scope
      (.next (.first (.output (.name "x")))
        (.stm (.assign "x" (.minus (.name "x") (.value 1))))))))

/-- Its tree. -/
def countdownTree : INode :=
  .addBranch
    (.addBranch .emptyScope (.operand (.decl 0 "x") .assign (.operand .null .stdIn .null)))
    (.whileNode (.operand (.decl 0 "x") .greater (.value 0))
      (.addBranch .emptyScope
        (.addBranch
          (.addBranch .emptyScope (.operand .null .stdOut (.decl 0 "x")))
          (.operand (.decl 0 "x") .assign (.operand (.decl 0 "x") .minus (.value 1))))))

/-- Counting down from 2 prints 2 and 1, interpreted and compiled. -/
theorem compile_agreement_countdown :
    ∃ code, compile countdownTree (CodeGen.start.addDecl "x") = .ok code
      ∧ Agreement countdownTree code (.ofList [2]) := by
  have hp : parseProgram countdown = .ok (countdownTree, CodeGen.start.addDecl "x") := rfl
  refine parseProgram_compile_agreement hp ?_ fun fuel => ?_
  · simp [countdownTree, INode.Plain, INode.Polynomial, INode.Comparison, INode.ReadsDecl,
      INode.scopeAfter, INode.branchAfter, Operation.IsRel]
  · rcases lt_or_ge fuel 3 with h | h
    · obtain rfl | rfl | rfl : fuel = 0 ∨ fuel = 1 ∨ fuel = 2 := by omega
      all_goals rfl
    · have hok : (countdownTree.calc 3 (St.start (.ofList [2]))).1 = .ok 0 := rfl
      have hne : (countdownTree.calc 3 (St.start (.ofList [2]))).1 ≠ .error .outOfFuel := by
        simp [hok]
      rw [INode.calc_approximates h countdownTree _ hne]
      rfl

end ParaCL
