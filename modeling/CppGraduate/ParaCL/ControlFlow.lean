import CppGraduate.Lib.ControlFlow
import CppGraduate.ParaCL.Simulation

/-!
# Control flow of the generated function

`StartIf`, `EndIf`, `StartWhile` and `EndWhile` move the insertion point of
the one builder, and a node leaves it in another block than it found it in.
Every node nevertheless keeps the function under construction in order, with
the same blocks waiting: those the enclosing `if`s and `while`s go on in.
Conditions of any type are covered, also those the generator emits as
integers; expressions of any shape are too.

Every name of an accepted program has a slot by the time code is generated,
so no lookup fails.
-/

namespace ParaCL

open Ir

/-! ## Slots -/

/-- **Every name has a slot that was made** in the entry block. -/
def CodeGen.Allocated (g : CodeGen) : Prop :=
  ∀ x slot, g.namedValues x = some slot → .alloca slot ∈ g.builder.code 0

/-- A declaration makes the slot of its name. -/
theorem CodeGen.Allocated.addDecl {g : CodeGen} (h : g.Allocated) (x : String) :
    (g.addDecl x).Allocated := by
  intro y slot hy
  show _ ∈ Function.update g.builder.code 0 (.alloca g.nextSlot :: g.builder.code 0) 0
  rw [Function.update_self]
  change Function.update g.namedValues x (some g.nextSlot) y = some slot at hy
  rw [Function.update_apply] at hy
  split_ifs at hy
  · rw [Option.some.inj hy]
    exact List.mem_cons_self
  · exact List.mem_cons_of_mem _ (h y slot hy)

/-- What holds of the generator at first and after every declaration holds of
it while a program is parsed. -/
theorem Parser.access_gen {P : CodeGen → Prop} (hP : ∀ g x, P g → P (g.addDecl x)) {p : Parser}
    (h : P p.gen) (x : String) : P (p.access x).2.gen := by
  unfold Parser.access
  split
  · exact h
  · exact hP p.gen x h

/-- A branch is no matter for the generator. -/
theorem Parser.addBranch_gen (p : Parser) (n : INode) : (p.addBranch n).gen = p.gen := by
  unfold Parser.addBranch
  split <;> rfl

mutual

/-- The declarations of a statement. -/
theorem Stm.parse_gen {P : CodeGen → Prop} (hP : ∀ g x, P g → P (g.addDecl x)) :
    ∀ (s : Stm) {p p' : Parser} {n : INode}, P p.gen → s.parse p = .ok (n, p') → P p'.gen
  | .assign x e, p, p', n, hp, h => by
    unfold Stm.parse at h
    obtain ⟨r, -, h⟩ := bind_eq_ok.mp h
    cases h
    exact Parser.access_gen hP hp x
  | .output e, p, p', n, hp, h => by
    unfold Stm.parse at h
    obtain ⟨r, -, h⟩ := bind_eq_ok.mp h
    cases h
    exact hp
  | .ifStm c body, p, p', n, hp, h => by
    unfold Stm.parse at h
    obtain ⟨cond, -, h⟩ := bind_eq_ok.mp h
    obtain ⟨⟨node, q⟩, hbody, h⟩ := bind_eq_ok.mp h
    cases h
    show P (q.addBranch node).gen
    rw [Parser.addBranch_gen]
    exact Body.parse_gen hP body (p := p.push) hp hbody
  | .whileStm c body, p, p', n, hp, h => by
    unfold Stm.parse at h
    obtain ⟨cond, -, h⟩ := bind_eq_ok.mp h
    obtain ⟨⟨node, q⟩, hbody, h⟩ := bind_eq_ok.mp h
    cases h
    show P (q.addBranch node).gen
    rw [Parser.addBranch_gen]
    exact Body.parse_gen hP body (p := p.push) hp hbody

/-- The declarations of a statement or a block. -/
theorem Body.parse_gen {P : CodeGen → Prop} (hP : ∀ g x, P g → P (g.addDecl x)) :
    ∀ (b : Body) {p p' : Parser} {n : INode}, P p.gen → b.parse p = .ok (n, p') → P p'.gen
  | .stm s, p, p', n, hp, h => Stm.parse_gen hP s hp h
  | .scope ss, p, p', n, hp, h => by
    unfold Body.parse at h
    obtain ⟨q, hq, h⟩ := bind_eq_ok.mp h
    cases h
    show P q.gen
    exact Stms.parse_gen hP ss (p := p.push) hp hq

/-- The declarations of a list of statements. -/
theorem Stms.parse_gen {P : CodeGen → Prop} (hP : ∀ g x, P g → P (g.addDecl x)) :
    ∀ (ss : Stms) {p p' : Parser}, P p.gen → ss.parse p = .ok p' → P p'.gen
  | .first st, p, p', hp, h => by
    unfold Stms.parse at h
    obtain ⟨⟨node, q⟩, hst, h⟩ := bind_eq_ok.mp h
    cases h
    rw [Parser.addBranch_gen]
    exact Stm.parse_gen hP st hp hst
  | .next ss b, p, p', hp, h => by
    unfold Stms.parse at h
    obtain ⟨q, hq, h⟩ := bind_eq_ok.mp h
    obtain ⟨⟨node, r⟩, hb, h⟩ := bind_eq_ok.mp h
    cases h
    rw [Parser.addBranch_gen]
    exact Body.parse_gen hP b (Stms.parse_gen hP ss hp hq) hb

end

/-- **After an accepted program was parsed** every name has a slot. -/
theorem parseProgram_allocated {ss : Stms} {root : INode} {g : CodeGen}
    (h : parseProgram ss = .ok (root, g)) : g.Allocated := by
  unfold parseProgram at h
  obtain ⟨p, hp, h⟩ := bind_eq_ok.mp h
  cases h
  exact Stms.parse_gen (P := CodeGen.Allocated) (fun _ x h => h.addDecl x) ss
    (p := Parser.start) nofun hp

/-! ## Instructions -/

/-- The code of a condition stays in its block and uses slots that names
have. -/
theorem Emits.straight {named : String → Option ℕ} {r k : ℕ} {n : INode} {c : Value}
    {is : List Instr} (h : Emits named r n c is k) :
    ∀ i ∈ is, ¬ i.IsTerminator ∧ i.makes = []
      ∧ ∀ slot ∈ i.slots, ∃ x, named x = some slot := by
  induction h with
  | value => exact nofun
  | @decl r id slot x hslot =>
    refine List.forall_mem_singleton.mpr ⟨not_false, rfl, fun slot' hslot' => ⟨x, ?_⟩⟩
    rw [List.mem_singleton.mp hslot', hslot]
  | input => exact List.forall_mem_singleton.mpr ⟨not_false, rfl, nofun⟩
  | bin _ _ _ ihl ihr | icmp _ _ _ ihl ihr =>
    simp only [List.forall_mem_append, List.forall_mem_singleton]
    exact ⟨⟨ihl, ihr⟩, not_false, rfl, nofun⟩
  | not _ ih =>
    simp only [List.forall_mem_append, List.forall_mem_singleton]
    exact ⟨ih, not_false, rfl, nofun⟩

/-! ## Nodes -/

/-- **The function is being built**, with some blocks waiting, and every name
has a slot. -/
structure CodeGen.Building (g : CodeGen) (waiting : List ℕ) : Prop where
  /-- The function. -/
  builder : g.builder.Building waiting
  /-- The slots. -/
  allocated : g.Allocated

/-- **What code generation keeps**, apart from the function. -/
structure CodeGen.Kept (g g' : CodeGen) : Prop where
  /-- Names have the slots they had. -/
  named : g'.namedValues = g.namedValues
  /-- No block was removed. -/
  nextBlock_le : g.builder.nextBlock ≤ g'.builder.nextBlock

namespace CodeGen

variable {g : CodeGen} {waiting : List ℕ}

/-- One after another. -/
theorem Kept.trans {g₁ g₂ g₃ : CodeGen} (h : Kept g₁ g₂) (h' : Kept g₂ g₃) : Kept g₁ g₃ :=
  ⟨h'.named.trans h.named, h.nextBlock_le.trans h'.nextBlock_le⟩

/-- Appended instructions. -/
theorem kept_append (g : CodeGen) (is : List Instr) (k : ℕ) : Kept g (g.append is k) :=
  ⟨rfl, le_rfl⟩

/-- Slots that were made stay. -/
theorem Allocated.append (h : g.Allocated) (is : List Instr) (k : ℕ) : (g.append is k).Allocated :=
  fun x slot hx => Builder.mem_append_code.mpr (Or.inl (h x slot hx))

/-- **Straight-line code** keeps the function in order. -/
theorem Building.append (h : g.Building waiting) {is : List Instr} (k : ℕ)
    (his : ∀ i ∈ is, ¬ i.IsTerminator ∧ i.makes = []
      ∧ ∀ slot ∈ i.slots, ∃ x, g.namedValues x = some slot) : (g.append is k).Building waiting where
  builder := by
    refine h.builder.append k (fun i hi => (his i hi).1) (fun i hi slot hslot => ?_)
      fun i hi => (his i hi).2.1
    obtain ⟨x, hx⟩ := (his i hi).2.2 slot hslot
    exact h.allocated x slot hx
  allocated := h.allocated.append is k

/-- **Branching** keeps the function in order; one more block waits. -/
theorem Building.fork (h : g.Building waiting) (c : Value) :
    (g.fork c).Building ((g.builder.nextBlock + 1) :: waiting) :=
  ⟨h.builder.fork c,
    h.allocated.append [.condBr c g.builder.nextBlock (g.builder.nextBlock + 1)] 0⟩

/-- **Going on in a block that waits** keeps the function in order. -/
theorem Building.join {block : ℕ} (h : g.Building (block :: waiting)) {i : Instr}
    (hi : i.IsTerminator) (htargets : ∀ m ∈ i.targets, m < g.builder.nextBlock) :
    (g.join i block).Building waiting :=
  ⟨h.builder.join hi htargets, h.allocated.append [i] 0⟩

end CodeGen

namespace INode

variable {n : INode} {env : Env} {g : CodeGen} {waiting : List ℕ}

/-- **Conditions**, of any type, are straight-line code. -/
theorem IsCond.codegen_building (hn : n.IsCond) (hnamed : n.Named g.namedValues)
    (h : g.Building waiting) :
    ∃ c g', n.codegen g = .ok (some c, g') ∧ g'.Building waiting ∧ g.Kept g' := by
  obtain ⟨c, is, k, he, hc⟩ := hn.codegen hnamed
  exact ⟨c, _, hc, h.append k he.straight, g.kept_append is k⟩

/-- **Every node keeps the function in order**, with the same blocks
waiting. -/
theorem Scoped.codegen_building (hn : n.Scoped env) (hnamed : n.Named g.namedValues)
    (h : g.Building waiting) :
    ∃ v g', n.codegen g = .ok (v, g') ∧ g'.Building waiting ∧ g.Kept g' := by
  induction n generalizing env g waiting with
  | emptyScope => exact ⟨none, g, rfl, h, rfl, le_rfl⟩
  | addBranch scope branch ihs ihb =>
    obtain ⟨v₁, g₁, hc₁, h₁, hk₁⟩ := ihs hn.1 hnamed.1 h
    obtain ⟨v₂, g₂, hc₂, h₂, hk₂⟩ := ihb hn.2 (hk₁.named ▸ hnamed.2) h₁
    exact ⟨none, g₂, (Gen.bind_ok hc₁).trans (Gen.bind_ok hc₂), h₂, hk₁.trans hk₂⟩
  | ifNode op scope _ ihs =>
    obtain ⟨c, g₁, hc, h₁, hk₁⟩ := hn.1.codegen_building hnamed.1 h
    obtain ⟨v, g₂, hc₂, h₂, hk₂⟩ :=
      ihs (g := g₁.fork c) hn.2.2 (hk₁.named ▸ hnamed.2) (h₁.fork c)
    have hmerge : g₁.builder.nextBlock + 1 < g₂.builder.nextBlock := hk₂.nextBlock_le
    refine ⟨none, _, ?_, h₂.join (i := .br (g₁.builder.nextBlock + 1)) trivial ?_, ?_⟩
    · refine (Gen.bind_ok hc).trans ((Gen.bind_ok (CodeGen.startIf_eq c _)).trans ?_)
      exact (Gen.bind_ok hc₂).trans (Gen.bind_ok (CodeGen.endIf_eq _ g₂))
    · exact List.forall_mem_singleton.mpr hmerge
    · exact ⟨hk₂.named.trans hk₁.named,
        hk₁.nextBlock_le.trans ((Nat.le_add_right _ 2).trans hk₂.nextBlock_le)⟩
  | whileNode op scope _ ihs =>
    obtain ⟨c, g₁, hc, h₁, hk₁⟩ := hn.1.codegen_building hnamed.1 h
    obtain ⟨v, g₂, hc₂, h₂, hk₂⟩ :=
      ihs (g := g₁.fork c) hn.2.2 (hk₁.named ▸ hnamed.2) (h₁.fork c)
    have hnamed₂ : g₂.namedValues = g.namedValues := hk₂.named.trans hk₁.named
    obtain ⟨c', g₃, hc₃, h₃, hk₃⟩ := hn.1.codegen_building (hnamed₂ ▸ hnamed.1) h₂
    have hmerge : g₁.builder.nextBlock + 2 ≤ g₃.builder.nextBlock :=
      hk₂.nextBlock_le.trans hk₃.nextBlock_le
    -- the condition at the end of the body branches back to the body's first block
    refine ⟨none, _, ?_, h₃.join
      (i := .condBr c' g₁.builder.nextBlock (g₁.builder.nextBlock + 1)) trivial ?_, ?_⟩
    · refine (Gen.bind_ok hc).trans ((Gen.bind_ok (CodeGen.startWhile_eq c _)).trans ?_)
      refine (Gen.bind_ok hc₂).trans ((Gen.bind_ok hc₃).trans ?_)
      exact Gen.bind_ok (CodeGen.endWhile_eq c' _ _)
    · intro m hm
      simp only [Instr.targets, List.mem_cons, List.not_mem_nil, or_false] at hm
      omega
    · exact ⟨hk₃.named.trans hnamed₂,
        hk₁.nextBlock_le.trans ((Nat.le_add_right _ 2).trans hmerge)⟩
  | operand l op r =>
    rcases hn with ⟨rfl, rfl, hexpr, -⟩ | ⟨rfl, id, x, rfl, -, hexpr, -⟩
    · obtain ⟨c, g₁, hc, h₁, hk₁⟩ := hexpr.isCond.codegen_building hnamed.2 h
      refine ⟨none, g₁.append [.output c] 0, ?_, h₁.append 0 ?_, hk₁.trans (g₁.kept_append _ 0)⟩
      · rw [INode.codegen, hexpr.isNull]
        exact (Gen.bind_ok (Gen.pure_apply _ _)).trans ((Gen.bind_ok hc).trans rfl)
      · exact List.forall_mem_singleton.mpr ⟨not_false, rfl, fun _ hs => absurd hs List.not_mem_nil⟩
    · obtain ⟨slot, hslot⟩ := Option.isSome_iff_exists.mp hnamed.1
      obtain ⟨c₀, g₀, hload, h₀, hk₀⟩ :=
        IsCond.codegen_building (n := .decl id x) trivial hnamed.1 h
      obtain ⟨c, g₁, hc, h₁, hk₁⟩ :=
        hexpr.isCond.codegen_building (hk₀.named ▸ hnamed.2) h₀
      have hslot₁ : g₁.namedValues x = some slot := by
        rw [hk₁.named, hk₀.named, hslot]
      refine ⟨none, g₁.append [.store c slot] 0, ?_, h₁.append 0 ?_,
        (hk₀.trans hk₁).trans (g₁.kept_append _ 0)⟩
      · rw [INode.codegen, hexpr.isNull]
        refine (Gen.bind_ok hload).trans ((Gen.bind_ok hc).trans ?_)
        rw [if_pos rfl]
        exact CodeGen.addDeclWrite_eq hslot₁ c
      · refine List.forall_mem_singleton.mpr ⟨not_false, rfl, fun slot' hslot' => ⟨x, ?_⟩⟩
        rw [List.mem_singleton.mp hslot', hslot₁]
  | _ => exact hn.elim

end INode

/-! ## The finished function -/

/-- After its declarations the function has one block, which is open. -/
theorem CodeGen.Declaring.building {g : CodeGen} (h : g.Declaring) (ha : g.Allocated) :
    g.Building [] where
  builder :=
    { point_lt := by
        rw [h.point, h.nextBlock]
        exact Nat.one_pos
      waiting_lt := nofun
      nodup := List.pairwise_singleton _ _
      empty := fun l hl => by
        rcases hl with hl | hl
        · cases hl
        · exact h.others l (Nat.one_le_iff_ne_zero.mp (h.nextBlock ▸ hl))
      unended := fun i hi => by
        rw [h.point] at hi
        obtain ⟨slot, rfl⟩ := h.entry i hi
        exact not_false
      finished := fun l hl hne => by
        rw [h.point] at hne
        rw [h.nextBlock] at hl
        exact absurd (Nat.lt_one_iff.mp hl) hne
      targets := fun l i hi m hm => by
        by_cases hl : l = 0
        · subst hl
          obtain ⟨slot, rfl⟩ := h.entry i hi
          cases hm
        · rw [h.others l hl] at hi
          cases hi
      reachable := fun l hl => by
        rw [h.nextBlock] at hl
        rw [Nat.lt_one_iff.mp hl]
      made :=
        { slots := fun l i hi slot hslot => by
            by_cases hl : l = 0
            · subst hl
              obtain ⟨slot', rfl⟩ := h.entry i hi
              cases hslot
            · rw [h.others l hl] at hi
              cases hi
          makes := fun l i hi _ => by
            by_contra hl
            rw [h.others l hl] at hi
            cases hi } }
  allocated := ha

/-- **The generated function is in order**, for every accepted program:
generation does not fail, so every lookup of a name finds its slot; every
block ends in exactly one terminator and has none before, branches go to
blocks of the function, every block is reachable from the entry, every slot
is made in the entry block, and every slot loaded or stored is one of
them. -/
theorem parseProgram_wellFormedFunction {ss : Stms} {root : INode} {g : CodeGen}
    (hp : parseProgram ss = .ok (root, g)) :
    ∃ v g', root.codegen g = .ok (v, g') ∧ compile root g = .ok (g'.builder.emit .ret).code
      ∧ WellFormedFunction (g'.builder.emit .ret).code g'.builder.nextBlock := by
  obtain ⟨hscoped, hnamed, hg⟩ := parseProgram_spec hp
  obtain ⟨v, g', hcode, hbuilt, -⟩ :=
    hscoped.codegen_building hnamed (hg.building (parseProgram_allocated hp))
  refine ⟨v, g', hcode, ?_, hbuilt.builder.ended trivial nofun⟩
  unfold compile
  rw [Gen.bind_ok hcode]
  rfl

/-- `while (?) if (1) x = ?;` -/
def nestedTree : INode :=
  .addBranch .emptyScope
    (.whileNode (.operand .null .stdIn .null)
      (.addBranch .emptyScope
        (.ifNode (.value 1)
          (.addBranch .emptyScope
            (.operand (.decl 0 "x") .assign (.operand .null .stdIn .null))))))

/-- It becomes a function of five blocks. -/
theorem parseProgram_wellFormedFunction_nested :
    ∃ code, compile nestedTree (CodeGen.start.addDecl "x") = .ok code
      ∧ WellFormedFunction code 5 := by
  have hp : parseProgram (.first (.whileStm (.expr .input) (.stm (.ifStm (.expr (.value 1))
      (.stm (.assign "x" .input)))))) = .ok (nestedTree, CodeGen.start.addDecl "x") := rfl
  obtain ⟨v, g', hcode, hcompile, hfun⟩ := parseProgram_wellFormedFunction hp
  have hblocks : (nestedTree.codegen (CodeGen.start.addDecl "x")).map
      (fun r => r.2.builder.nextBlock) = .ok 5 := by decide +kernel
  rw [hcode] at hblocks
  exact ⟨_, hcompile, Except.ok.inj hblocks ▸ hfun⟩

end ParaCL
