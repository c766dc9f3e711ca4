import CppGraduate.Lib.Ir
import Mathlib.Logic.Relation

/-!
# Well-formed functions

A function is in order when each of its blocks ends in a terminator and has
no other, branches go to its own blocks, every block can be reached from the
entry, slots are made in the entry block only, and what is loaded and stored
are slots that were made.

While a function is built this holds of all its blocks but some: the one at
the insertion point is open, and those that enclosing constructs have yet to
go on in wait, still empty. `Building` says so, and each way of using the
builder keeps it: instructions that end no block change nothing, branching
adds a block that waits, and going on in a block that waits takes it off the
list.
-/

namespace Ir

/-! ## What instructions do to control -/

/-- Whether an instruction ends a block. -/
def Instr.IsTerminator : Instr → Prop
  | .br _ | .condBr _ _ _ | .ret => True
  | _ => False

/-- The blocks an instruction can go on in. -/
def Instr.targets : Instr → List ℕ
  | .br target => [target]
  | .condBr _ ifTrue ifFalse => [ifTrue, ifFalse]
  | _ => []

/-- The slots an instruction reads or writes. -/
def Instr.slots : Instr → List ℕ
  | .load _ slot | .store _ slot => [slot]
  | _ => []

/-- The slots an instruction makes. -/
def Instr.makes : Instr → List ℕ
  | .alloca slot => [slot]
  | _ => []

/-- What ends no block goes nowhere. -/
theorem Instr.targets_eq_nil {i : Instr} (h : ¬ i.IsTerminator) : i.targets = [] := by
  cases i with
  | br | condBr | ret => exact absurd trivial h
  | _ => rfl

/-- What ends a block touches no slots. -/
theorem Instr.IsTerminator.slots_eq_nil {i : Instr} (h : i.IsTerminator) :
    i.slots = [] ∧ i.makes = [] := by
  cases i with
  | br | condBr | ret => exact ⟨rfl, rfl⟩
  | _ => exact h.elim

/-- **A finished block**: it ends in a terminator and has no other. -/
def Finished (is : List Instr) : Prop :=
  ∃ body i, is = body ++ [i] ∧ i.IsTerminator ∧ ∀ j ∈ body, ¬ j.IsTerminator

/-- A branch from one block to another. -/
def Edge (F : Code) (l m : ℕ) : Prop := ∃ i ∈ F l, m ∈ i.targets

/-- Every slot an instruction of the code touches was made in the entry
block, and none was made elsewhere. -/
structure SlotsMade (F : Code) : Prop where
  slots : ∀ l, ∀ i ∈ F l, ∀ slot ∈ i.slots, .alloca slot ∈ F 0
  makes : ∀ l, ∀ i ∈ F l, i.makes ≠ [] → l = 0

/-- **A function of `n` blocks that is in order.** -/
structure WellFormedFunction (F : Code) (n : ℕ) : Prop where
  /-- Every block ends in exactly one terminator. -/
  finished : ∀ l < n, Finished (F l)
  /-- Branches go to blocks of the function. -/
  targets : ∀ l < n, ∀ i ∈ F l, ∀ m ∈ i.targets, m < n
  /-- Every block is reachable from the entry. -/
  reachable : ∀ l < n, Relation.ReflTransGen (Edge F) 0 l
  /-- Slots are made in the entry block, and no others are used. -/
  made : SlotsMade F

namespace Builder

/-- **A function under construction**: the blocks in `waiting` are still to
be gone on in. -/
structure Building (b : Builder) (waiting : List ℕ) : Prop where
  /-- The insertion point is a block of the function. -/
  point_lt : b.point < b.nextBlock
  /-- So are the blocks that wait. -/
  waiting_lt : ∀ l ∈ waiting, l < b.nextBlock
  /-- They are different, also from the insertion point. -/
  nodup : (b.point :: waiting).Nodup
  /-- What waits is empty, and so is what was not created. -/
  empty : ∀ l, l ∈ waiting ∨ b.nextBlock ≤ l → b.code l = []
  /-- The block at the insertion point has no end yet. -/
  unended : ∀ i ∈ b.code b.point, ¬ i.IsTerminator
  /-- The other blocks are finished. -/
  finished : ∀ l < b.nextBlock, l ≠ b.point → l ∉ waiting → Finished (b.code l)
  /-- Branches go to blocks of the function. -/
  targets : ∀ l, ∀ i ∈ b.code l, ∀ m ∈ i.targets, m < b.nextBlock
  /-- Every block is reachable from the entry. -/
  reachable : ∀ l < b.nextBlock, Relation.ReflTransGen (Edge b.code) 0 l
  /-- Slots are made in the entry block, and no others are used. -/
  made : SlotsMade b.code

variable {b : Builder} {waiting : List ℕ}

/-! ## Appending -/

/-- The instructions there are after some were appended. -/
theorem mem_append_code {is : List Instr} {k l : ℕ} {j : Instr} :
    j ∈ (b.append is k).code l ↔ j ∈ b.code l ∨ l = b.point ∧ j ∈ is := by
  show j ∈ Function.update b.code b.point _ l ↔ _
  rw [Function.update_apply]
  split_ifs with h
  · subst h
    rw [List.mem_append, eq_self, true_and]
  · exact (or_iff_left fun hj => h hj.1).symm

/-- The other blocks are as they were. -/
theorem append_code_of_ne {is : List Instr} {k l : ℕ} (h : l ≠ b.point) :
    (b.append is k).code l = b.code l := Function.update_of_ne h _ _

/-- The block at the insertion point. -/
theorem append_code_point (is : List Instr) (k : ℕ) :
    (b.append is k).code b.point = b.code b.point ++ is := Function.update_self _ _ _

/-- No branch is lost. -/
theorem edge_append {is : List Instr} {k l m : ℕ} (h : Edge b.code l m) :
    Edge (b.append is k).code l m := by
  obtain ⟨i, hi, hm⟩ := h
  exact ⟨i, mem_append_code.mpr (Or.inl hi), hm⟩

/-- Nor is a way to a block. -/
theorem reachable_append (is : List Instr) (k : ℕ) {l : ℕ}
    (h : Relation.ReflTransGen (Edge b.code) 0 l) :
    Relation.ReflTransGen (Edge (b.append is k).code) 0 l :=
  Relation.ReflTransGen.mono (fun _ _ => edge_append) _ _ h

/-- Slots that were made are used, and none are made outside the entry. -/
theorem slotsMade_append (is : List Instr) (k : ℕ) (h : SlotsMade b.code)
    (hslots : ∀ i ∈ is, ∀ slot ∈ i.slots, .alloca slot ∈ b.code 0)
    (hmakes : ∀ i ∈ is, i.makes = []) : SlotsMade (b.append is k).code where
  slots l i hi slot hslot := by
    refine mem_append_code.mpr (Or.inl ?_)
    rcases mem_append_code.mp hi with hi | ⟨-, hi⟩
    · exact h.slots l i hi slot hslot
    · exact hslots i hi slot hslot
  makes l i hi hne := by
    rcases mem_append_code.mp hi with hi | ⟨-, hi⟩
    · exact h.makes l i hi hne
    · exact absurd (hmakes i hi) hne

/-- A terminator makes and uses no slots. -/
theorem slotsMade_emit {i : Instr} (h : SlotsMade b.code) (hi : i.IsTerminator) :
    SlotsMade (b.emit i).code := by
  refine slotsMade_append [i] 0 h (fun j hj slot hslot => ?_) fun j hj => ?_
  · rw [List.mem_singleton.mp hj, hi.slots_eq_nil.1] at hslot
    cases hslot
  · rw [List.mem_singleton.mp hj]
    exact hi.slots_eq_nil.2

/-- What the insertion point is not among. -/
theorem Building.point_not_mem (h : b.Building waiting) : b.point ∉ waiting :=
  (List.nodup_cons.mp h.nodup).1

/-- **Instructions that end no block** and use slots there are. -/
theorem Building.append (h : b.Building waiting) {is : List Instr} (k : ℕ)
    (hend : ∀ i ∈ is, ¬ i.IsTerminator)
    (hslots : ∀ i ∈ is, ∀ slot ∈ i.slots, .alloca slot ∈ b.code 0)
    (hmakes : ∀ i ∈ is, i.makes = []) : (b.append is k).Building waiting where
  point_lt := h.point_lt
  waiting_lt := h.waiting_lt
  nodup := h.nodup
  empty l hl := by
    have hne : l ≠ b.point := by
      rintro rfl
      exact hl.elim h.point_not_mem (Nat.not_le_of_lt h.point_lt)
    rw [append_code_of_ne hne]
    exact h.empty l hl
  unended i hi := by
    rcases mem_append_code.mp hi with hi | ⟨-, hi⟩
    · exact h.unended i hi
    · exact hend i hi
  finished l hl hne hw := by
    rw [append_code_of_ne (show l ≠ b.point from hne)]
    exact h.finished l hl hne hw
  targets l i hi m hm := by
    rcases mem_append_code.mp hi with hi | ⟨-, hi⟩
    · exact h.targets l i hi m hm
    · rw [Instr.targets_eq_nil (hend i hi)] at hm
      cases hm
  reachable l hl := reachable_append is k (h.reachable l hl)
  made := slotsMade_append is k h.made hslots hmakes

/-- The block at the insertion point after a terminator. -/
theorem Building.finished_emit (h : b.Building waiting) {i : Instr} (hi : i.IsTerminator) :
    Finished ((b.emit i).code b.point) :=
  ⟨b.code b.point, i, append_code_point [i] 0, hi, h.unended⟩

/-- **Branching**: the second of the new blocks waits. -/
theorem Building.fork (h : b.Building waiting) (c : Value) :
    (b.fork c).Building ((b.nextBlock + 1) :: waiting) := by
  have hnext : (b.fork c).nextBlock = b.nextBlock + 2 := rfl
  have hcode : (b.fork c).code
      = (b.append [.condBr c b.nextBlock (b.nextBlock + 1)] 0).code := rfl
  have hold : ∀ l, l ∈ waiting → l < b.nextBlock := h.waiting_lt
  have hlast : Instr.condBr c b.nextBlock (b.nextBlock + 1) ∈ (b.fork c).code b.point := by
    rw [hcode]
    exact mem_append_code.mpr (Or.inr ⟨rfl, List.mem_singleton.mpr rfl⟩)
  have hedge : ∀ m, m = b.nextBlock ∨ m = b.nextBlock + 1 → Edge (b.fork c).code b.point m := by
    intro m hm
    refine ⟨_, hlast, ?_⟩
    rcases hm with rfl | rfl <;> simp [Instr.targets]
  constructor
  case point_lt => exact Nat.lt_add_of_pos_right Nat.two_pos
  case waiting_lt =>
    intro l hl
    rcases List.mem_cons.mp hl with rfl | hl
    · exact Nat.lt_succ_self _
    · exact (hold l hl).trans_le (Nat.le_add_right _ 2)
  case nodup =>
    refine List.nodup_cons.mpr ⟨fun hmem => ?_, List.nodup_cons.mpr ⟨fun hmem => ?_,
      (List.nodup_cons.mp h.nodup).2⟩⟩
    · rcases List.mem_cons.mp hmem with heq | hmem
      · exact absurd heq (Nat.lt_succ_self _).ne
      · exact Nat.lt_irrefl _ (hold _ hmem)
    · exact absurd (hold _ hmem) (Nat.not_lt_of_le (Nat.le_succ _))
  case empty =>
    intro l hl
    rw [hnext, List.mem_cons] at hl
    have hne : l ≠ b.point := by
      rintro rfl
      have hlt := h.point_lt
      rcases hl with (heq | hl) | hle
      · omega
      · exact h.point_not_mem hl
      · omega
    rw [hcode, append_code_of_ne hne]
    refine h.empty l ?_
    rcases hl with (rfl | hl) | hle
    · exact Or.inr (Nat.le_succ _)
    · exact Or.inl hl
    · exact Or.inr ((Nat.le_add_right _ 2).trans hle)
  case unended =>
    intro i hi
    have hnil : (b.fork c).code b.nextBlock = [] := by
      rw [hcode, append_code_of_ne h.point_lt.ne']
      exact h.empty _ (Or.inr le_rfl)
    rw [show (b.fork c).point = b.nextBlock from rfl, hnil] at hi
    cases hi
  case finished =>
    intro l hl hne hw
    rw [hnext] at hl
    rw [show (b.fork c).point = b.nextBlock from rfl] at hne
    rw [List.mem_cons, not_or] at hw
    -- the block that branched is the one finished now
    by_cases hp : l = b.point
    · subst hp
      exact h.finished_emit (i := .condBr c b.nextBlock (b.nextBlock + 1)) trivial
    · rw [hcode, append_code_of_ne hp]
      refine h.finished l ?_ hp hw.2
      have hne' := hw.1
      omega
  case targets =>
    intro l i hi m hm
    rw [hcode] at hi
    rcases mem_append_code.mp hi with hi | ⟨-, hi⟩
    · exact (h.targets l i hi m hm).trans_le (Nat.le_add_right _ 2)
    · rw [List.mem_singleton.mp hi] at hm
      rw [hnext]
      simp only [Instr.targets, List.mem_cons, List.not_mem_nil, or_false] at hm
      omega
  case reachable =>
    intro l hl
    rw [hnext] at hl
    -- the new blocks are reached along the branch
    by_cases hnew : l < b.nextBlock
    · exact reachable_append _ 0 (h.reachable l hnew)
    · exact (reachable_append _ 0 (h.reachable _ h.point_lt)).tail (hedge l (by omega))
  case made =>
    exact slotsMade_emit (i := .condBr c b.nextBlock (b.nextBlock + 1)) h.made trivial

/-- **Ending the block** and going on in one that waits. -/
theorem Building.join {block : ℕ} (h : b.Building (block :: waiting)) {i : Instr}
    (hi : i.IsTerminator) (htargets : ∀ m ∈ i.targets, m < b.nextBlock) :
    (b.join i block).Building waiting := by
  have hcode : (b.join i block).code = (b.append [i] 0).code := rfl
  have hnodup := List.nodup_cons.mp h.nodup
  have hne : block ≠ b.point := fun heq => hnodup.1 (heq ▸ List.mem_cons_self)
  constructor
  case point_lt => exact h.waiting_lt block List.mem_cons_self
  case waiting_lt => exact fun l hl => h.waiting_lt l (List.mem_cons_of_mem block hl)
  case nodup => exact hnodup.2
  case empty =>
    intro l hl
    have hl' : l ∈ block :: waiting ∨ b.nextBlock ≤ l := hl.imp_left (List.mem_cons_of_mem block)
    have hp : l ≠ b.point := by
      rintro rfl
      exact hl'.elim h.point_not_mem (Nat.not_le_of_lt h.point_lt)
    rw [hcode, append_code_of_ne hp]
    exact h.empty l hl'
  case unended =>
    intro j hj
    rw [show (b.join i block).point = block from rfl, hcode, append_code_of_ne hne,
      h.empty block (Or.inl List.mem_cons_self)] at hj
    cases hj
  case finished =>
    intro l hl hl' hw
    by_cases hp : l = b.point
    · subst hp
      exact h.finished_emit hi
    · rw [hcode, append_code_of_ne hp]
      refine h.finished l hl hp fun hmem => ?_
      exact (List.mem_cons.mp hmem).elim hl' hw
  case targets =>
    intro l j hj m hm
    rw [hcode] at hj
    rcases mem_append_code.mp hj with hj | ⟨-, hj⟩
    · exact h.targets l j hj m hm
    · rw [List.mem_singleton.mp hj] at hm
      exact htargets m hm
  case reachable => exact fun l hl => reachable_append [i] 0 (h.reachable l hl)
  case made => exact slotsMade_emit h.made hi

/-- **Ending the last block**: the function is in order. -/
theorem Building.ended (h : b.Building []) {i : Instr} (hi : i.IsTerminator)
    (htargets : ∀ m ∈ i.targets, m < b.nextBlock) :
    WellFormedFunction (b.emit i).code b.nextBlock where
  finished l hl := by
    by_cases hp : l = b.point
    · subst hp
      exact h.finished_emit hi
    · rw [show b.emit i = b.append [i] 0 from rfl, append_code_of_ne hp]
      exact h.finished l hl hp List.not_mem_nil
  targets l _ j hj m hm := by
    rcases mem_append_code.mp (show j ∈ (b.append [i] 0).code l from hj) with hj | ⟨-, hj⟩
    · exact h.targets l j hj m hm
    · rw [List.mem_singleton.mp hj] at hm
      exact htargets m hm
  reachable l hl := reachable_append [i] 0 (h.reachable l hl)
  made := slotsMade_emit h.made hi

end Builder

end Ir
