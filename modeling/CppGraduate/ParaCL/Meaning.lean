import CppGraduate.ParaCL.Resolution

/-!
# What an evaluation reads and yields

An expression, or a condition, is read by `calc` as its meaning says where
three things hold: no division has a `?` in its divisor, which `calc`
evaluates twice; and every right operand of `&&` and `||` that `calc` skips
has no `?` and has a meaning. Without `&&` and `||` only the first remains.

How many integers an evaluation reads is a property of the tree alone where
nothing is skipped: the `?` leaves, those of a divisor twice. So the
expressions that are read once are exactly those without a `?` in a divisor.
-/

namespace ParaCL

/-! ## States after reading -/

/-- The state after reading `n` integers. -/
def St.skip (st : St) (n : ℕ) : St := { st with io := st.io.skip n }

@[simp]
theorem St.skip_vals (st : St) (n : ℕ) : (st.skip n).vals = st.vals :=
  rfl

@[simp]
theorem St.skip_io (st : St) (n : ℕ) : (st.skip n).io = st.io.skip n :=
  rfl

@[simp]
theorem St.skip_zero (st : St) : st.skip 0 = st :=
  rfl

/-- Reading on. -/
theorem St.skip_skip (st : St) (m n : ℕ) : (st.skip m).skip n = st.skip (m + n) := by
  unfold St.skip
  rw [Stdio.skip_add]

/-- The integers there are to read after the first ones. -/
theorem St.next_skip (st : St) (n : ℕ) :
    (st.skip n).io.next = fun k => st.io.next (n + k) :=
  Stdio.next_skip st.io n

/-- The next `n` reads do not fail. -/
def Stdio.CanRead (io : Stdio) (n : ℕ) : Prop := n = 0 ∨ (io.skip n).failed = false

/-- Reads one after another. -/
theorem Stdio.canRead_add {io : Stdio} {m n : ℕ} :
    io.CanRead (m + n) ↔ io.CanRead m ∧ (io.skip m).CanRead n := by
  unfold CanRead
  rw [skip_add, Nat.add_eq_zero_iff]
  constructor
  · rintro (⟨hm, hn⟩ | h)
    · exact ⟨Or.inl hm, Or.inl hn⟩
    · exact ⟨Or.inr (skip_of_not_failed h).1, Or.inr h⟩
  · rintro ⟨hm | hm, hn | hn⟩
    · exact Or.inl ⟨hm, hn⟩
    · exact Or.inr hn
    · rw [hn]
      exact Or.inr hm
    · exact Or.inr hn

/-- Reads that do not fail can be told from none. -/
theorem Stdio.eq_zero_of_skip {io : Stdio} {n : ℕ} (h : io.CanRead n) (heq : io.skip n = io) :
    n = 0 := by
  rcases h with h | h
  · exact h
  · have hpos := (skip_of_not_failed h).2
    rw [heq] at hpos
    omega

/-! ## Operations on evaluated operands -/

/-- Operations that are defined everywhere. -/
theorem Operation.exists_apply {op : Operation}
    (h : op.IsRel ∨ op = .plus ∨ op = .minus ∨ op = .mul) (a b : Int32) :
    ∃ v, op.apply a b = some v := by
  rcases h with (rfl | rfl | rfl | rfl | rfl | rfl) | rfl | rfl | rfl <;> exact ⟨_, rfl⟩

/-- An operation on the values of its operands, as a step of a run. -/
def Operation.perform (op : Operation) (l r : Int32) : Run Int32 :=
  match op.apply l r with
  | some v => pure v
  | none => Run.stop (.undefined (.division l r))

/-- An operation that yields a value leaves the state as it is. -/
theorem Operation.perform_eq_ok {op : Operation} {l r v : Int32} {st st' : St} :
    op.perform l r st = (.ok v, st') ↔ op.apply l r = some v ∧ st' = st := by
  unfold Operation.perform
  cases op.apply l r with
  | some w =>
    constructor
    · intro h
      cases h
      exact ⟨rfl, rfl⟩
    · rintro ⟨h, rfl⟩
      cases h
      rfl
  | none =>
    constructor
    · intro h
      cases congrArg Prod.fst h
    · rintro ⟨h, -⟩
      cases h

/-- A division is performed where it is defined. -/
theorem quotient_eq (l r : Int32) : quotient l r = Operation.div.perform l r := by
  unfold quotient Operation.perform
  cases h : Ir.divisible l r <;> simp [Operation.apply, h]

/-- So is a remainder. -/
theorem remainder_eq (l r : Int32) : remainder l r = Operation.mod.perform l r := by
  unfold remainder Operation.perform
  cases h : Ir.divisible l r <;> simp [Operation.apply, h]

namespace INode

variable {fuel : ℕ} {l r n : INode} {op : Operation} {st st' : St} {v : Int32}

/-- **Operations evaluate their operands from left to right**, except for
divisions and the logical ones. -/
theorem calc_binary (hop : op.IsRel ∨ op.IsArith ∧ op ≠ .div) (hl : l.isNull = false) :
    (operand l op r).calc fuel = (do
      let a ← l.calc fuel
      let b ← r.calc fuel
      op.perform a b) := by
  unfold Operation.IsRel Operation.IsArith at hop
  cases op
  case plus | minus =>
    simp only [INode.calc, hl, Bool.false_eq_true, if_false]
    rfl
  case mod =>
    simp only [INode.calc, remainder_eq]
  case div | assign | stdOut | stdIn | not | and | or => simp at hop
  all_goals rfl

/-- A division evaluates its divisor, its dividend, and its divisor
again. -/
theorem calc_div_eq_ok (h : (operand l .div r).calc fuel st = (.ok v, st')) :
    ∃ c a b st₁ st₂, r.calc fuel st = (.ok c, st₁) ∧ c ≠ 0 ∧ l.calc fuel st₁ = (.ok a, st₂)
      ∧ r.calc fuel st₂ = (.ok b, st') ∧ Operation.div.apply a b = some v := by
  obtain ⟨c, st₁, hc, h⟩ := Run.bind_eq_ok.mp h
  split_ifs at h with hzero
  · cases congrArg Prod.fst h
  · obtain ⟨a, st₂, ha, h⟩ := Run.bind_eq_ok.mp h
    obtain ⟨b, st₃, hb, h⟩ := Run.bind_eq_ok.mp h
    rw [quotient_eq] at h
    obtain ⟨happ, rfl⟩ := Operation.perform_eq_ok.mp h
    exact ⟨c, a, b, st₁, st₂, hc, hzero, ha, hb, happ⟩

/-- Whether a logical operation skips its right operand after a value of the
left one. -/
def Skips (op : Operation) (a : Int32) : Prop := op = .and ∧ a = 0 ∨ op = .or ∧ a ≠ 0

/-- **A logical operation** evaluates its left operand, and the right one
where it does not skip it. -/
theorem calc_logic_eq_ok (hop : op = .and ∨ op = .or)
    (h : (operand l op r).calc fuel st = (.ok v, st')) :
    ∃ a st₁, l.calc fuel st = (.ok a, st₁)
      ∧ (Skips op a ∧ v = ofBool (a ≠ 0) ∧ st' = st₁
        ∨ ¬ Skips op a ∧ ∃ b, r.calc fuel st₁ = (.ok b, st') ∧ v = ofBool (b ≠ 0)) := by
  unfold Skips
  rcases hop with rfl | rfl
  · obtain ⟨a, st₁, ha, h⟩ := Run.bind_eq_ok.mp h
    refine ⟨a, st₁, ha, ?_⟩
    by_cases hzero : a = 0
    · rw [if_pos hzero] at h
      cases h
      simp [hzero, ofBool]
    · rw [if_neg hzero] at h
      obtain ⟨b, st₂, hb, h⟩ := Run.bind_eq_ok.mp h
      cases h
      simp [hzero, hb]
  · obtain ⟨a, st₁, ha, h⟩ := Run.bind_eq_ok.mp h
    refine ⟨a, st₁, ha, ?_⟩
    by_cases hzero : a = 0
    · rw [if_pos hzero] at h
      obtain ⟨b, st₂, hb, h⟩ := Run.bind_eq_ok.mp h
      cases h
      simp [hzero, hb]
    · rw [if_neg hzero] at h
      cases h
      simp [hzero, ofBool]

/-- **The ways to put a condition together**: an operation that evaluates
both operands in order, a division, a negation, or a logical operation. -/
theorem IsCond.cases_operand (h : (operand l op r).IsCond) :
    (op = .stdIn ∧ l = .null ∧ r = .null)
      ∨ ((op.IsRel ∨ op.IsArith ∧ op ≠ .div) ∧ l.IsExpr ∧ r.IsExpr)
      ∨ (op = .div ∧ l.IsExpr ∧ r.IsExpr)
      ∨ (op = .not ∧ l = .null ∧ r.IsCond)
      ∨ ((op = .and ∨ op = .or) ∧ l.IsCond ∧ r.IsCond) := by
  unfold IsCond at h
  split_ifs at h with hnot hlog hrel
  · exact Or.inr (Or.inr (Or.inr (Or.inl ⟨hnot, h⟩)))
  · exact Or.inr (Or.inr (Or.inr (Or.inr ⟨hlog, h⟩)))
  · exact Or.inr (Or.inl ⟨Or.inl hrel, h⟩)
  · unfold IsExpr at h
    split_ifs at h with hin
    · exact Or.inl ⟨hin, h⟩
    · by_cases hdiv : op = .div
      · exact Or.inr (Or.inr (Or.inl ⟨hdiv, h.2⟩))
      · exact Or.inr (Or.inl ⟨Or.inr ⟨h.1, hdiv⟩, h.2⟩)

/-! ## How much is read -/

/-- How many integers an evaluation that skips nothing reads: one for each
`?`, and those of a divisor twice. -/
def reads : INode → ℕ
  | .operand l op r =>
    if op = .stdIn then 1
    else if op = .div then r.reads + (l.reads + r.reads)
    else l.reads + r.reads
  | _ => 0

/-- Every `?` is read. -/
theorem inputs_le_reads (n : INode) : n.inputs ≤ n.reads := by
  induction n with
  | operand l op r ihl ihr =>
    unfold inputs reads
    split_ifs
    · exact le_rfl
    · exact (Nat.add_le_add ihl ihr).trans (Nat.le_add_left _ _)
    · exact Nat.add_le_add ihl ihr
  | _ => exact le_rfl

/-- **Every `?` is read once** just where no divisor has one. -/
theorem reads_eq_inputs_iff {n : INode} (h : n.IsCond) :
    n.reads = n.inputs ↔ n.InputFreeDivisors := by
  induction n with
  | operand l op r ihl ihr =>
    have hl := l.inputs_le_reads
    have hr := r.inputs_le_reads
    -- an operation other than a division evaluates each operand once
    have hboth : ∀ (hlc : l.IsCond) (hrc : r.IsCond) (hdiv : op ≠ .div),
        l.reads + r.reads = l.inputs + r.inputs
          ↔ l.InputFreeDivisors ∧ r.InputFreeDivisors ∧ (op = .div → r.inputs = 0) := by
      intro hlc hrc hdiv
      rw [← ihl hlc, ← ihr hrc]
      constructor
      · intro heq
        exact ⟨by omega, by omega, fun h => absurd h hdiv⟩
      · rintro ⟨hle, hre, -⟩
        rw [hle, hre]
    unfold reads inputs InputFreeDivisors
    rcases h.cases_operand with ⟨rfl, rfl, rfl⟩ | ⟨hop, hle, hre⟩ | ⟨rfl, hle, hre⟩
      | ⟨rfl, rfl, hrc⟩ | ⟨hop, hlc, hrc⟩
    · simp [InputFreeDivisors]
    · have hin : op ≠ .stdIn := by
        rintro rfl
        exact absurd hop (by decide)
      have hdiv : op ≠ .div := by
        rintro rfl
        exact absurd hop (by decide)
      rw [if_neg hin, if_neg hin, if_neg hdiv]
      exact hboth hle.isCond hre.isCond hdiv
    · rw [if_neg (by decide), if_pos rfl, if_neg (by decide), ← ihl hle.isCond, ← ihr hre.isCond]
      constructor
      · intro heq
        exact ⟨by omega, by omega, fun _ => by omega⟩
      · rintro ⟨hle, hre, hzero⟩
        rw [hle, hre, hzero rfl, Nat.zero_add]
    · rw [if_neg (by decide), if_neg (by decide), if_neg (by decide), ← ihr hrc]
      simp [reads, inputs, InputFreeDivisors]
    · have hin : op ≠ .stdIn := by rintro rfl; simp at hop
      have hdiv : op ≠ .div := by rintro rfl; simp at hop
      rw [if_neg hin, if_neg hin, if_neg hdiv]
      exact hboth hlc hrc hdiv
  | _ => simp [reads, inputs, InputFreeDivisors]

/-- **An evaluation that skips nothing** reads just so many integers and
does nothing else. -/
theorem skip_reads_of_calc (h : n.IsCond) (hs : n.NoAndOr)
    (hv : n.calc fuel st = (.ok v, st')) : st' = st.skip n.reads := by
  induction n generalizing st st' v with
  | value val =>
    cases hv
    rfl
  | decl id x =>
    simp only [INode.calc, Run.getValue] at hv
    split at hv <;> cases hv
    rfl
  | operand l op r ihl ihr =>
    obtain ⟨hand, hor, hsl, hsr⟩ := hs
    unfold reads
    rcases h.cases_operand with ⟨rfl, rfl, rfl⟩ | ⟨hop, hle, hre⟩ | ⟨rfl, hle, hre⟩
      | ⟨rfl, rfl, hrc⟩ | ⟨hop, -, -⟩
    · cases hv
      rfl
    · have hin : op ≠ .stdIn := by
        rintro rfl
        exact absurd hop (by decide)
      have hdiv : op ≠ .div := by
        rintro rfl
        exact absurd hop (by decide)
      rw [calc_binary hop hle.isNull] at hv
      obtain ⟨a, st₁, ha, hv⟩ := Run.bind_eq_ok.mp hv
      obtain ⟨b, st₂, hb, hv⟩ := Run.bind_eq_ok.mp hv
      obtain ⟨-, rfl⟩ := Operation.perform_eq_ok.mp hv
      rw [if_neg hin, if_neg hdiv, ihr hre.isCond hsr hb, ihl hle.isCond hsl ha, St.skip_skip]
    · obtain ⟨c, a, b, st₁, st₂, hc, -, ha, hb, -⟩ := calc_div_eq_ok hv
      rw [if_neg (by decide), if_pos rfl, ihr hre.isCond hsr hb, ihl hle.isCond hsl ha,
        ihr hre.isCond hsr hc, St.skip_skip, St.skip_skip]
    · obtain ⟨a, st₁, ha, hv⟩ := Run.bind_eq_ok.mp hv
      cases hv
      rw [if_neg (by decide), if_neg (by decide), ihr hrc hsr ha]
      exact congrArg _ (Nat.zero_add _).symm
    · rcases hop with rfl | rfl
      · exact absurd rfl hand
      · exact absurd rfl hor
  | _ => exact h.elim

/-! ## What is yielded -/

/-- Every right operand of `&&` and `||` that is skipped has no `?` and has
a meaning. -/
def SkipsPure (vals : ℕ → Option Int32) (ints : ℕ → Int32) : INode → Prop
  | .operand l op r =>
    l.SkipsPure vals ints ∧ (r.SkipsPure vals fun k => ints (l.inputs + k))
      ∧ ∀ a, l.meaning vals ints = some a → Skips op a →
        r.inputs = 0 ∧ (r.meaning vals fun k => ints (l.inputs + k)).isSome
  | _ => True

/-- Without `&&` and `||` nothing is skipped. -/
theorem NoAndOr.skipsPure {n : INode} (h : n.NoAndOr) (vals : ℕ → Option Int32)
    (ints : ℕ → Int32) : n.SkipsPure vals ints := by
  induction n generalizing ints with
  | operand l op r ihl ihr =>
    obtain ⟨hand, hor, hl, hr⟩ := h
    refine ⟨ihl hl ints, ihr hr _, fun a _ hop => ?_⟩
    rcases hop with ⟨hop, -⟩ | ⟨hop, -⟩
    · exact absurd hop hand
    · exact absurd hop hor
  | _ => trivial

/-- The meaning of an operation on two operands. -/
theorem meaning_binary {vals : ℕ → Option Int32} {ints : ℕ → Int32} (hin : op ≠ .stdIn)
    (hnot : op ≠ .not) {a b : Int32} (ha : l.meaning vals ints = some a)
    (hb : (r.meaning vals fun k => ints (l.inputs + k)) = some b) :
    (operand l op r).meaning vals ints = op.apply a b := by
  rw [meaning, if_neg hin, if_neg hnot, ha, Option.bind_some, hb, Option.bind_some]

/-- Where an operation on two operands has a meaning, its operands have. -/
theorem meaning_operand_eq_some {vals : ℕ → Option Int32} {ints : ℕ → Int32} (hin : op ≠ .stdIn)
    (hnot : op ≠ .not) :
    (operand l op r).meaning vals ints = some v
      ↔ ∃ a b, l.meaning vals ints = some a
        ∧ (r.meaning vals fun k => ints (l.inputs + k)) = some b ∧ op.apply a b = some v := by
  rw [meaning, if_neg hin, if_neg hnot]
  simp only [Option.bind_eq_some_iff]
  exact ⟨fun ⟨a, ha, b, hb, h⟩ => ⟨a, b, ha, hb, h⟩, fun ⟨a, b, ha, hb, h⟩ => ⟨a, ha, b, hb, h⟩⟩

/-- A null operand reads nothing. -/
theorem shift_null (ints : ℕ → Int32) : (fun k => ints (null.inputs + k)) = ints := by
  funext k
  exact congrArg ints (Nat.zero_add k)

/-- **What `calc` yields is the meaning**, and one integer is read for each
`?`. -/
theorem meaning_of_calc (h : n.IsCond) (hd : n.InputFreeDivisors)
    (hs : n.SkipsPure st.vals st.io.next) (hv : n.calc fuel st = (.ok v, st')) :
    n.meaning st.vals st.io.next = some v ∧ st' = st.skip n.inputs := by
  induction n generalizing st st' v with
  | value val =>
    cases hv
    exact ⟨rfl, rfl⟩
  | decl id x =>
    simp only [INode.calc, Run.getValue] at hv
    split at hv <;> cases hv
    rename_i hid
    exact ⟨hid, rfl⟩
  | operand l op r ihl ihr =>
    obtain ⟨hdl, hdr, hdiv⟩ := hd
    obtain ⟨hsl, hsr, hskip⟩ := hs
    have hright : ∀ {b : Int32} {st'' : St}, r.IsCond → r.calc fuel (st.skip l.inputs) = (.ok b, st'') →
        (r.meaning st.vals fun k => st.io.next (l.inputs + k)) = some b
          ∧ st'' = st.skip (l.inputs + r.inputs) := by
      intro b st'' hrc hb
      rw [← St.next_skip] at hsr ⊢
      rw [← St.skip_skip]
      exact ihr hrc hdr hsr hb
    unfold inputs
    rcases h.cases_operand with ⟨rfl, rfl, rfl⟩ | ⟨hop, hle, hre⟩ | ⟨rfl, hle, hre⟩
      | ⟨rfl, rfl, hrc⟩ | ⟨hop, hlc, hrc⟩
    · cases hv
      exact ⟨rfl, rfl⟩
    · have hin : op ≠ .stdIn := by
        rintro rfl
        exact absurd hop (by decide)
      have hnot : op ≠ .not := by
        rintro rfl
        exact absurd hop (by decide)
      rw [calc_binary hop hle.isNull] at hv
      obtain ⟨a, st₁, ha, hv⟩ := Run.bind_eq_ok.mp hv
      obtain ⟨b, st₂, hb, hv⟩ := Run.bind_eq_ok.mp hv
      obtain ⟨happ, rfl⟩ := Operation.perform_eq_ok.mp hv
      obtain ⟨hma, rfl⟩ := ihl hle.isCond hdl hsl ha
      obtain ⟨hmb, rfl⟩ := hright hre.isCond hb
      rw [meaning_binary hin hnot hma hmb, if_neg hin]
      exact ⟨happ, rfl⟩
    · obtain ⟨c, a, b, st₁, st₂, hc, -, ha, hb, happ⟩ := calc_div_eq_ok hv
      -- the first evaluation of the divisor reads nothing
      obtain ⟨-, rfl⟩ := ihr hre.isCond hdr (hre.noAndOr.skipsPure _ _) hc
      rw [hdiv rfl, St.skip_zero] at ha
      obtain ⟨hma, rfl⟩ := ihl hle.isCond hdl hsl ha
      obtain ⟨hmb, rfl⟩ := hright hre.isCond hb
      rw [meaning_binary (by decide) (by decide) hma hmb, if_neg (by decide)]
      exact ⟨happ, rfl⟩
    · obtain ⟨a, st₁, ha, hv⟩ := Run.bind_eq_ok.mp hv
      cases hv
      obtain ⟨hma, rfl⟩ := hright hrc ha
      rw [shift_null] at hma
      rw [meaning, if_neg (by decide), if_pos rfl, if_neg (by decide), hma]
      exact ⟨rfl, rfl⟩
    · have hin : op ≠ .stdIn := by rintro rfl; simp at hop
      have hnot : op ≠ .not := by rintro rfl; simp at hop
      rw [if_neg hin]
      obtain ⟨a, st₁, ha, hv⟩ := calc_logic_eq_ok hop hv
      obtain ⟨hma, rfl⟩ := ihl hlc hdl hsl ha
      rcases hv with ⟨hshort, rfl, rfl⟩ | ⟨hshort, b, hb, rfl⟩
      · obtain ⟨hzero, hsome⟩ := hskip a hma hshort
        obtain ⟨b, hmb⟩ := Option.isSome_iff_exists.mp hsome
        rw [meaning_binary hin hnot hma hmb, hzero]
        refine ⟨?_, rfl⟩
        rcases hshort with ⟨rfl, rfl⟩ | ⟨rfl, hne⟩
        · rfl
        · simp [Operation.apply, hne]
      · obtain ⟨hmb, rfl⟩ := hright hrc hb
        rw [meaning_binary hin hnot hma hmb]
        refine ⟨?_, rfl⟩
        rcases hop with rfl | rfl
        · have hne : a ≠ 0 := fun h => hshort (Or.inl ⟨rfl, h⟩)
          simp [Operation.apply, hne]
        · have hzero : a = 0 := by
            by_contra hne
            exact hshort (Or.inr ⟨rfl, hne⟩)
          simp [Operation.apply, hzero]
  | _ => exact h.elim

end INode

end ParaCL
