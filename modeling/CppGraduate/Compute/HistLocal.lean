import CppGraduate.Compute.HistCounting

/-!
# Counting in local memory

The work-items of a group set the local counters to zero, count the data in
them, and add them to the histogram, with a barrier after each of the first
two. How far an item has come is three numbers, one for each loop: the
counters it has set (`Pc.zeroed`), the elements it has counted
(`Pc.counted`) and the counters it has added (`Pc.flushed`).

A local counter that has been set is the number of elements of the group
that are counted and in the bin (`Good.entry`). When it is set none has been
counted, since the items of the group have passed no barrier then, and when it
is read all have been, since they have all reached the second one.
-/

namespace Hist

open WorkItems

variable {S : Launch}

/-- **All sizes are in range**, those of the loops over the bins and those of
the loop over the data. -/
def Launch.Fits (S : Launch) : Prop := S.num_bins + S.lsize ≤ 2 ^ 31 ∧ S.DataFits

instance (S : Launch) : Decidable S.Fits := inferInstanceAs (Decidable (_ ∧ _ ≤ _))

namespace Launch.Fits

variable (hF : S.Fits)

include hF

/-- Every item has its local number. -/
theorem lid (j : Item S) : j.lid = j.2 := by
  have := j.2.isLt
  have := hF.1
  exact convert_natCast (by omega)

/-- The step through the bins is the size of the group. -/
theorem lstep : S.lstep = S.lsize := by
  have := S.num_bins_pos
  have := hF.1
  exact convert_natCast (by omega)

/-- Every item begins in its loops over the bins. -/
theorem inStride (j : Item S) : InStride j.2 S.lsize S.num_bins j.lid := by
  rw [hF.lid]
  exact InStride.start _ j.2.isLt

/-- The next bin of an item. -/
theorem advance {r : ℕ} {i : ℤ} (h : InStride r S.lsize S.num_bins i) (hi : i < S.num_bins) :
    advance i S.lstep = some (i + S.lsize) := by
  rw [hF.lstep]
  exact h.advance hi hF.1

end Launch.Fits

namespace Local

/-! ## Where an item is -/

namespace Pc

/-- **Where an item is when it has passed `n` barriers.** -/
def At (S : Launch) (j : Item S) : Pc → ℕ → Prop
  | zero i, n => n = 0 ∧ InStride j.2 S.lsize S.num_bins i
  | count i, n => n = 1 ∧ InStride j.globalId S.gsize S.num_data i
  | flush i, n => n = 2 ∧ InStride j.2 S.lsize S.num_bins i
  | add i _, n => n = 2 ∧ InStride j.2 S.lsize S.num_bins i ∧ i < S.num_bins

/-- The local counters up to which the item has set its own. -/
def zeroed (S : Launch) : Pc → ℕ
  | zero i => i.toNat
  | _ => S.num_bins

/-- The elements up to which the item has counted its own. -/
def counted (S : Launch) : Pc → ℕ
  | zero _ => 0
  | count i => i.toNat
  | _ => S.num_data

/-- The counters up to which the item has added its own. -/
def flushed : Pc → ℕ
  | flush i => i.toNat
  | add i _ => i.toNat
  | _ => 0

/-- How far an item is from its end. -/
def rank (S : Launch) : Pc → ℕ
  | zero i => 2 * S.num_bins + S.num_data + 3 + (S.num_bins - i).toNat
  | count i => 2 * S.num_bins + 2 + (S.num_data - i).toNat
  | flush i => 2 * (S.num_bins - i).toNat + 1
  | add i _ => 2 * (S.num_bins - i).toNat

end Pc

/-- **What an item can do in one action.** -/
inductive Acts (S : Launch) :
    Pc → List (BitVec 32) × Global → Pc → List (BitVec 32) × Global → Prop
  | zero {i : ℤ} {m : List (BitVec 32) × Global} (hi : i < S.num_bins) :
    Acts S (.zero i) m (.zero (i + S.lsize)) (m.1.set i.toNat 0, m.2)
  | count {i : ℤ} {m : List (BitVec 32) × Global} (hi : i < S.num_data) :
    Acts S (.count i) m (.count (i + S.gsize))
      (bump m.1 (S.bin i.toNat) 1, { m.2 with counted := i.toNat :: m.2.counted })
  | read {i : ℤ} {m : List (BitVec 32) × Global} (hi : i < S.num_bins) :
    Acts S (.flush i) m (.add i (m.1.getD i.toNat 0)) m
  | add {i : ℤ} {v : BitVec 32} {m : List (BitVec 32) × Global} :
    Acts S (.add i v) m (.flush (i + S.lsize))
      (m.1, { m.2 with histogram := bump m.2.histogram i.toNat v })

/-- What an item does next, before a loop has ended. -/
theorem next_act {j : Item S} {p : Pc} {f : List (BitVec 32) × Global → Option (Pc × _ × Global)}
    (hn : (histogram S).next j p = .act f) :
    (∃ i, p = .zero i ∧ i < S.num_bins ∧ f = zeroBody S i)
      ∨ (∃ i, p = .count i ∧ i < S.num_data ∧ f = countBody S i)
      ∨ (∃ i, p = .flush i ∧ i < S.num_bins ∧ f = readBody i)
      ∨ ∃ i v, p = .add i v ∧ f = addBody S i v := by
  cases p with
  | zero i =>
    change (if _ then _ else _) = _ at hn
    split at hn
    · cases hn
      exact Or.inl ⟨i, rfl, by assumption, rfl⟩
    · cases hn
  | count i =>
    change (if _ then _ else _) = _ at hn
    split at hn
    · cases hn
      exact Or.inr (Or.inl ⟨i, rfl, by assumption, rfl⟩)
    · cases hn
  | flush i =>
    change (if _ then _ else _) = _ at hn
    split at hn
    · cases hn
      exact Or.inr (Or.inr (Or.inl ⟨i, rfl, by assumption, rfl⟩))
    · cases hn
  | add i v =>
    cases hn
    exact Or.inr (Or.inr (Or.inr ⟨i, v, rfl, rfl⟩))

/-- **Barriers** stand after the first loop and after the second. -/
theorem barrier_cases {j : Item S} {p q : Pc} (hn : (histogram S).next j p = .barrier q) :
    (∃ i, p = .zero i ∧ ¬ i < S.num_bins ∧ q = .count j.gid)
      ∨ ∃ i, p = .count i ∧ ¬ i < S.num_data ∧ q = .flush j.lid := by
  cases p with
  | zero i =>
    change (if _ then _ else _) = _ at hn
    split at hn
    · cases hn
    · cases hn
      exact Or.inl ⟨i, rfl, by assumption, rfl⟩
  | count i =>
    change (if _ then _ else _) = _ at hn
    split at hn
    · cases hn
    · cases hn
      exact Or.inr ⟨i, rfl, by assumption, rfl⟩
  | flush i =>
    change (if _ then _ else _) = _ at hn
    split at hn <;> cases hn
  | add i v => cases hn

/-- An item ends after the third loop. -/
theorem of_done {j : Item S} {p : Pc} (hn : (histogram S).next j p = .done) :
    ∃ i, p = .flush i ∧ ¬ i < S.num_bins := by
  cases p with
  | zero i =>
    change (if _ then _ else _) = _ at hn
    split at hn <;> cases hn
  | count i =>
    change (if _ then _ else _) = _ at hn
    split at hn <;> cases hn
  | flush i =>
    change (if _ then _ else _) = _ at hn
    split at hn
    · cases hn
    · exact ⟨i, rfl, by assumption⟩
  | add i v => cases hn

/-- **Every action is one of these**, and has a result where the buffers have
an element for every bin. -/
theorem acts_of_act (hF : S.Fits) {j : Item S} {p : Pc} {n : ℕ}
    {f : List (BitVec 32) × Global → Option (Pc × _ × Global)}
    (hn : (histogram S).next j p = .act f) (hp : p.At S j n) (m : List (BitVec 32) × Global) :
    (∀ p' m', f m = some (p', m') → Acts S p m p' m')
      ∧ (m.1.length = S.num_bins → m.2.histogram.length = S.num_bins → (f m).isSome) := by
  obtain ⟨i, rfl, hi, rfl⟩ | ⟨i, rfl, hi, rfl⟩ | ⟨i, rfl, hi, rfl⟩ | ⟨i, v, rfl, rfl⟩ :=
    next_act hn
  · obtain ⟨-, hin⟩ := hp
    unfold zeroBody
    rw [hF.advance hin hi]
    refine ⟨?_, ?_⟩
    · intro p' m' h
      obtain ⟨n, hidx, h⟩ := Option.bind_eq_some_iff.mp h
      obtain ⟨-, -, rfl⟩ := of_index hidx
      cases h
      exact .zero hi
    · intro hl _
      rw [index_of_lt hin.nonneg (by rw [hl]; exact hi)]
      rfl
  · obtain ⟨-, hin⟩ := hp
    obtain ⟨d, hd, hbin, hlt⟩ := S.read_data hin.nonneg hi
    unfold countBody
    rw [hd, hF.2.advance hin hi]
    simp only [Option.bind_eq_bind, Option.bind_some]
    rw [hbin]
    refine ⟨?_, ?_⟩
    · intro p' m' h
      obtain ⟨x, hx, h⟩ := Option.bind_eq_some_iff.mp h
      cases h
      rw [of_atomicAdd hx, Int.toNat_natCast]
      exact .count hi
    · intro hl _
      rw [atomicAdd_of_lt (Int.natCast_nonneg _) (by rw [hl]; exact_mod_cast hlt)]
      rfl
  · obtain ⟨-, hin⟩ := hp
    refine ⟨?_, ?_⟩
    · intro p' m' h
      obtain ⟨v, hv, h⟩ := Option.bind_eq_some_iff.mp h
      cases h
      rw [of_read hv]
      exact .read hi
    · intro hl _
      unfold readBody
      rw [read_of_lt hin.nonneg (by rw [hl]; exact hi)]
      rfl
  · obtain ⟨-, hin, hi⟩ := hp
    unfold addBody
    rw [hF.advance hin hi]
    refine ⟨?_, ?_⟩
    · intro p' m' h
      obtain ⟨x, hx, h⟩ := Option.bind_eq_some_iff.mp h
      cases h
      rw [of_atomicAdd hx]
      exact .add
    · intro _ hl
      rw [atomicAdd_of_lt hin.nonneg (by rw [hl]; exact hi)]
      rfl

/-- An action does not pass a barrier. -/
theorem Acts.at {j : Item S} {p p' : Pc} {m m' : List (BitVec 32) × Global} {n : ℕ}
    (h : Acts S p m p' m') (hp : p.At S j n) : p'.At S j n := by
  cases h with
  | zero hi => exact ⟨hp.1, hp.2.next hi⟩
  | count hi => exact ⟨hp.1, hp.2.next hi⟩
  | read hi => exact ⟨hp.1, hp.2, hi⟩
  | add => exact ⟨hp.1, hp.2.1.next hp.2.2⟩

/-- A barrier takes an item to its next loop. -/
theorem at_of_barrier (hF : S.Fits) {j : Item S} {p q : Pc} {n : ℕ}
    (hn : (histogram S).next j p = .barrier q) (hp : p.At S j n) : q.At S j (n + 1) := by
  obtain ⟨i, rfl, -, rfl⟩ | ⟨i, rfl, -, rfl⟩ := barrier_cases hn
  · exact ⟨by rw [hp.1], hF.2.inStride j⟩
  · exact ⟨by rw [hp.1], hF.inStride j⟩

/-- An action brings an item closer to its end. -/
theorem Acts.rank_lt {j : Item S} {p p' : Pc} {m m' : List (BitVec 32) × Global} {n : ℕ}
    (h : Acts S p m p' m') (hp : p.At S j n) : p'.rank S < p.rank S := by
  have hl := S.lsize_pos
  have hg := S.gsize_pos
  cases h with
  | zero hi =>
    simp only [Pc.rank]
    omega
  | count hi =>
    simp only [Pc.rank]
    omega
  | read hi =>
    simp only [Pc.rank]
    omega
  | add =>
    have := hp.2.2
    simp only [Pc.rank]
    omega

/-- So does a barrier. -/
theorem rank_lt_of_barrier (hF : S.Fits) {j : Item S} {p q : Pc}
    (hn : (histogram S).next j p = .barrier q) : q.rank S < p.rank S := by
  obtain ⟨i, rfl, -, rfl⟩ | ⟨i, rfl, -, rfl⟩ := barrier_cases hn
  · have := (hF.2.inStride j).nonneg
    simp only [Pc.rank]
    omega
  · have := (hF.inStride j).nonneg
    simp only [Pc.rank]
    omega

/-! ## The invariant -/

/-- A state of a run. -/
abbrev St (S : Launch) : Type := State (Item S) (Fin S.groups) Pc (List (BitVec 32)) Global

/-- Whether an element belongs to a group and lies in a bin. -/
def inGroup (S : Launch) (a : Fin S.groups) (b n : ℕ) : Bool := (owner S n).1 = a ∧ S.bin n = b

/-- The number of elements of a group in a bin. -/
def groupCount (S : Launch) (a : Fin S.groups) (b : ℕ) : ℕ :=
  (List.range S.num_data).countP (inGroup S a b)

/-- What an item has added to a bin. -/
def added (S : Launch) (b : ℕ) (j : Item S) (p : Pc) : BitVec 32 :=
  if b % S.lsize = j.2 ∧ b < p.flushed then groupCount S j.1 b else 0

/-- **What holds in every state of a run.** -/
structure Good (S : Launch) (old : List (BitVec 32)) (s : St S) : Prop where
  loc_length : ∀ a, (s.loc a).length = S.num_bins
  length : s.glob.histogram.length = S.num_bins
  counted : Counted S (fun j => (s.priv j).counted S) s.glob.counted
  local_entry : ∀ (j : Item S) (b : ℕ), b < S.num_bins → b % S.lsize = j.2 →
    b < (s.priv j).zeroed S →
    (s.loc j.1).getD b 0 = (s.glob.counted.countP (inGroup S j.1 b) : BitVec 32)
  held : ∀ j i v, s.priv j = .add i v → v = groupCount S j.1 i.toNat
  entry : ∀ b < S.num_bins, s.glob.histogram.getD b 0
    = old.getD b 0 + ∑ j, added S b j (s.priv j)

section Runs

variable {old : List (BitVec 32)} {loc : Fin S.groups → List (BitVec 32)} {s s' : St S}

/-- The runs of the kernel. -/
abbrev Run (S : Launch) (loc : Fin S.groups → List (BitVec 32)) (old : List (BitVec 32))
    (s : St S) : Prop :=
  (histogram S).Reaches ((histogram S).start loc ⟨old, []⟩) s

/-- Every item is in the loop its barriers say. -/
theorem Run.at (hF : S.Fits) (h : Run S loc old s) (j : Item S) :
    (s.priv j).At S j (s.passed j) := by
  refine h.private_state (I := fun j p n => p.At S j n) (fun j => ⟨rfl, hF.inStride j⟩) ?_ ?_ j
  · intro j p n f m p' m' hn hf hp
    exact ((acts_of_act hF hn hp m).1 _ _ hf).at hp
  · intro j p n q hn hp
    exact at_of_barrier hF hn hp

/-- **While an item of a group sets counters, none has counted.** -/
theorem Run.counted_eq_zero (hF : S.Fits) (h : Run S loc old s) {j k : Item S}
    (hr : (histogram S).reached s j = 0) (hk : k.1 = j.1) :
    (s.priv k).counted S = 0 := by
  have hp : s.passed k = 0 := by
    have : s.passed k ≤ (histogram S).reached s j := Kernel.passed_le_reached h hk
    omega
  have hat := h.at hF k
  rw [hp] at hat
  cases hpk : s.priv k with
  | zero i => rfl
  | count i =>
    rw [hpk] at hat
    cases hat.1
  | flush i =>
    rw [hpk] at hat
    cases hat.1
  | add i v =>
    rw [hpk] at hat
    cases hat.1

/-- **While an item of a group adds counters, all have counted.** -/
theorem Run.counted_ge (hF : S.Fits) (h : Run S loc old s) {j k : Item S}
    (hj : s.passed j = 2) (hk : j.1 = k.1) : S.num_data ≤ (s.priv k).counted S := by
  have hp : 2 ≤ (histogram S).reached s k := by
    rw [← hj]
    exact Kernel.passed_le_reached h hk
  have hat := h.at hF k
  unfold Kernel.reached at hp
  cases hpk : s.priv k with
  | zero i =>
    rw [hpk] at hat hp
    have hw : ((histogram S).next k (.zero i)).waiting ≤ 1 := by
      cases (histogram S).next k (.zero i) <;> simp [Next.waiting]
    have := hat.1
    omega
  | count i =>
    rw [hpk] at hat hp
    by_contra hlt
    have hi : i < S.num_data := by
      have := hat.2.nonneg
      simp only [Pc.counted] at hlt
      omega
    have hn : (histogram S).next k (.count i) = .act (countBody S i) := if_pos hi
    rw [hn, hat.1] at hp
    change 2 ≤ 1 + 0 at hp
    omega
  | flush i => exact le_rfl
  | add i v => exact le_rfl

end Runs

end Local

end Hist
