import CppGraduate.Compute.HistLocal

/-!
# The local-memory histogram under every schedule

That a step keeps what `Good` says, and what follows at the end of a run.

**Main result**: `histogramCorrect_iff`, the kernel of `hist.cl` counts the data into
the histogram under every schedule, as the kernel of `hist-onlyg-corr.cl`
does, if and only if the sizes are in range.
-/

namespace Hist.Local

open WorkItems

variable {S : Launch} {old : List (BitVec 32)} {loc : Fin S.groups → List (BitVec 32)} {s s' : St S}

/-! ## One action -/

section

variable {j : Item S} {p : Pc} {m : List (BitVec 32) × Global}

/-- An action changes no length. -/
theorem Acts.length {q : Pc} {m₀ : List (BitVec 32) × Global} (h : Acts S q m₀ p m) :
    m.1.length = m₀.1.length ∧ m.2.histogram.length = m₀.2.histogram.length := by
  cases h with
  | zero hi => exact ⟨List.length_set, rfl⟩
  | count hi => exact ⟨length_bump .., rfl⟩
  | read hi => exact ⟨rfl, rfl⟩
  | add => exact ⟨rfl, length_bump ..⟩

/-- **The elements counted along an action.** -/
theorem Good.counted_act (hF : S.Fits) (h : Run S loc old s) (hs : Good S old s)
    (hacts : Acts S (s.priv j) (s.loc j.1, s.glob) p m) :
    Counted S (fun k => (Function.update s.priv j p k).counted S) m.2.counted := by
  have hat := h.at hF j
  generalize hq : s.priv j = q at hacts hat
  generalize hm : (s.loc j.1, s.glob) = m₀ at hacts
  have hkeep : p.counted S = q.counted S →
      Counted S (fun k => (Function.update s.priv j p k).counted S) s.glob.counted := by
    intro he
    refine hs.counted.congr fun n _ => ?_
    rw [Kernel.apply_update_of_eq (Pc.counted S) (by rw [he, hq])]
  cases hacts with
  | zero hi =>
    subst hm
    exact hkeep rfl
  | @count i m hi =>
    subst hm
    obtain ⟨-, hin⟩ := hat
    have hnat : (i + S.gsize).toNat = i.toNat + S.gsize := by
      have := hin.nonneg
      omega
    have hup : (s.priv j).counted S = i.toNat := by rw [hq]; rfl
    have hcount := hs.counted.count (i := j) (by
      have := hin.nonneg
      rw [hup]
      omega) (by
      rw [hup]
      exact hin.rem)
    rw [hup] at hcount
    refine hcount.congr fun n _ => ?_
    by_cases hk : owner S n = j
    · rw [hk, Function.update_self, Function.update_self]
      show n < (i + S.gsize).toNat ↔ _
      rw [hnat]
    · rw [Function.update_of_ne hk, Function.update_of_ne hk]
  | read hi =>
    subst hm
    exact hkeep rfl
  | add =>
    subst hm
    exact hkeep rfl

/-- A local counter that is set to zero counts no element. -/
theorem Good.countP_eq_zero (hF : S.Fits) (h : Run S loc old s) (hs : Good S old s) {i : ℤ}
    (hq : s.priv j = .zero i) (hi : i < S.num_bins) (b : ℕ) :
    s.glob.counted.countP (inGroup S j.1 b) = 0 := by
  refine hs.counted.countP_eq_zero fun n hn => ?_
  have hr : (histogram S).reached s j = 0 := by
    have hat := h.at hF j
    have hn : (histogram S).next j (s.priv j) = .act (zeroBody S i) := by
      rw [hq]
      exact if_pos hi
    rw [Kernel.reached_of_act hn]
    rw [hq] at hat
    exact hat.1
  exact h.counted_eq_zero hF hr (of_decide_eq_true hn).1

/-- **The local counters along an action.** -/
theorem Good.local_act (hF : S.Fits) (h : Run S loc old s) (hs : Good S old s)
    (hacts : Acts S (s.priv j) (s.loc j.1, s.glob) p m) {k : Item S} {b : ℕ} (hb : b < S.num_bins)
    (hk : b % S.lsize = k.2) (hz : b < (Function.update s.priv j p k).zeroed S) :
    (Function.update s.loc j.1 m.1 k.1).getD b 0
      = (m.2.counted.countP (inGroup S k.1 b) : BitVec 32) := by
  have hat := h.at hF j
  have hlen := hs.loc_length j.1
  generalize hq : s.priv j = q at hacts hat
  generalize hm : (s.loc j.1, s.glob) = m₀ at hacts
  cases hacts with
  | @zero i m hi =>
    subst hm
    obtain ⟨-, hin⟩ := hat
    by_cases hg : k.1 = j.1
    · rw [hg, Function.update_self]
      show ((s.loc j.1).set i.toNat 0).getD b 0 = _
      rw [getD_set (by have := hin.nonneg; omega)]
      by_cases hib : i.toNat = b
      · rw [if_pos hib, hs.countP_eq_zero hF h hq hi]
        rfl
      · rw [if_neg hib, ← hg]
        refine hs.local_entry k b hb hk ?_
        by_cases hkj : k = j
        · subst hkj
          rw [Function.update_self] at hz
          rw [hq]
          have hnat : (i + S.lsize).toNat = i.toNat + S.lsize := by
            have := hin.nonneg
            omega
          change b < (i + S.lsize).toNat at hz
          rw [hnat, lt_add_iff S.lsize_pos hin.rem hk] at hz
          exact hz.resolve_right fun he => hib he.symm
        · rwa [Function.update_of_ne hkj] at hz
    · rw [Function.update_of_ne hg]
      refine hs.local_entry k b hb hk ?_
      rwa [Function.update_of_ne fun he => hg (by rw [he])] at hz
  | @count i m hi =>
    subst hm
    obtain ⟨-, hin⟩ := hat
    obtain ⟨-, -, -, hlt⟩ := S.read_data hin.nonneg hi
    have hown : owner S i.toNat = j := owner_eq_iff.mpr hin.rem
    have hz' : b < (s.priv k).zeroed S := by
      rwa [Kernel.apply_update_of_eq (Pc.zeroed S) (by rw [hq]; rfl)] at hz
    have hold := hs.local_entry k b hb hk hz'
    show _ = ((i.toNat :: s.glob.counted).countP _ : BitVec 32)
    rw [List.countP_cons]
    by_cases hg : k.1 = j.1
    · rw [hg] at hold ⊢
      rw [Function.update_self, getD_bump (by rw [hlen]; exact hlt), hold]
      by_cases hbin : S.bin i.toNat = b
      · rw [if_pos hbin, if_pos (by simp [inGroup, hown, hbin]), Nat.cast_add, Nat.cast_one]
      · rw [if_neg hbin, if_neg (by simp [inGroup, hbin]), Nat.add_zero]
    · rw [Function.update_of_ne hg, if_neg (by simp [inGroup, hown, Ne.symm hg]), Nat.add_zero]
      exact hold
  | read hi =>
    subst hm
    rw [Function.update_eq_self]
    refine hs.local_entry k b hb hk ?_
    rwa [Kernel.apply_update_of_eq (Pc.zeroed S) (by rw [hq]; rfl)] at hz
  | add =>
    subst hm
    rw [Function.update_eq_self]
    refine hs.local_entry k b hb hk ?_
    rwa [Kernel.apply_update_of_eq (Pc.zeroed S) (by rw [hq]; rfl)] at hz

/-- A counter that is read is the number of elements of the group in the
bin. -/
theorem Good.held_act (hF : S.Fits) (h : Run S loc old s) (hs : Good S old s)
    (hacts : Acts S (s.priv j) (s.loc j.1, s.glob) p m) (k : Item S) (i : ℤ) (v : BitVec 32)
    (hk : Function.update s.priv j p k = .add i v) : v = groupCount S k.1 i.toNat := by
  by_cases hkj : k = j
  · subst hkj
    rw [Function.update_self] at hk
    have hat := h.at hF k
    generalize hq : s.priv k = q at hacts hat
    generalize hm : (s.loc k.1, s.glob) = m₀ at hacts
    cases hacts with
    | zero hi => cases hk
    | count hi => cases hk
    | @read i' m hi =>
      subst hm
      cases hk
      obtain ⟨hpassed, hin⟩ := hat
      have hlt : i.toNat < S.num_bins := by
        have := hin.nonneg
        omega
      rw [hs.local_entry k i.toNat hlt hin.rem (by rw [hq]; exact hlt),
        hs.counted.countP_eq fun n _ hn => ?_]
      · rfl
      · exact h.counted_ge hF hpassed (of_decide_eq_true hn).1.symm
    | add => cases hk
  · rw [Function.update_of_ne hkj] at hk
    exact hs.held k i v hk

/-- What an item has added depends on how far it has come. -/
theorem added_congr {q : Pc} (b : ℕ) (k : Item S) (h : p.flushed = q.flushed) :
    added S b k p = added S b k q := by
  unfold added
  rw [h]

/-- **The histogram along an action.** -/
theorem Good.entry_act (hF : S.Fits) (h : Run S loc old s) (hs : Good S old s)
    (hacts : Acts S (s.priv j) (s.loc j.1, s.glob) p m) {b : ℕ} (hb : b < S.num_bins) :
    m.2.histogram.getD b 0 = old.getD b 0 + ∑ k, added S b k (Function.update s.priv j p k) := by
  have hat := h.at hF j
  have hsum := Kernel.sum_update Finset.univ (added S b) s.priv (Finset.mem_univ j) p
  generalize hq : s.priv j = q at hacts hat hsum
  generalize hm : (s.loc j.1, s.glob) = m₀ at hacts
  have hkeep : p.flushed = q.flushed → s.glob.histogram.getD b 0
      = old.getD b 0 + ∑ k, added S b k (Function.update s.priv j p k) := by
    intro he
    rw [added_congr b j he] at hsum
    rw [hs.entry b hb, add_right_cancel hsum]
  cases hacts with
  | zero hi =>
    subst hm
    exact hkeep rfl
  | count hi =>
    subst hm
    exact hkeep rfl
  | read hi =>
    subst hm
    exact hkeep rfl
  | @add i v m =>
    subst hm
    obtain ⟨-, hin, hi⟩ := hat
    have hnn := hin.nonneg
    have hnat : (i + S.lsize).toNat = i.toNat + S.lsize := by omega
    show (bump _ _ _).getD b 0 = _
    rw [getD_bump (by rw [hs.length]; omega)]
    by_cases hib : i.toNat = b
    · rw [if_pos hib, hs.entry b hb]
      subst hib
      have hold : added S i.toNat j (.add i v) = 0 := if_neg fun hlt => lt_irrefl _ hlt.2
      have hnew : added S i.toNat j (.flush (i + S.lsize)) = v := by
        unfold added
        rw [if_pos ⟨hin.rem, by
          show i.toNat < (i + S.lsize).toNat
          have := S.lsize_pos
          omega⟩]
        exact (hs.held j i v hq).symm
      rw [hold, hnew, add_zero] at hsum
      rw [hsum, add_assoc]
    · rw [if_neg hib]
      have hsame : added S b j (.flush (i + S.lsize)) = added S b j (.add i v) := by
        unfold added
        refine if_congr (and_congr_right fun hr => ?_) rfl rfl
        show b < (i + S.lsize).toNat ↔ b < i.toNat
        rw [hnat, lt_add_iff S.lsize_pos hin.rem hr]
        exact or_iff_left fun he => hib he.symm
      rw [hsame] at hsum
      rw [hs.entry b hb, add_right_cancel hsum]

/-! ## One step -/

/-- An action keeps what holds. -/
theorem Good.act (hF : S.Fits) (h : Run S loc old s) (hs : Good S old s)
    (hacts : Acts S (s.priv j) (s.loc j.1, s.glob) p m) :
    Good S old ((histogram S).acted s j p m) := by
  obtain ⟨hloc, hglob⟩ := hacts.length
  refine ⟨fun a => ?_, hglob.trans hs.length, hs.counted_act hF h hacts, ?_,
    hs.held_act hF h hacts, fun b hb => hs.entry_act hF h hacts hb⟩
  · show (Function.update s.loc j.1 m.1 a).length = _
    by_cases ha : a = j.1
    · rw [ha, Function.update_self, hloc, hs.loc_length]
    · rw [Function.update_of_ne ha, hs.loc_length]
  · intro k b hb hk hz
    exact hs.local_act hF h hacts hb hk hz

/-- An item's bins begin with its number. -/
theorem lid_le (hF : S.Fits) {b : ℕ} (hb : b % S.lsize = j.2) : j.lid.toNat ≤ b := by
  rw [hF.lid, Int.toNat_natCast, ← hb]
  exact Nat.mod_le b S.lsize

/-- A barrier is not passed with a counter in hand. -/
theorem ne_add_of_barrier {q : Pc} (hn : (histogram S).next j q = .barrier p) (i : ℤ)
    (v : BitVec 32) : p ≠ .add i v := by
  obtain ⟨_, -, -, rfl⟩ | ⟨_, -, -, rfl⟩ := barrier_cases hn <;> exact nofun

/-- At a barrier nothing of the item's own has reached the histogram, or as
much as before. -/
theorem added_barrier (hF : S.Fits) {q : Pc} (hn : (histogram S).next j q = .barrier p) (b : ℕ) :
    added S b j p = added S b j q := by
  obtain ⟨i, rfl, -, rfl⟩ | ⟨i, rfl, -, rfl⟩ := barrier_cases hn
  · exact added_congr b j rfl
  · have hcount : added S b j (.count i) = 0 := if_neg fun hlt => Nat.not_lt_zero _ hlt.2
    rw [hcount]
    exact if_neg fun hlt => Nat.not_lt_of_le (lid_le hF hlt.1) hlt.2

/-- **A barrier keeps what holds**: it is passed when a loop has ended, and
the next loop begins before all that are the item's own. -/
theorem Good.pass (hF : S.Fits) (h : Run S loc old s) (hs : Good S old s)
    (hn : (histogram S).next j (s.priv j) = .barrier p) : Good S old (Kernel.released s j p) := by
  have hat := h.at hF j
  have hheld : ∀ (k : Item S) i v, Function.update s.priv j p k = .add i v →
      v = groupCount S k.1 i.toNat := by
    intro k i v hk
    by_cases hkj : k = j
    · rw [hkj, Function.update_self] at hk
      exact absurd hk (ne_add_of_barrier hn i v)
    · rw [Function.update_of_ne hkj] at hk
      exact hs.held k i v hk
  have hsum : ∀ b, ∑ k, added S b k (Function.update s.priv j p k)
      = ∑ k, added S b k (s.priv k) := by
    intro b
    have := Kernel.sum_update Finset.univ (added S b) s.priv (Finset.mem_univ j) p
    rw [added_barrier hF hn b] at this
    exact add_right_cancel this
  have hentry : ∀ b < S.num_bins, s.glob.histogram.getD b 0
      = old.getD b 0 + ∑ k, added S b k (Function.update s.priv j p k) := by
    intro b hb
    rw [hsum b]
    exact hs.entry b hb
  obtain ⟨i, hq, hi, rfl⟩ | ⟨i, hq, hi, rfl⟩ := barrier_cases hn
  · rw [hq] at hat
    refine ⟨hs.loc_length, hs.length, hs.counted.congr fun n _ => ?_, ?_, hheld, hentry⟩
    · show n < (Function.update s.priv j _ (owner S n)).counted S ↔ _
      by_cases hk : owner S n = j
      · rw [hk, Function.update_self, hq]
        refine iff_of_false ?_ (Nat.not_lt_zero n)
        show ¬ n < j.gid.toNat
        have := Nat.mod_le n S.gsize
        rw [hF.2.gid, Int.toNat_natCast, ← owner_eq_iff.mp hk]
        omega
      · rw [Function.update_of_ne hk]
    · intro k b hb hk hz
      refine hs.local_entry k b hb hk ?_
      by_cases hkj : k = j
      · rw [hkj, hq]
        show b < i.toNat
        omega
      · change b < (Function.update s.priv j _ k).zeroed S at hz
        rwa [Function.update_of_ne hkj] at hz
  · rw [hq] at hat
    refine ⟨hs.loc_length, hs.length, hs.counted.congr fun n hnd => ?_, ?_, hheld, hentry⟩
    · show n < (Function.update s.priv j _ (owner S n)).counted S ↔ _
      by_cases hk : owner S n = j
      · rw [hk, Function.update_self, hq]
        refine iff_of_true hnd ?_
        show n < i.toNat
        omega
      · rw [Function.update_of_ne hk]
    · intro k b hb hk hz
      refine hs.local_entry k b hb hk ?_
      change b < (Function.update s.priv j _ k).zeroed S at hz
      rwa [Kernel.apply_update_of_eq (Pc.zeroed S) (by rw [hq]; rfl)] at hz

end

/-- **What holds in every state of a run.** -/
theorem Run.good (hF : S.Fits) (hold : old.length = S.num_bins)
    (hloc : ∀ a, (loc a).length = S.num_bins) (h : Run S loc old s) : Good S old s := by
  refine h.invariant (P := Good S old) ?_ ?_
  · refine ⟨hloc, hold, Counted.start fun j => Nat.zero_le _, ?_, nofun, ?_⟩
    · intro j b _ hb hz
      have hlt : b < j.lid.toNat := hz
      exact absurd hlt (Nat.not_lt_of_le (lid_le hF hb))
    · intro b _
      have hzero : ∀ j : Item S, added S b j (.zero j.lid) = 0 := fun j =>
        if_neg fun hlt => Nat.not_lt_zero _ hlt.2
      show _ = _ + ∑ j : Item S, added S b j (.zero j.lid)
      rw [Finset.sum_eq_zero fun j _ => hzero j]
      exact (add_zero _).symm
  · intro s s' hr hs hstep
    cases hstep with
    | @act j f p m hn hf => exact hs.act hF hr ((acts_of_act hF hn (Run.at hF hr j) _).1 _ _ hf)
    | @pass j p hn hall => exact hs.pass hF hr hn

/-! ## The end of a run -/

/-- The elements in a bin are those of the groups. -/
theorem sum_groupCount (S : Launch) (b : ℕ) : ∑ a, groupCount S a b = S.count b := by
  unfold groupCount Launch.count
  induction List.range S.num_data with
  | nil => simp
  | cons n l ih =>
    simp only [List.countP_cons, Finset.sum_add_distrib, ih]
    congr 1
    rw [Finset.sum_eq_single (owner S n).1]
    · simp [inGroup]
    · intro a _ ha
      rw [if_neg]
      simp [inGroup, Ne.symm ha]
    · exact fun h => absurd (Finset.mem_univ _) h

/-- **What all items have added** when they are at their ends. -/
theorem sum_added {p : Item S → Pc} (hp : ∀ j, S.num_bins ≤ (p j).flushed) {b : ℕ}
    (hb : b < S.num_bins) : ∑ j, added S b j (p j) = (S.count b : BitVec 32) := by
  rw [Fintype.sum_prod_type, ← sum_groupCount, Nat.cast_sum]
  refine Finset.sum_congr rfl fun a _ => ?_
  rw [Finset.sum_eq_single (⟨b % S.lsize, Nat.mod_lt _ S.lsize_pos⟩ : Fin S.lsize)]
  · exact if_pos ⟨rfl, hb.trans_le (hp _)⟩
  · intro k _ hk
    exact if_neg fun h => hk (Fin.ext h.1.symm)
  · exact fun h => absurd (Finset.mem_univ _) h

/-- **Under every schedule the kernel counts the data**, every element
once. -/
theorem everyRun (hF : S.Fits) (hold : old.length = S.num_bins)
    (hloc : ∀ a, (loc a).length = S.num_bins) :
    (histogram S).EveryRun ((histogram S).start loc ⟨old, []⟩) (fun _ => True) fun s =>
      IsHistogram S old s.glob.histogram ∧ s.glob.counted.Perm (List.range S.num_data) := by
  have hsafe : ∀ s, Run S loc old s → (histogram S).Safe s := by
    intro s hs j f hn
    have hgood := Run.good hF hold hloc hs
    exact (acts_of_act hF hn (Run.at hF hs j) _).2 (hgood.loc_length _) hgood.length
  refine ⟨hsafe, fun _ _ => trivial, ?_, ?_, ?_⟩
  · intro s hs
    refine Kernel.exists_step (N := 2) (hsafe s hs) ?_ ?_
    · intro j hn
      have hat := Run.at hF hs j
      obtain ⟨i, hq, -⟩ := of_done hn
      rw [hq] at hat
      exact hat.1.ge
    · intro j q hn
      have hat := Run.at hF hs j
      obtain ⟨i, hq, -, -⟩ | ⟨i, hq, -, -⟩ := barrier_cases hn
      · rw [hq] at hat
        rw [hat.1]
        decide
      · rw [hq] at hat
        rw [hat.1]
        decide
  · refine Kernel.ends_of_rank (fun _ => Pc.rank S) (I := fun j p => ∃ n, p.At S j n) ?_ ?_
      fun j => ⟨0, rfl, hF.inStride j⟩
    · rintro j p f m p' m' hn hf ⟨n, hp⟩
      have hacts := (acts_of_act hF hn hp m).1 _ _ hf
      exact ⟨⟨n, hacts.at hp⟩, hacts.rank_lt hp⟩
    · rintro j p q hn ⟨n, hp⟩
      exact ⟨⟨n + 1, at_of_barrier hF hn hp⟩, rank_lt_of_barrier hF hn⟩
  · intro s hs hfin
    have hgood := Run.good hF hold hloc hs
    have hend : ∀ j, ∃ i, s.priv j = .flush i ∧ ¬ i < S.num_bins := fun j => of_done (hfin j)
    refine ⟨⟨hgood.length, fun b hb => ?_⟩, hgood.counted.perm fun j => ?_⟩
    · rw [hgood.entry b hb, sum_added (fun j => ?_) hb]
      obtain ⟨i, hq, hi⟩ := hend j
      rw [hq]
      show S.num_bins ≤ i.toNat
      omega
    · obtain ⟨i, hq, -⟩ := hend j
      rw [hq]
      exact le_rfl

/-! ## Correctness -/

/-- **The kernel counts exactly**, under every schedule, whatever is in the
histogram and in local memory before: no item faults or blocks the others for
ever, every element is counted once, the histogram grows by the number of
elements in each bin, and it is what every run of `hist-onlyg-corr.cl` makes
of the same. -/
def Correct (S : Launch) : Prop :=
  ∀ (old : List (BitVec 32)) (loc : Fin S.groups → List (BitVec 32)), old.length = S.num_bins →
    (∀ a, (loc a).length = S.num_bins) →
    (histogram S).EveryRun ((histogram S).start loc ⟨old, []⟩) (fun _ => True) fun s =>
      IsHistogram S old s.glob.histogram ∧ s.glob.counted.Perm (List.range S.num_data)
        ∧ ∀ loc' s', (OnlyGlobal.histogram S).Reaches
            ((OnlyGlobal.histogram S).start loc' ⟨old, []⟩) s' →
          (OnlyGlobal.histogram S).Finished s' → s'.glob.histogram = s.glob.histogram

/-- In range, the kernel counts exactly. -/
theorem correct_of_fits (hF : S.Fits) : Correct S := by
  intro old loc hold hloc
  refine (everyRun hF hold hloc).mono (fun _ => id) ?_
  rintro s hs ⟨hhist, hperm⟩
  refine ⟨hhist, hperm, ?_⟩
  intro loc' s' hs' hfin'
  exact ((OnlyGlobal.everyRun hF.2 hold loc').finished s' hs' hfin').1.unique hhist

/-- **The loops an item has left**, and the indices it has come to. -/
def Pc.Left (S : Launch) (j : Item S) : Pc → Prop
  | zero i => Comes j.lid S.lstep S.num_bins i
  | count i => Leaves j.lid S.lstep S.num_bins ∧ Comes j.gid S.gstep S.num_data i
  | flush _ => Leaves j.lid S.lstep S.num_bins ∧ Leaves j.gid S.gstep S.num_data
  | add _ _ => Leaves j.lid S.lstep S.num_bins ∧ Leaves j.gid S.gstep S.num_data

/-- An action that has a result goes on in the loop. -/
theorem left_of_act {j : Item S} {p p' : Pc} {m m' : List (BitVec 32) × Global}
    {f : List (BitVec 32) × Global → Option (Pc × _ × Global)}
    (hn : (histogram S).next j p = .act f) (hf : f m = some (p', m')) (hp : p.Left S j) :
    p'.Left S j := by
  obtain ⟨i, rfl, hi, rfl⟩ | ⟨i, rfl, hi, rfl⟩ | ⟨i, rfl, hi, rfl⟩ | ⟨i, v, rfl, rfl⟩ :=
    next_act hn
  · obtain ⟨n, hidx, hf⟩ := Option.bind_eq_some_iff.mp hf
    obtain ⟨k, hk, hf⟩ := Option.bind_eq_some_iff.mp hf
    cases hf
    exact .next hp (of_index hidx).1 hi hk
  · obtain ⟨d, hd, hf⟩ := Option.bind_eq_some_iff.mp hf
    obtain ⟨x, -, hf⟩ := Option.bind_eq_some_iff.mp hf
    obtain ⟨k, hk, hf⟩ := Option.bind_eq_some_iff.mp hf
    cases hf
    obtain ⟨n, hidx, -⟩ := Option.bind_eq_some_iff.mp hd
    exact ⟨hp.1, .next hp.2 (of_index hidx).1 hi hk⟩
  · obtain ⟨v, -, hf⟩ := Option.bind_eq_some_iff.mp hf
    cases hf
    exact hp
  · obtain ⟨x, -, hf⟩ := Option.bind_eq_some_iff.mp hf
    obtain ⟨k, -, hf⟩ := Option.bind_eq_some_iff.mp hf
    cases hf
    exact hp

/-- **An item at its end has left its loops**, in every run. -/
theorem Run.left (h : Run S loc old s) (j : Item S) : (s.priv j).Left S j := by
  refine h.private_state (I := fun j p _ => p.Left S j) (fun j => Comes.start) ?_ ?_ j
  · intro j p n f m p' m' hn hf hp
    exact left_of_act hn hf hp
  · intro j p n q hn hp
    obtain ⟨i, rfl, hi, rfl⟩ | ⟨i, rfl, hi, rfl⟩ := barrier_cases hn
    · exact ⟨⟨i, hp, not_lt.mp hi⟩, .start⟩
    · exact ⟨hp.1, i, hp.2, not_lt.mp hi⟩

/-- **A kernel whose runs end overflows nowhere**: some run of it comes to its
end, and there all items have left their loops. -/
theorem fits_of_everyRun {P Q : St S → Prop}
    (h : (histogram S).EveryRun ((histogram S).start loc ⟨old, []⟩) P Q) : S.Fits := by
  obtain ⟨s, hs, hfin, -⟩ := h.exists_finished
  have hleft : ∀ j : Item S, Leaves j.lid S.lstep S.num_bins ∧ Leaves j.gid S.gstep S.num_data := by
    intro j
    have hl := Run.left hs j
    obtain ⟨i, hq, -⟩ := of_done (hfin j)
    rwa [hq] at hl
  refine ⟨le_of_allLeave S.lsize_pos S.num_bins_lt fun r hr => ?_,
    S.dataFits_of_leaves fun j => (hleft j).2⟩
  exact (hleft (⟨0, S.groups_pos⟩, ⟨r, hr⟩)).1

/-- A kernel that counts exactly overflows nowhere. -/
theorem fits_of_correct (h : Correct S) : S.Fits :=
  fits_of_everyRun (h (List.replicate _ 0) (fun _ => List.replicate _ 0)
    List.length_replicate fun _ => List.length_replicate)

/-- **The kernel of hist.cl counts exactly under every schedule if and only
if its loop variables stay in the range of `int`.** -/
theorem histogramCorrect_iff (S : Launch) : Correct S ↔ S.Fits :=
  ⟨fits_of_correct, correct_of_fits⟩

/-- A launch of 25600 items on `n` elements. -/
def zeros (n : ℕ) (hn : n < 2 ^ 31) : Launch :=
  ⟨256, 100, 1024, List.replicate n 0, by decide, by decide, by decide, by decide, by decide,
    by rwa [List.length_replicate], fun d hd => by rw [List.eq_of_mem_replicate hd]; decide⟩

/-- With more elements than there are numbers of type `int` above the number
of items, some variable overflows. -/
theorem not_correct_zeros {n : ℕ} (hn : n < 2 ^ 31) (h : 2 ^ 31 < n + 25600) :
    ¬ Correct (zeros n hn) := by
  intro hc
  have hdata := (fits_of_correct hc).2
  unfold Launch.DataFits Launch.num_data at hdata
  have hlen : (zeros n hn).data.length = n := List.length_replicate
  have hsize : (zeros n hn).gsize = 100 * 256 := rfl
  omega

/-- 2^31 - 1 elements and 25600 items: the index after the last element of
some item overflows. -/
theorem not_correct_largeData : ¬ Correct (zeros (2 ^ 31 - 1) (by omega)) :=
  not_correct_zeros (by omega) (by omega)

end Hist.Local
