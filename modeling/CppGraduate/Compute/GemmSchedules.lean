import CppGraduate.Compute.GemmLocalmem
import CppGraduate.Compute.GemmSimple

/-!
# The tiled kernel under every schedule

What holds in every state a run of `gemm_localmem.cl` comes through
(`Tiled`): every cell holds what its item stored last, every item has summed
up the terms so far, and exactly the items at their ends have stored to `C`.
A read is of a cell of another item; the barriers that have been passed say
that it is one of the same iteration.

**Main result**: `tiledCorrect_iff`, the tiled kernel computes what the plain
one computes, under every schedule, exactly when no index overflows.
-/

namespace Gemm.Localmem

open WorkItems Loops

variable {S : Sizes} {R : Type} [Semiring R]

/-! ## Cells -/

omit [Semiring R] in
/-- A cell after a store to it. -/
theorem setCell_self (f : Fin S.TS → Fin S.TS → Cell R) (a b : Fin S.TS) (x : Cell R) :
    setCell f a b x a b = x := by
  unfold setCell
  rw [Function.update_self, Function.update_self]

omit [Semiring R] in
/-- Another cell after a store. -/
theorem setCell_of_ne (f : Fin S.TS → Fin S.TS → Cell R) {a b a' b' : Fin S.TS} (x : Cell R)
    (h : ¬ (a' = a ∧ b' = b)) : setCell f a b x a' b' = f a' b' := by
  unfold setCell
  by_cases ha : a' = a
  · subst ha
    rw [Function.update_self, Function.update_of_ne fun hb => h ⟨rfl, hb⟩]
  · rw [Function.update_of_ne ha]

/-- **The cells of an item hold what it stored last.** -/
structure Holds (M : Operands S R) (i : Item S) (p : Pc S R) (m : Tiles S R) : Prop where
  asub : ∀ t, p.aTile = some t → m.Asub i.col i.row = ⟨aVal M i t, some t⟩
  bsub : ∀ t, p.bTile = some t → m.Bsub i.col i.row = ⟨bVal M i t, some t⟩

namespace Acts

variable {M : Operands S R} {i : Item S} {p p' : Pc S R} {m m' : Tiles S R × Global S R}

/-- An action keeps what the item's own cells hold, or stores to them. -/
theorem holds (h : Acts M i p m p' m') (hp : Holds M i p m.1) : Holds M i p' m'.1 := by
  cases h with
  | @loadA t acc m ht =>
    refine ⟨?_, ?_⟩
    · intro t' ht'
      cases ht'
      exact setCell_self ..
    · intro t' ht'
      refine hp.bsub t' ?_
      cases t with
      | zero => cases ht'
      | succ t => exact ht'
  | loadB ht =>
    refine ⟨fun t' ht' => hp.asub t' ht', ?_⟩
    intro t' ht'
    cases ht'
    exact setCell_self ..
  | readA hk => exact ⟨hp.asub, hp.bsub⟩
  | readB => exact ⟨hp.asub, hp.bsub⟩
  | store hg => exact ⟨nofun, nofun⟩

/-- An action changes no cell of another item of the group. -/
theorem holds_of_ne (h : Acts M i p m p' m') {j : Item S} (hj : j ≠ i) (hg : j.1 = i.1)
    {q : Pc S R} (hq : Holds M j q m.1) : Holds M j q m'.1 := by
  have hcell : ¬ (j.col = i.col ∧ j.row = i.row) := fun hc =>
    hj (Prod.ext hg (Prod.ext hc.2 hc.1))
  cases h with
  | loadA ht =>
    refine ⟨fun t' ht' => ?_, hq.bsub⟩
    rw [← hq.asub t' ht']
    exact setCell_of_ne _ _ hcell
  | loadB ht =>
    refine ⟨hq.asub, fun t' ht' => ?_⟩
    rw [← hq.bsub t' ht']
    exact setCell_of_ne _ _ hcell
  | readA hk => exact hq
  | readB => exact hq
  | store hg => exact hq

end Acts

/-- A barrier stores nothing. -/
theorem Holds.of_barrier {M : Operands S R} {A B : List R} {i : Item S} {p q : Pc S R}
    {m : Tiles S R} (hp : Holds M i p m)
    (hn : (matrixMultiply S A B).next i p = .barrier q) : Holds M i q m := by
  obtain ⟨t, acc, rfl, rfl⟩ | ⟨t, k, acc, rfl, -, rfl⟩ := barrier_cases hn
  · exact ⟨hp.asub, hp.bsub⟩
  · exact ⟨hp.asub, hp.bsub⟩

/-! ## The invariant -/

/-- A state of a run. -/
abbrev St (S : Sizes) (R : Type) : Type := State (Item S) (Group S) (Pc S R) (Tiles S R) (Global S R)

/-- **What holds in every state of a run.** -/
structure Tiled (M : Operands S R) (s : St S R) : Prop where
  holds : ∀ i, Holds M i (s.priv i) (s.loc i.1)
  summed : ∀ i, (s.priv i).Summed M i
  stored : Stored (fun i => (s.priv i).IsDone)
    (dot S M.A M.B · · (S.TS * numTiles S)) s.glob

/-- **The cells an item may read**: an item that has passed no more than
`2 t + 1` barriers and reached as many holds what it stored in iteration
`t`. -/
theorem tile_of_reached {A B : List R} {j : Item S} {p : Pc S R} {n t : ℕ} (hp : p.At n)
    (hle : n ≤ 2 * t + 1) (hge : 2 * t + 1 ≤ n + ((matrixMultiply S A B).next j p).waiting) :
    p.aTile = some t ∧ p.bTile = some t := by
  cases p with
  | loop t' acc =>
    exfalso
    obtain ⟨rfl, -⟩ := hp
    by_cases ht : t' < numTiles S
    · rw [next_loop ht] at hge
      change 2 * t + 1 ≤ 2 * t' + 0 at hge
      omega
    · rw [next_store ht] at hge
      change 2 * t + 1 ≤ 2 * t' + 0 at hge
      omega
  | loadB t' acc =>
    exfalso
    obtain ⟨rfl, -⟩ := hp
    change 2 * t + 1 ≤ 2 * t' + 0 at hge
    omega
  | loaded t' acc =>
    obtain ⟨rfl, -⟩ := hp
    change 2 * t + 1 ≤ 2 * t' + 1 at hge
    obtain rfl : t' = t := by omega
    exact ⟨rfl, rfl⟩
  | inner t' k acc =>
    obtain ⟨rfl, -, -⟩ := hp
    have hw : ((matrixMultiply S A B).next j (.inner t' k acc)).waiting ≤ 1 := by
      by_cases hk : k < S.TS
      · rw [next_inner hk]
        exact Nat.zero_le _
      · rw [next_innerEnd hk]
        exact le_refl _
    obtain rfl : t' = t := by omega
    exact ⟨rfl, rfl⟩
  | mul t' k acc a =>
    obtain ⟨rfl, -⟩ := hp
    change 2 * t + 1 ≤ 2 * t' + 1 + 0 at hge
    obtain rfl : t' = t := by omega
    exact ⟨rfl, rfl⟩
  | done =>
    exfalso
    change n = 2 * numTiles S at hp
    change 2 * t + 1 ≤ n + 0 at hge
    omega

section Runs

variable {M : Operands S R} {loc : Group S → Tiles S R} {C : List R} {s s' : St S R}

/-- The runs of the kernel. -/
abbrev Run (M : Operands S R) (loc : Group S → Tiles S R) (C : List R) (s : St S R) : Prop :=
  (matrixMultiply S M.A M.B).Reaches ((matrixMultiply S M.A M.B).start loc ⟨C, []⟩) s

/-- Every item is in the phase its barriers say. -/
theorem Run.at (hF : S.Fits) (h : Run M loc C s) (i : Item S) : (s.priv i).At (s.passed i) := by
  refine h.private_state (I := fun _ p n => p.At n) (fun i => ⟨rfl, Nat.zero_le _⟩) ?_ ?_ i
  · intro i p n f m p' m' hn hf hp
    exact ((acts_of_act hF M hn hp m).1 _ _ hf).at hp
  · intro i p n q hn hp
    exact at_of_barrier hn hp

/-- **An item in the inner loop of iteration `t` finds what was stored in
that iteration** in the cells of every item of its group. -/
theorem Tiled.cell (hF : S.Fits) (h : Run M loc C s) (hs : Tiled M s) {i j : Item S} {t : ℕ}
    (hi : s.passed i = 2 * t + 1) (hr : (matrixMultiply S M.A M.B).reached s i = 2 * t + 1)
    (hij : j.1 = i.1) :
    (s.loc i.1).Asub j.col j.row = ⟨aVal M j t, some t⟩
      ∧ (s.loc i.1).Bsub j.col j.row = ⟨bVal M j t, some t⟩ := by
  have hle : s.passed j ≤ 2 * t + 1 := by
    rw [← hr]
    exact Kernel.passed_le_reached h hij
  have hge : 2 * t + 1 ≤ (matrixMultiply S M.A M.B).reached s j := by
    rw [← hi]
    exact Kernel.passed_le_reached h hij.symm
  obtain ⟨ha, hb⟩ := tile_of_reached (h.at hF j) hle hge
  rw [← hij]
  exact ⟨(hs.holds j).asub t ha, (hs.holds j).bsub t hb⟩

/-- The cell of `Asub` that is read. -/
theorem Tiled.readA (hF : S.Fits) (h : Run M loc C s) (hs : Tiled M s) {i : Item S} {t k : ℕ}
    {acc : R} (hp : s.priv i = .inner t k acc) (hk : k < S.TS) :
    (s.loc i.1).Asub ⟨k, hk⟩ i.row
      = ⟨M.A.getD (i.globalRow * S.AY + (S.TS * t + k)) 0, some t⟩ := by
  have hat := h.at hF i
  rw [hp] at hat
  have hr : (matrixMultiply S M.A M.B).reached s i = 2 * t + 1 := by
    rw [Kernel.reached, hp, next_inner hk, hat.1]
    rfl
  exact (hs.cell hF h (j := (i.1, (i.row, ⟨k, hk⟩))) hat.1 hr rfl).1

/-- The cell of `Bsub` that is read. -/
theorem Tiled.readB (hF : S.Fits) (h : Run M loc C s) (hs : Tiled M s) {i : Item S} {t : ℕ}
    {k : Fin S.TS} {acc a : R} (hp : s.priv i = .mul t k acc a) :
    (s.loc i.1).Bsub i.col k
      = ⟨M.B.getD ((S.TS * t + k) * S.BY + i.globalCol) 0, some t⟩ := by
  have hat := h.at hF i
  rw [hp] at hat
  have hr : (matrixMultiply S M.A M.B).reached s i = 2 * t + 1 := by
    rw [Kernel.reached, hp, hat.1]
    rfl
  exact (hs.cell hF h (j := (i.1, (k, i.col))) hat.1 hr rfl).2

/-- **The sums along an action**: what is read are the factors of the next
term. -/
theorem Tiled.summed_act (hF : S.Fits) (h : Run M loc C s) (hs : Tiled M s) {i : Item S}
    {p : Pc S R} {m : Tiles S R × Global S R}
    (hacts : Acts M i (s.priv i) (s.loc i.1, s.glob) p m) : p.Summed M i := by
  have hsum := hs.summed i
  generalize hq : s.priv i = q at hacts hsum
  generalize hm : (s.loc i.1, s.glob) = m₀ at hacts
  cases hacts with
  | loadA ht => exact hsum
  | loadB ht => exact hsum
  | readA hk =>
    subst hm
    exact ⟨hsum, by rw [hs.readA hF h hq hk]⟩
  | @readB t k acc a m =>
    subst hm
    obtain ⟨rfl, rfl⟩ := hsum
    show _ = dot S M.A M.B i.globalRow i.globalCol (S.TS * t + k + 1)
    rw [dot_succ, hs.readB hF h hq]
  | store hg => trivial

/-- **What an action does to `C`**: nothing, or it stores the entry of the
item. -/
theorem Tiled.stored_act (hs : Tiled M s) {i : Item S} {p : Pc S R} {m : Tiles S R × Global S R}
    (hacts : Acts M i (s.priv i) (s.loc i.1, s.glob) p m) :
    Stored (fun j => (((matrixMultiply S M.A M.B).acted s i p m).priv j).IsDone)
      (dot S M.A M.B · · (S.TS * numTiles S)) m.2 := by
  have hsum := hs.summed i
  refine hs.stored.acted (D := Pc.IsDone) ?_ ?_
  · generalize s.priv i = q at hacts
    cases hacts <;> exact id
  · generalize s.priv i = q at hacts hsum
    generalize hm : (s.loc i.1, s.glob) = m₀ at hacts
    cases hacts with
    | loadA ht => exact Or.inl ⟨id, by rw [← hm]⟩
    | loadB ht => exact Or.inl ⟨id, by rw [← hm]⟩
    | readA hk => exact Or.inl ⟨id, by rw [← hm]⟩
    | readB => exact Or.inl ⟨id, by rw [← hm]⟩
    | store hg =>
      subst hm
      obtain rfl := hsum
      exact Or.inr ⟨trivial, hg⟩

/-- **One step keeps the invariant.** -/
theorem Tiled.step (hF : S.Fits) (h : Run M loc C s) (hs : Tiled M s)
    (hstep : (matrixMultiply S M.A M.B).Step s s') : Tiled M s' := by
  cases hstep with
  | @act i f p m hn hf =>
    have hacts := (acts_of_act hF M hn (h.at hF i) _).1 _ _ hf
    refine ⟨fun j => ?_, fun j => ?_, hs.stored_act hacts⟩
    · show Holds M j (Function.update s.priv i p j) (Function.update s.loc i.1 m.1 j.1)
      by_cases hj : j = i
      · subst hj
        rw [Function.update_self, Function.update_self]
        exact hacts.holds (hs.holds j)
      · rw [Function.update_of_ne hj]
        by_cases hg : j.1 = i.1
        · have hold := hs.holds j
          rw [hg] at hold ⊢
          rw [Function.update_self]
          exact hacts.holds_of_ne hj hg hold
        · rw [Function.update_of_ne hg]
          exact hs.holds j
    · show (Function.update s.priv i p j).Summed M j
      by_cases hj : j = i
      · subst hj
        rw [Function.update_self]
        exact hs.summed_act hF h hacts
      · rw [Function.update_of_ne hj]
        exact hs.summed j
  | @pass i p hn hall =>
    have hat := h.at hF i
    refine ⟨fun j => ?_, fun j => ?_, ?_⟩
    · show Holds M j (Function.update s.priv i p j) (s.loc j.1)
      by_cases hj : j = i
      · subst hj
        rw [Function.update_self]
        exact (hs.holds j).of_barrier hn
      · rw [Function.update_of_ne hj]
        exact hs.holds j
    · show (Function.update s.priv i p j).Summed M j
      by_cases hj : j = i
      · subst hj
        rw [Function.update_self]
        have hsum := hs.summed j
        obtain ⟨t, acc, hp, rfl⟩ | ⟨t, k, acc, hp, hk, rfl⟩ := barrier_cases hn
        · rw [hp] at hsum
          exact hsum
        · rw [hp] at hsum hat
          obtain rfl : k = S.TS := le_antisymm hat.2.2 hk
          exact hsum
      · rw [Function.update_of_ne hj]
        exact hs.summed j
    · obtain ⟨t, acc, hp, rfl⟩ | ⟨t, k, acc, hp, hk, rfl⟩ := barrier_cases hn
      · exact hs.stored.released (D := Pc.IsDone) (by rw [hp]; exact id) id
      · exact hs.stored.released (D := Pc.IsDone) (by rw [hp]; exact id) id

/-- **The invariant holds in every run.** -/
theorem Run.tiled (hF : S.Fits) (hC : C.length = S.AX * S.BY) (h : Run M loc C s) : Tiled M s := by
  refine h.invariant (P := Tiled M) ?_ fun s s' hr hs hstep => hs.step hF hr hstep
  refine ⟨fun i => ⟨nofun, nofun⟩, fun i => ?_, Stored.start hC |>.congr fun i => Iff.rfl⟩
  show (0 : R) = dot S M.A M.B i.globalRow i.globalCol (S.TS * 0)
  rw [Nat.mul_zero]
  rfl

end Runs

/-! ## Correctness -/

/-- **Reads are of the iteration they are made in**: a cell an item is about
to read was stored in the same iteration. -/
def ReadsOwn (s : St S R) : Prop :=
  ∀ i, match s.priv i with
    | .inner t k _ => ∀ hk : k < S.TS, ((s.loc i.1).Asub ⟨k, hk⟩ i.row).tile = some t
    | .mul t k _ _ => ((s.loc i.1).Bsub i.col k).tile = some t
    | _ => True

/-- **Under every schedule the tiled kernel ends** with the sums of the terms
of whole tiles in `C`, each entry stored once. -/
theorem everyRun (hF : S.Fits) (M : Operands S R) {C : List R} (hC : C.length = S.AX * S.BY)
    (loc : Group S → Tiles S R) :
    (matrixMultiply S M.A M.B).EveryRun ((matrixMultiply S M.A M.B).start loc ⟨C, []⟩) ReadsOwn
      fun s => IsProduct S M.A M.B (S.TS * numTiles S) s.glob.C ∧ StoredOnce s.glob := by
  have hsafe : ∀ s, Run M loc C s → (matrixMultiply S M.A M.B).Safe s := fun s hs i f hn =>
    (acts_of_act hF M hn (Run.at hF hs i) _).2 ((Run.tiled hF hC hs).stored.store_isSome i)
  refine ⟨hsafe, ?_, ?_, ?_, ?_⟩
  · intro s hs i
    have htiled := Run.tiled hF hC hs
    split
    · next t k acc hp =>
      intro hk
      rw [htiled.readA hF hs hp hk]
    · next t k acc a hp => rw [htiled.readB hF hs hp]
    · trivial
  · intro s hs
    refine Kernel.exists_step (N := 2 * numTiles S) (hsafe s hs) ?_ ?_
    · intro i hn
      have hat := Run.at hF hs i
      rw [isDone_of_next hn] at hat
      exact hat.ge
    · intro i p hn
      have hat := Run.at hF hs i
      obtain ⟨t, acc, hp, -⟩ | ⟨t, k, acc, hp, -, -⟩ := barrier_cases hn
      · rw [hp] at hat
        have := hat.2
        rw [hat.1]
        omega
      · rw [hp] at hat
        have := hat.2.1
        rw [hat.1]
        omega
  · refine Kernel.ends_of_rank (fun _ => Pc.rank) (I := fun _ p => ∃ n, p.At n) ?_ ?_
      fun i => ⟨0, rfl, Nat.zero_le _⟩
    · rintro i p f m p' m' hn hf ⟨n, hp⟩
      have hacts := (acts_of_act hF M hn hp m).1 _ _ hf
      exact ⟨⟨n, hacts.at hp⟩, hacts.rank_lt⟩
    · rintro i p q hn ⟨n, hp⟩
      exact ⟨⟨n + 1, at_of_barrier hn hp⟩, rank_lt_of_barrier hn⟩
  · intro s hs hfin
    refine (Run.tiled hF hC hs).stored.all fun i => ?_
    rw [isDone_of_next (hfin i)]
    trivial

/-- **The tiled kernel computes what the plain one computes**, for all
matrices and under every schedule: no item faults or blocks the others for
ever, what is read from a tile was stored for the same iteration, every entry
of `C` is stored by one item, and in the end `C` is the product, as it is in
the end of every run of the plain kernel. -/
def Correct (S : Sizes) (R : Type) [Semiring R] : Prop :=
  ∀ (M : Operands S R) (C : List R) (loc : Group S → Tiles S R), C.length = S.AX * S.BY →
    (matrixMultiply S M.A M.B).EveryRun ((matrixMultiply S M.A M.B).start loc ⟨C, []⟩) ReadsOwn
      fun s => IsProduct S M.A M.B S.AY s.glob.C ∧ StoredOnce s.glob
        ∧ ∀ loc' s', (Simple.matrixMultiply S M.A M.B).Reaches
            ((Simple.matrixMultiply S M.A M.B).start loc' ⟨C, []⟩) s' →
          (Simple.matrixMultiply S M.A M.B).Finished s' → s'.glob.C = s.glob.C

/-- Where the tile size divides the inner size, the tiles cover it. -/
theorem tiles_cover (h : S.TS ∣ S.AY) : S.TS * numTiles S = S.AY :=
  Nat.mul_div_cancel' h

/-- Without overflow the tiled kernel is correct. -/
theorem correct_of_fits (h : S.TS ∣ S.AY) (hF : S.Fits) : Correct S R := by
  intro M C loc hC
  refine (everyRun hF M hC loc).mono (fun _ => id) ?_
  rintro s hs ⟨hprod, honce⟩
  rw [tiles_cover h] at hprod
  refine ⟨hprod, honce, ?_⟩
  intro loc' s' hs' hfin'
  exact (((Simple.everyRun hF M hC loc').finished s' hs' hfin').1).unique hprod

/-! ## Overflow -/

/-- The indices of iteration `t` are in range. -/
def LoadFits (i : Item S) (t : ℕ) : Prop :=
  i.globalRow * S.AY + (S.TS * t + i.col) < 2 ^ 31
    ∧ (S.TS * t + i.row) * S.BY + i.globalCol < 2 ^ 31

/-- **The indices an item has computed were in range**. -/
def Pc.Computed (i : Item S) : Pc S R → Prop
  | loop t _ => ∀ t' < t, LoadFits i t'
  | loadB t _ => (∀ t' < t, LoadFits i t')
      ∧ i.globalRow * S.AY + (S.TS * t + i.col) < 2 ^ 31
  | loaded t _ => ∀ t' < t + 1, LoadFits i t'
  | inner t _ _ => ∀ t' < t + 1, LoadFits i t'
  | mul t _ _ _ => ∀ t' < t + 1, LoadFits i t'
  | done => (∀ t' < numTiles S, LoadFits i t') ∧ i.index < 2 ^ 31

omit [Semiring R] in
/-- What `loadA` computes was in range if it has a result. -/
theorem of_loadA {A : List R} {i : Item S} {t : ℕ} {m m' : Tiles S R}
    (h : loadA S A i t m = some m') : i.globalRow * S.AY + (S.TS * t + i.col) < 2 ^ 31 := by
  unfold loadA at h
  obtain ⟨c, hc, h⟩ := Option.bind_eq_some_iff.mp h
  obtain ⟨n, hn, -⟩ := Option.bind_eq_some_iff.mp h
  obtain ⟨rfl, -⟩ := of_flat hc
  exact (of_flat hn).2

omit [Semiring R] in
/-- What `loadB` computes was in range if it has a result. -/
theorem of_loadB {B : List R} {i : Item S} {t : ℕ} {m m' : Tiles S R}
    (h : loadB S B i t m = some m') : (S.TS * t + i.row) * S.BY + i.globalCol < 2 ^ 31 := by
  unfold loadB at h
  obtain ⟨r, hr, h⟩ := Option.bind_eq_some_iff.mp h
  obtain ⟨n, hn, -⟩ := Option.bind_eq_some_iff.mp h
  obtain ⟨rfl, -⟩ := of_flat hr
  exact (of_flat hn).2

/-- An action that has a result computes indices that are in range. -/
theorem computed_of_act {A B : List R} {i : Item S} {p p' : Pc S R} {m m' : Tiles S R × Global S R}
    {f : Tiles S R × Global S R → Option (Pc S R × Tiles S R × Global S R)}
    (hn : (matrixMultiply S A B).next i p = .act f) (hf : f m = some (p', m'))
    (hp : p.Computed i) : p'.Computed i := by
  cases p with
  | loop t acc =>
    by_cases ht : t < numTiles S
    · rw [next_loop ht, Next.act.injEq] at hn
      subst hn
      obtain ⟨m₁, hm₁, he⟩ := Option.map_eq_some_iff.mp hf
      cases he
      exact ⟨hp, of_loadA hm₁⟩
    · rw [next_store ht, Next.act.injEq] at hn
      subst hn
      obtain ⟨g, hg, he⟩ := Option.map_eq_some_iff.mp hf
      cases he
      obtain ⟨n, hn, -⟩ := Option.bind_eq_some_iff.mp hg
      exact ⟨fun t' ht' => hp t' (ht'.trans_le (not_lt.mp ht)), (of_flat hn).2⟩
  | loadB t acc =>
    cases hn
    obtain ⟨m₁, hm₁, he⟩ := Option.map_eq_some_iff.mp hf
    cases he
    intro t' ht'
    rcases Nat.lt_succ_iff_lt_or_eq.mp ht' with h | rfl
    · exact hp.1 t' h
    · exact ⟨hp.2, of_loadB hm₁⟩
  | loaded t acc => cases hn
  | inner t k acc =>
    by_cases hk : k < S.TS
    · rw [next_inner hk, Next.act.injEq] at hn
      subst hn
      cases hf
      exact hp
    · rw [next_innerEnd hk] at hn
      cases hn
  | mul t k acc a =>
    cases hn
    cases hf
    exact hp
  | done => cases hn

/-- **An item that has come to its end has computed all its indices**. -/
theorem Run.computed {M : Operands S R} {loc : Group S → Tiles S R} {C : List R} {s : St S R}
    (h : Run M loc C s) (i : Item S) : (s.priv i).Computed i := by
  refine h.private_state (I := fun i p _ => p.Computed i) (fun i => nofun) ?_ ?_ i
  · intro i p n f m p' m' hn hf hp
    exact computed_of_act hn hf hp
  · intro i p n q hn hp
    obtain ⟨t, acc, rfl, rfl⟩ | ⟨t, k, acc, rfl, -, rfl⟩ := barrier_cases hn
    · exact hp
    · exact hp

/-- In the first group an item's local number is its global one. -/
theorem eq_of_global {n a x k : ℕ} (hx : x < n) (hk : k < n) (h : n * a + x = k) : x = k := by
  have := congrArg (· % n) h
  rwa [Nat.mul_add_mod, Nat.mod_eq_of_lt hx, Nat.mod_eq_of_lt hk] at this

/-- There is an item with a given row of `C` and a given local column. -/
theorem exists_row {r k : ℕ} (hr : r < S.AX) (hk : k < S.TS) :
    ∃ i : Item S, i.globalRow = r ∧ (i.col : ℕ) = k := by
  have hle : S.TS ≤ S.BY := Nat.le_of_dvd S.BY_pos S.TS_dvd_BY
  obtain ⟨i, hi, hc⟩ := Item.exists_item hr (hk.trans_le hle)
  exact ⟨i, hi, eq_of_global i.col.isLt hk hc⟩

/-- There is an item with a given column of `C` and a given local row. -/
theorem exists_col {c k : ℕ} (hc : c < S.BY) (hk : k < S.TS) :
    ∃ i : Item S, i.globalCol = c ∧ (i.row : ℕ) = k := by
  have hle : S.TS ≤ S.AX := Nat.le_of_dvd S.AX_pos S.TS_dvd_AX
  obtain ⟨i, hr, hi⟩ := Item.exists_item (hk.trans_le hle) hc
  exact ⟨i, hi, eq_of_global i.row.isLt hk hr⟩

/-- **A kernel that is correct overflows nowhere**: some run of it comes to
its end, and there all indices have been computed. -/
theorem fits_of_correct (h : S.TS ∣ S.AY) (hR : Correct S R) : S.Fits := by
  obtain ⟨s, hs, hfin, -⟩ := (hR
    ⟨List.replicate _ 0, List.replicate _ 0, List.length_replicate, List.length_replicate⟩
    (List.replicate _ 0) (fun _ => ⟨fun _ _ => ⟨0, none⟩, fun _ _ => ⟨0, none⟩⟩)
    List.length_replicate).exists_finished
  have hdone : ∀ i : Item S, (∀ t < numTiles S, LoadFits i t) ∧ i.index < 2 ^ 31 := by
    intro i
    have hc := Run.computed hs i
    rwa [isDone_of_next (hfin i)] at hc
  have htile : ∀ k < S.AY, k / S.TS < numTiles S := fun k hk => Nat.div_lt_div_of_lt_of_dvd h hk
  refine ⟨le_of_flat_lt fun r hr k hk => ?_, le_of_flat_lt fun k hk c hc => ?_,
    le_of_flat_lt fun r hr c hc => ?_⟩
  · obtain ⟨i, rfl, hi⟩ := exists_row hr (Nat.mod_lt k S.TS_pos)
    have hfit := ((hdone i).1 _ (htile k hk)).1
    rwa [hi, Nat.div_add_mod] at hfit
  · obtain ⟨i, rfl, hi⟩ := exists_col hc (Nat.mod_lt k S.TS_pos)
    have hfit := ((hdone i).1 _ (htile k hk)).2
    rwa [hi, Nat.div_add_mod] at hfit
  · obtain ⟨i, rfl, rfl⟩ := Item.exists_item hr hc
    exact (hdone i).2

/-- **The tiled kernel computes what the plain one computes, under every
schedule, if and only if no index overflows.** -/
theorem tiledCorrect_iff (h : S.TS ∣ S.AY) : Correct S R ↔ S.Fits :=
  ⟨fits_of_correct h, correct_of_fits h⟩

/-- Matrices of 4 times 6 and 6 times 2 in tiles of 2 times 2. -/
theorem correct_four_six_two : Correct (S := ⟨2, 4, 6, 2, by decide, by decide, by decide,
    by decide, by decide, by decide, by decide, by decide, by decide⟩) ℤ :=
  (tiledCorrect_iff (by decide)).mpr (by decide)

/-- Matrices of 2^16 times 2^16: the index of an entry overflows. -/
theorem not_correct_square : ¬ Correct (S := ⟨1, 2 ^ 16, 2 ^ 16, 2 ^ 16, by decide, by decide,
    by decide, by decide, by decide, by decide, by decide, by decide, by decide⟩) ℤ := fun h =>
  absurd (fits_of_correct (one_dvd _) h).1 (by decide)

end Gemm.Localmem
