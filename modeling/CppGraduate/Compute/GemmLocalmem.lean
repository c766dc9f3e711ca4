import CppGraduate.Compute.GemmEntries

/-!
# The tiles of gemm_localmem.cl

The items of a group load two tiles together, one cell of each, and then
every item reads a row of one and a column of the other. A barrier stands
between the loads and the reads, and another before the next loads.

What keeps the reads right is the number of barriers an item has passed: it
tells the iteration it is in (`Pc.At`). In the inner loop of iteration `t`
an item has passed `2 t + 1` of them, so that every other item of its group
is between its loads of that iteration and those of the next, and its cells
hold what it stored in iteration `t` (`tile_of_reached`).

The kernel runs through `AY / TS` tiles, which is all of `AY` where the tile
size divides it.
-/

namespace Gemm.Localmem

open WorkItems Loops

variable {S : Sizes} {R : Type} [Semiring R]

/-! ## What an item stores and when -/

/-- What an item stores to `Asub` in iteration `t`. -/
def aVal (M : Operands S R) (i : Item S) (t : ℕ) : R :=
  M.A.getD (i.globalRow * S.AY + (S.TS * t + i.col)) 0

/-- What an item stores to `Bsub` in iteration `t`. -/
def bVal (M : Operands S R) (i : Item S) (t : ℕ) : R :=
  M.B.getD ((S.TS * t + i.row) * S.BY + i.globalCol) 0

namespace Pc

/-- **Where an item is when it has passed `n` barriers**. -/
def At : Pc S R → ℕ → Prop
  | loop t _, n => n = 2 * t ∧ t ≤ numTiles S
  | loadB t _, n => n = 2 * t ∧ t < numTiles S
  | loaded t _, n => n = 2 * t ∧ t < numTiles S
  | inner t k _, n => n = 2 * t + 1 ∧ t < numTiles S ∧ k ≤ S.TS
  | mul t _ _ _, n => n = 2 * t + 1 ∧ t < numTiles S
  | done, n => n = 2 * numTiles S

/-- The iteration of the last store to `Asub`. -/
def aTile : Pc S R → Option ℕ
  | loop 0 _ => none
  | loop (t + 1) _ => some t
  | loadB t _ => some t
  | loaded t _ => some t
  | inner t _ _ => some t
  | mul t _ _ _ => some t
  | done => none

/-- The iteration of the last store to `Bsub`. -/
def bTile : Pc S R → Option ℕ
  | loop 0 _ => none
  | loop (t + 1) _ => some t
  | loadB 0 _ => none
  | loadB (t + 1) _ => some t
  | loaded t _ => some t
  | inner t _ _ => some t
  | mul t _ _ _ => some t
  | done => none

/-- **The sum of the terms so far**, and the factor that was read. -/
def Summed (M : Operands S R) (i : Item S) : Pc S R → Prop
  | loop t acc => acc = dot S M.A M.B i.globalRow i.globalCol (S.TS * t)
  | loadB t acc => acc = dot S M.A M.B i.globalRow i.globalCol (S.TS * t)
  | loaded t acc => acc = dot S M.A M.B i.globalRow i.globalCol (S.TS * t)
  | inner t k acc => acc = dot S M.A M.B i.globalRow i.globalCol (S.TS * t + k)
  | mul t k acc a => acc = dot S M.A M.B i.globalRow i.globalCol (S.TS * t + k)
      ∧ a = M.A.getD (i.globalRow * S.AY + (S.TS * t + k)) 0
  | done => True

/-- An item at its end. -/
def IsDone : Pc S R → Prop
  | done => True
  | _ => False

/-- How far an item is from its end. -/
def rank : Pc S R → ℕ
  | loop t _ => (numTiles S - t) * (2 * S.TS + 4) + 1
  | loadB t _ => (numTiles S - (t + 1)) * (2 * S.TS + 4) + (2 * S.TS + 4)
  | loaded t _ => (numTiles S - (t + 1)) * (2 * S.TS + 4) + (2 * S.TS + 3)
  | inner t k _ => (numTiles S - (t + 1)) * (2 * S.TS + 4) + (2 * (S.TS - k) + 2)
  | mul t k _ _ => (numTiles S - (t + 1)) * (2 * S.TS + 4) + (2 * (S.TS - k) + 1)
  | done => 0

end Pc

/-! ## One action -/

/-- **What an item can do in one action**: load a cell of either tile, read
one of either tile, or store its entry. -/
inductive Acts (M : Operands S R) (i : Item S) :
    Pc S R → Tiles S R × Global S R → Pc S R → Tiles S R × Global S R → Prop
  | loadA {t : ℕ} {acc : R} {m : Tiles S R × Global S R} (ht : t < numTiles S) :
    Acts M i (.loop t acc) m (.loadB t acc)
      ({ m.1 with Asub := setCell m.1.Asub i.col i.row ⟨aVal M i t, some t⟩ }, m.2)
  | loadB {t : ℕ} {acc : R} {m : Tiles S R × Global S R} (ht : t < numTiles S) :
    Acts M i (.loadB t acc) m (.loaded t acc)
      ({ m.1 with Bsub := setCell m.1.Bsub i.col i.row ⟨bVal M i t, some t⟩ }, m.2)
  | readA {t k : ℕ} {acc : R} {m : Tiles S R × Global S R} (hk : k < S.TS) :
    Acts M i (.inner t k acc) m (.mul t ⟨k, hk⟩ acc (m.1.Asub ⟨k, hk⟩ i.row).val) m
  | readB {t : ℕ} {k : Fin S.TS} {acc a : R} {m : Tiles S R × Global S R} :
    Acts M i (.mul t k acc a) m (.inner t (k + 1) (acc + a * (m.1.Bsub i.col k).val)) m
  | store {acc : R} {m : Tiles S R × Global S R} {g : Global S R}
      (hg : m.2.store i i.index acc = some g) :
    Acts M i (.loop (numTiles S) acc) m .done (m.1, g)

/-- The tiles lie within the columns of `A`. -/
theorem tile_lt {t : ℕ} (ht : t < numTiles S) (k : Fin S.TS) : S.TS * t + k < S.AY :=
  calc S.TS * t + k < S.TS * t + S.TS := Nat.add_lt_add_left k.isLt _
    _ = S.TS * (t + 1) := (Nat.mul_succ _ _).symm
    _ ≤ S.TS * numTiles S := Nat.mul_le_mul_left _ ht
    _ ≤ S.AY := Nat.mul_div_le _ _

/-- The load of a cell of `Asub`. -/
theorem loadA_of_fits (hF : S.Fits) (M : Operands S R) (i : Item S) {t : ℕ} (ht : t < numTiles S)
    (m : Tiles S R) :
    loadA S M.A i t m
      = some { m with Asub := setCell m.Asub i.col i.row ⟨aVal M i t, some t⟩ } := by
  have hk := tile_lt ht i.col
  unfold loadA
  rw [flat_of_lt (hk.trans S.AY_lt)]
  simp only [Option.bind_eq_bind, Option.bind_some]
  rw [flat_of_lt ((flat_lt i.globalRow_lt hk).trans_le hF.1), Option.bind_some,
    M.getElem?_A i.globalRow_lt hk, Option.bind_some]
  rfl

/-- The load of a cell of `Bsub`. -/
theorem loadB_of_fits (hF : S.Fits) (M : Operands S R) (i : Item S) {t : ℕ} (ht : t < numTiles S)
    (m : Tiles S R) :
    loadB S M.B i t m
      = some { m with Bsub := setCell m.Bsub i.col i.row ⟨bVal M i t, some t⟩ } := by
  have hk := tile_lt ht i.row
  unfold loadB
  rw [flat_of_lt (hk.trans S.AY_lt)]
  simp only [Option.bind_eq_bind, Option.bind_some]
  rw [flat_of_lt ((flat_lt hk i.globalCol_lt).trans_le hF.2.1), Option.bind_some,
    M.getElem?_B hk i.globalCol_lt, Option.bind_some]
  rfl

section

variable {A B : List R} {i : Item S}

/-- In the loop over the tiles. -/
theorem next_loop {t : ℕ} (ht : t < numTiles S) (acc : R) :
    (matrixMultiply S A B).next i (.loop t acc)
      = .act fun m => (loadA S A i t m.1).map (.loadB t acc, ·, m.2) :=
  if_pos ht

/-- After the loop over the tiles. -/
theorem next_store {t : ℕ} (ht : ¬ t < numTiles S) (acc : R) :
    (matrixMultiply S A B).next i (.loop t acc)
      = .act fun m => (m.2.storeEntry i acc).map (.done, m.1, ·) :=
  if_neg ht

/-- In the inner loop. -/
theorem next_inner {t k : ℕ} (hk : k < S.TS) (acc : R) :
    (matrixMultiply S A B).next i (.inner t k acc)
      = .act fun m => some (.mul t ⟨k, hk⟩ acc (m.1.Asub ⟨k, hk⟩ i.row).val, m) :=
  dif_pos hk

/-- After the inner loop. -/
theorem next_innerEnd {t k : ℕ} (hk : ¬ k < S.TS) (acc : R) :
    (matrixMultiply S A B).next i (.inner t k acc) = .barrier (.loop (t + 1) acc) :=
  dif_neg hk

/-- **Barriers** stand after the loads and after the inner loop. -/
theorem barrier_cases {p q : Pc S R} (hn : (matrixMultiply S A B).next i p = .barrier q) :
    (∃ t acc, p = .loaded t acc ∧ q = .inner t 0 acc)
      ∨ ∃ t k acc, p = .inner t k acc ∧ S.TS ≤ k ∧ q = .loop (t + 1) acc := by
  cases p with
  | loop t acc =>
    by_cases ht : t < numTiles S
    · rw [next_loop ht] at hn
      cases hn
    · rw [next_store ht] at hn
      cases hn
  | loadB t acc => cases hn
  | loaded t acc =>
    cases hn
    exact Or.inl ⟨t, acc, rfl, rfl⟩
  | inner t k acc =>
    by_cases hk : k < S.TS
    · rw [next_inner hk] at hn
      cases hn
    · rw [next_innerEnd hk] at hn
      cases hn
      exact Or.inr ⟨t, k, acc, rfl, not_lt.mp hk, rfl⟩
  | mul t k acc a => cases hn
  | done => cases hn

/-- Only at its end has an item nothing to do. -/
theorem isDone_of_next {p : Pc S R} (hn : (matrixMultiply S A B).next i p = .done) :
    p = .done := by
  cases p with
  | loop t acc =>
    by_cases ht : t < numTiles S
    · rw [next_loop ht] at hn
      cases hn
    · rw [next_store ht] at hn
      cases hn
  | loadB t acc => cases hn
  | loaded t acc => cases hn
  | inner t k acc =>
    by_cases hk : k < S.TS
    · rw [next_inner hk] at hn
      cases hn
    · rw [next_innerEnd hk] at hn
      cases hn
  | mul t k acc a => cases hn
  | done => rfl

end

/-- **Every action is one of these**, and has a result as long as the store
of the entry has one. -/
theorem acts_of_act (hF : S.Fits) (M : Operands S R) {i : Item S} {p : Pc S R} {n : ℕ}
    {f : Tiles S R × Global S R → Option (Pc S R × Tiles S R × Global S R)}
    (hn : (matrixMultiply S M.A M.B).next i p = .act f) (hp : p.At n) (m : Tiles S R × Global S R) :
    (∀ p' m', f m = some (p', m') → Acts M i p m p' m')
      ∧ ((∀ x, (m.2.store i i.index x).isSome) → (f m).isSome) := by
  cases p with
  | loop t acc =>
    by_cases ht : t < numTiles S
    · rw [next_loop ht, Next.act.injEq] at hn
      subst hn
      simp only [loadA_of_fits hF M i ht, Option.map_some, Option.some.injEq]
      refine ⟨?_, fun _ => rfl⟩
      intro p' m' he
      cases he
      exact .loadA ht
    · rw [next_store ht, Next.act.injEq] at hn
      subst hn
      obtain rfl : t = numTiles S := le_antisymm hp.2 (not_lt.mp ht)
      simp only [storeEntry_of_fits hF]
      refine ⟨?_, fun hs => by rw [Option.isSome_map]; exact hs acc⟩
      intro p' m' he
      obtain ⟨g, hg, he⟩ := Option.map_eq_some_iff.mp he
      cases he
      exact .store hg
  | loadB t acc =>
    cases hn
    simp only [loadB_of_fits hF M i hp.2, Option.map_some, Option.some.injEq]
    refine ⟨?_, fun _ => rfl⟩
    intro p' m' he
    cases he
    exact .loadB hp.2
  | loaded t acc => cases hn
  | inner t k acc =>
    by_cases hk : k < S.TS
    · rw [next_inner hk, Next.act.injEq] at hn
      subst hn
      refine ⟨?_, fun _ => rfl⟩
      intro p' m' he
      cases he
      exact .readA hk
    · rw [next_innerEnd hk] at hn
      cases hn
  | mul t k acc a =>
    cases hn
    refine ⟨?_, fun _ => rfl⟩
    intro p' m' he
    cases he
    exact .readB
  | done => cases hn

/-- An action does not pass a barrier. -/
theorem Acts.at {M : Operands S R} {i : Item S} {p p' : Pc S R} {m m' : Tiles S R × Global S R}
    {n : ℕ} (h : Acts M i p m p' m') (hp : p.At n) : p'.At n := by
  cases h with
  | loadA ht => exact ⟨hp.1, ht⟩
  | loadB ht => exact hp
  | readA hk => exact ⟨hp.1, hp.2.1⟩
  | @readB t k acc a m => exact ⟨hp.1, hp.2, k.isLt⟩
  | store hg => exact hp.1

/-- A barrier takes an item to the next phase. -/
theorem at_of_barrier {A B : List R} {i : Item S} {p q : Pc S R} {n : ℕ}
    (hn : (matrixMultiply S A B).next i p = .barrier q) (hp : p.At n) : q.At (n + 1) := by
  obtain ⟨t, acc, rfl, rfl⟩ | ⟨t, k, acc, rfl, hk, rfl⟩ := barrier_cases hn
  · obtain ⟨rfl, ht⟩ := hp
    exact ⟨rfl, ht, Nat.zero_le _⟩
  · obtain ⟨rfl, ht, -⟩ := hp
    exact ⟨rfl, ht⟩

/-- An action brings an item closer to its end. -/
theorem Acts.rank_lt {M : Operands S R} {i : Item S} {p p' : Pc S R}
    {m m' : Tiles S R × Global S R} (h : Acts M i p m p' m') : p'.rank < p.rank := by
  cases h with
  | @loadA t acc m ht =>
    have : (numTiles S - t) * (2 * S.TS + 4)
        = (numTiles S - (t + 1)) * (2 * S.TS + 4) + (2 * S.TS + 4) := by
      rw [← Nat.succ_mul]
      congr 1
      omega
    simp only [Pc.rank]
    omega
  | loadB ht =>
    simp only [Pc.rank]
    omega
  | readA hk =>
    simp only [Pc.rank]
    omega
  | @readB t k acc a m =>
    have := k.isLt
    simp only [Pc.rank]
    omega
  | store hg => exact Nat.succ_pos _

/-- So does a barrier. -/
theorem rank_lt_of_barrier {A B : List R} {i : Item S} {p q : Pc S R}
    (hn : (matrixMultiply S A B).next i p = .barrier q) : q.rank < p.rank := by
  obtain ⟨t, acc, rfl, rfl⟩ | ⟨t, k, acc, rfl, hk, rfl⟩ := barrier_cases hn
  · simp only [Pc.rank]
    omega
  · simp only [Pc.rank]
    omega

end Gemm.Localmem
