import CppGraduate.Compute.GemmEntries

/-!
# What gemm_simple.cl computes

The plain kernel has no barrier and no local memory, and the buffers it
reads are not written, so each of its work-items can be followed on its own:
in its loop it has summed up the terms so far.

**Main result**: `Simple.everyRun`, under every schedule the kernel ends
with the product in `C`.
-/

namespace Gemm.Simple

open WorkItems Loops

variable {S : Sizes} {R : Type} [Semiring R]

/-- A work-item at its end. -/
def Pc.IsDone : Pc R → Prop
  | .done => True
  | _ => False

/-- **What a work-item knows**: in the loop, the sum of the terms so far. -/
def Pc.Summed (S : Sizes) (A B : List R) (i : Item S) : Pc R → Prop
  | .loop k sum => k ≤ S.AY ∧ sum = dot S A B i.globalRow i.globalCol k
  | .done => True

/-- How far a work-item is from its end. -/
def Pc.rank (S : Sizes) : Pc R → ℕ
  | .loop k _ => S.AY - k + 1
  | .done => 0

/-- The body of the loop adds the next term. -/
theorem body_of_fits (hF : S.Fits) (M : Operands S R) (i : Item S) {k : ℕ} (hk : k < S.AY)
    (sum : R) :
    body S M.A M.B i k sum
      = some (.loop (k + 1) (sum + M.A.getD (i.globalRow * S.AY + k) 0
        * M.B.getD (k * S.BY + i.globalCol) 0)) := by
  have hA := flat_lt i.globalRow_lt hk
  have hB := flat_lt hk i.globalCol_lt
  unfold body
  rw [flat_of_lt (hA.trans_le hF.1), flat_of_lt (hB.trans_le hF.2.1)]
  simp only [Option.bind_eq_bind, Option.bind_some, M.getElem?_A i.globalRow_lt hk,
    M.getElem?_B hk i.globalCol_lt]

/-- In the loop. -/
theorem next_loop {A B : List R} {i : Item S} {k : ℕ} (hk : k < S.AY) (sum : R) :
    (matrixMultiply S A B).next i (.loop k sum)
      = .act fun m => (body S A B i k sum).map (·, m) :=
  if_pos hk

/-- After the loop. -/
theorem next_store {A B : List R} {i : Item S} {k : ℕ} (hk : ¬ k < S.AY) (sum : R) :
    (matrixMultiply S A B).next i (.loop k sum)
      = .act fun m => (m.2.storeEntry i sum).map (.done, m.1, ·) :=
  if_neg hk

/-- **One action of a work-item**, in a state where it knows the sum so far:
it is in the loop and adds a term, or after it and stores the entry. -/
theorem act_cases (hF : S.Fits) (M : Operands S R) {i : Item S} {p : Pc R}
    {f : Unit × Global S R → Option (Pc R × Unit × Global S R)}
    (hn : (matrixMultiply S M.A M.B).next i p = .act f) (hp : p.Summed S M.A M.B i) :
    ¬ p.IsDone ∧
      ((∃ p' : Pc R, ¬ p'.IsDone ∧ p'.Summed S M.A M.B i ∧ p'.rank S < p.rank S
          ∧ ∀ m, f m = some (p', m))
        ∨ (0 < p.rank S ∧ ∀ m, f m
          = (m.2.store i i.index (dot S M.A M.B i.globalRow i.globalCol S.AY)).map
            (.done, m.1, ·))) := by
  cases p with
  | done => cases hn
  | loop k sum =>
    refine ⟨id, ?_⟩
    obtain ⟨hk, rfl⟩ := hp
    by_cases hlt : k < S.AY
    · rw [next_loop hlt, Next.act.injEq] at hn
      subst hn
      refine Or.inl ⟨.loop (k + 1) _, id, ⟨hlt, rfl⟩, ?_, fun m => ?_⟩
      · show S.AY - (k + 1) + 1 < S.AY - k + 1
        omega
      · rw [body_of_fits hF M i hlt, dot_succ]
        rfl
    · rw [next_store hlt, Next.act.injEq] at hn
      subst hn
      obtain rfl : k = S.AY := by omega
      refine Or.inr ⟨Nat.succ_pos _, fun m => ?_⟩
      show (m.2.storeEntry i _).map _ = _
      rw [storeEntry_of_fits hF]

/-- An action keeps what the work-item knows and brings it closer to its
end. -/
theorem summed_of_act (hF : S.Fits) (M : Operands S R) {i : Item S} {p p' : Pc R}
    {f : Unit × Global S R → Option (Pc R × Unit × Global S R)} {m m' : Unit × Global S R}
    (hn : (matrixMultiply S M.A M.B).next i p = .act f) (hf : f m = some (p', m'))
    (hp : p.Summed S M.A M.B i) : p'.Summed S M.A M.B i ∧ p'.rank S < p.rank S := by
  obtain ⟨-, ⟨q, -, hq, hlt, hfq⟩ | ⟨hpos, hfs⟩⟩ := act_cases hF M hn hp
  · rw [hfq m] at hf
    cases hf
    exact ⟨hq, hlt⟩
  · rw [hfs m, Option.map_eq_some_iff] at hf
    obtain ⟨g, -, hg⟩ := hf
    cases hg
    exact ⟨trivial, hpos⟩

/-- No work-item comes to a barrier. -/
theorem next_ne_barrier {A B : List R} {i : Item S} {p q : Pc R} :
    (matrixMultiply S A B).next i p ≠ .barrier q := by
  cases p with
  | loop k sum =>
    by_cases hk : k < S.AY
    · rw [next_loop hk]
      nofun
    · rw [next_store hk]
      nofun
  | done => nofun

/-- Only at its end has a work-item nothing to do. -/
theorem isDone_of_next {A B : List R} {i : Item S} {p : Pc R}
    (h : (matrixMultiply S A B).next i p = .done) : p.IsDone := by
  cases p with
  | done => trivial
  | loop k sum =>
    by_cases hk : k < S.AY
    · rw [next_loop hk] at h
      cases h
    · rw [next_store hk] at h
      cases h

/-- **Under every schedule the plain kernel ends with the product in `C`**,
each entry stored once. -/
theorem everyRun (hF : S.Fits) (M : Operands S R) {C : List R} (hC : C.length = S.AX * S.BY)
    (loc : Group S → Unit) :
    (matrixMultiply S M.A M.B).EveryRun ((matrixMultiply S M.A M.B).start loc ⟨C, []⟩)
      (fun _ => True) fun s => IsProduct S M.A M.B S.AY s.glob.C ∧ StoredOnce s.glob := by
  set K := matrixMultiply S M.A M.B
  have hsum : ∀ s, K.Reaches (K.start loc ⟨C, []⟩) s → ∀ i, (s.priv i).Summed S M.A M.B i := by
    intro s hs
    refine hs.private_state (I := fun i p _ => p.Summed S M.A M.B i) ?_ ?_ ?_
    · exact fun i => ⟨Nat.zero_le _, rfl⟩
    · exact fun i p n f m p' m' hn hf hp => (summed_of_act hF M hn hf hp).1
    · exact fun i p n q hn => absurd hn next_ne_barrier
  have hstored : ∀ s, K.Reaches (K.start loc ⟨C, []⟩) s →
      Stored (fun i => (s.priv i).IsDone) (dot S M.A M.B · · S.AY) s.glob := by
    intro s hs
    refine hs.invariant
      (P := fun s => Stored (fun i => (s.priv i).IsDone) (dot S M.A M.B · · S.AY) s.glob)
      (Stored.start hC |>.congr fun i => Iff.rfl) ?_
    intro s s' hr ih hstep
    cases hstep with
    | @act i f p m hn hf =>
      obtain ⟨hd, ⟨q, hq, -, -, hfq⟩ | ⟨-, hfs⟩⟩ := act_cases hF M hn (hsum s hr i)
      · rw [hfq] at hf
        cases hf
        exact ih.acted hd (Or.inl ⟨hq, rfl⟩)
      · rw [hfs, Option.map_eq_some_iff] at hf
        obtain ⟨g, hg, hpm⟩ := hf
        cases hpm
        exact ih.acted hd (Or.inr ⟨trivial, hg⟩)
    | @pass i p hn hall => exact absurd hn next_ne_barrier
  have hsafe : ∀ s, K.Reaches (K.start loc ⟨C, []⟩) s → K.Safe s := by
    intro s hs i f hn
    obtain ⟨-, ⟨q, -, -, -, hfq⟩ | ⟨-, hfs⟩⟩ := act_cases hF M hn (hsum s hs i)
    · rw [hfq]
      rfl
    · rw [hfs, Option.isSome_map]
      exact (hstored s hs).store_isSome i _
  refine ⟨hsafe, fun _ _ => trivial, ?_, ?_, ?_⟩
  · intro s hs
    exact Kernel.exists_step (N := 0) (hsafe s hs) (fun _ _ => Nat.zero_le _)
      fun _ _ hn => absurd hn next_ne_barrier
  · refine Kernel.ends_of_rank (fun _ => Pc.rank S) (I := fun i p => p.Summed S M.A M.B i) ?_ ?_
      fun i => ⟨Nat.zero_le _, rfl⟩
    · intro i p f m p' m' hn hf hp
      exact summed_of_act hF M hn hf hp
    · exact fun i p q hn => absurd hn next_ne_barrier
  · intro s hs hfin
    exact (hstored s hs).all fun i => isDone_of_next (hfin i)

end Gemm.Simple
