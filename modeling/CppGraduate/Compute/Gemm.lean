import CppGraduate.Compute.GemmSchedules
import CppGraduate.Compute.Host

/-!
# Matrix multiplication from the host

`OclApp::mmult` of `cl_gemm.cc`: it computes the sizes of three buffers, fills
two of them, launches a kernel and copies the third back. A buffer that was
never written holds anything. The sizes are products of type `int`, converted
to `size_t`, and the buffers are requested in bytes.

The reference is `transpose_mult_ref`, which transposes `B` first.

**Main result**: `mmultCorrect_iff`. From `BPtr` as many elements are copied
as `A` has, so the device gets all of `B`, and no more, where `AX` is `BY`.
Then the plain kernel gives the reference where the products of sizes are in
range. The tiled one does so where moreover the tile size divides the inner
size: what is left of the inner size after the last whole tile it drops.
-/

namespace Gemm

open WorkItems Cxx Cl Loops

/-! ## The reference -/

section

variable {R : Type} [Semiring R]

/-- `transpose_mult_ref` -/
def transposeMultRef (S : Sizes) (A B C : List R) : Option (List R) := do
  let n ← IntType.int.arith (S.BY * S.AY)
  let tmp ← forUpTo S.AY (fun i => forUpTo S.BY fun j tmp => do
    let b ← B[← flat i S.BY j]?
    write tmp (← flat j S.AY i) b) (List.replicate n.toNat 0)
  forUpTo S.AX (fun i => forUpTo S.BY fun j C => do
    let acc ← forUpTo S.AY (fun k acc => do
      let a ← A[← flat i S.AY k]?
      let b ← tmp[← flat j S.AY k]?
      some (acc + a * b)) 0
    write C (← flat i S.BY j) acc) C

end

/-! ## The host -/

/-- What the host has prepared for the launch. -/
structure Launch (R : Type) where
  /-- The buffer `A`. -/
  A : List R
  /-- The buffer `B`. -/
  B : List R
  /-- The buffer `C`. -/
  C : List R
  /-- The number of elements to copy back. -/
  CSz : ℕ

/-- The size of a matrix, and that of its buffer in bytes. -/
def matrixSize (τ : IntType) (X Y : ℕ) : Option (ℕ × ℕ) := do
  let n ← IntType.int.arith (X * Y)
  let sz := IntType.sizeT.convert n
  let bytes ← IntType.sizeT.arith (sz * (τ.width / 8))
  some (sz.toNat, bytes.toNat)

/-- `OclApp::mmult` up to the launch, with elements of type `τ`. -/
def prepare {R : Type} (τ : IntType) (S : Sizes) (APtr BPtr : List R) (old : Fin 3 → ℕ → R) :
    Option (Launch R) := do
  let (ASz, ABufSz) ← matrixSize τ S.AX S.AY
  let (_, BBufSz) ← matrixSize τ S.AY S.BY
  let (CSz, CBufSz) ← matrixSize τ S.AX S.BY
  let A ← createBuffer (τ.width / 8) ABufSz (old 0)
  let B ← createBuffer (τ.width / 8) BBufSz (old 1)
  let C ← createBuffer (τ.width / 8) CBufSz (old 2)
  let A ← copy ASz APtr A
  -- the end of the range is `BPtr + ASz`
  let B ← copy ASz BPtr B
  some ⟨A, B, C, CSz⟩

/-- The kernel files. -/
inductive KernelFile where
  | gemm_simple
  | gemm_localmem

/-- **Every run of a kernel on the device** ends, without a fault, in a
buffer `C` with the property. Local memory holds anything before. -/
def KernelFile.EveryRun (file : KernelFile) {R : Type} [Semiring R] (S : Sizes) (A B C : List R)
    (Q : List R → Prop) : Prop :=
  match file with
  | gemm_simple => ∀ loc, (Simple.matrixMultiply S A B).EveryRun
      ((Simple.matrixMultiply S A B).start loc ⟨C, []⟩) (fun _ => True) fun s => Q s.glob.C
  | gemm_localmem => ∀ loc, (Localmem.matrixMultiply S A B).EveryRun
      ((Localmem.matrixMultiply S A B).start loc ⟨C, []⟩) (fun _ => True) fun s => Q s.glob.C

/-- **`mmult` multiplies matrices**: whatever was in the buffers, the device
gets all of both matrices, and what is copied back after any run of the
kernel is what the reference computes. -/
def MmultCorrect (τ : IntType) (file : KernelFile) (S : Sizes) : Prop :=
  ∀ (M : Operands S ℤ) (CPtr CCPU : List ℤ) (old : Fin 3 → ℕ → ℤ),
    CPtr.length = S.AX * S.BY → CCPU.length = S.AX * S.BY →
    ∃ L, prepare τ S M.A M.B old = some L ∧ L.A = M.A ∧ L.B = M.B ∧
      file.EveryRun S L.A L.B L.C fun C =>
        ∃ res, copy L.CSz C CPtr = some res ∧ transposeMultRef S M.A M.B CCPU = some res

/-! ## Sizes and copies -/

/-- An element has at least one byte, and at most eight. -/
theorem sizeof_bounds (τ : IntType) : 0 < τ.width / 8 ∧ τ.width / 8 ≤ 8 := by
  rcases τ.width_mem with h | h | h | h <;> rw [h] <;> decide

/-- A size in range. -/
theorem matrixSize_of_lt (τ : IntType) {X Y : ℕ} (h : X * Y < 2 ^ 31) :
    matrixSize τ X Y = some (X * Y, X * Y * (τ.width / 8)) := by
  unfold matrixSize
  rw [arith_mul_of_lt h]
  simp only [Option.bind_eq_bind, Option.bind_some]
  rw [convert_sizeT h]
  have := arith_bytes h (sizeof_bounds τ).2
  push_cast at this ⊢
  rw [this]
  rfl

/-- A size out of range has no result. -/
theorem matrixSize_of_le (τ : IntType) {X Y : ℕ} (h : 2 ^ 31 ≤ X * Y) : matrixSize τ X Y = none := by
  unfold matrixSize
  rw [arith_mul_of_le h]
  rfl

/-- **The products of sizes are of type `int`**, on the host as well. -/
def Sizes.HostFits (S : Sizes) : Prop :=
  S.AX * S.AY < 2 ^ 31 ∧ S.AY * S.BY < 2 ^ 31 ∧ S.AX * S.BY < 2 ^ 31

instance (S : Sizes) : Decidable S.HostFits := inferInstanceAs (Decidable (_ ∧ _ ∧ _))

variable {S : Sizes} {τ : IntType}

/-- What fits on the host fits in the kernel. -/
theorem Sizes.HostFits.fits (h : S.HostFits) : S.Fits := ⟨h.1.le, h.2.1.le, h.2.2.le⟩

section

variable {R : Type}

/-- What the host prepares for sizes in range: the device gets all of `A`, and
of `B` what the copy gives it. -/
theorem prepare_of_hostFits (h : S.HostFits) (M : Operands S R) (old : Fin 3 → ℕ → R) :
    prepare τ S M.A M.B old
      = (copy (S.AX * S.AY) M.B ((List.range (S.AY * S.BY)).map (old 1))).map fun B =>
        ⟨M.A, B, (List.range (S.AX * S.BY)).map (old 2), S.AX * S.BY⟩ := by
  have hpos := (sizeof_bounds τ).1
  unfold prepare
  rw [matrixSize_of_lt τ h.1, matrixSize_of_lt τ h.2.1, matrixSize_of_lt τ h.2.2]
  simp only [Option.bind_eq_bind, Option.bind_some]
  rw [createBuffer_mul hpos (Nat.mul_pos S.AX_pos S.AY_pos), Option.bind_some,
    createBuffer_mul hpos (Nat.mul_pos S.AY_pos S.BY_pos), Option.bind_some,
    createBuffer_mul hpos (Nat.mul_pos S.AX_pos S.BY_pos), Option.bind_some,
    copy_all M.A_length (length_buffer ..), Option.bind_some, Option.map_eq_bind]
  rfl

/-- **The device gets all of both matrices** where they are equally large. -/
theorem prepare_of_fits (h : S.HostFits) (hsq : S.AX = S.BY) (M : Operands S R)
    (old : Fin 3 → ℕ → R) :
    prepare τ S M.A M.B old
      = some ⟨M.A, M.B, (List.range (S.AX * S.BY)).map (old 2), S.AX * S.BY⟩ := by
  have hsz : S.AX * S.AY = S.AY * S.BY := by rw [hsq, Nat.mul_comm]
  rw [prepare_of_hostFits h, hsz, copy_all M.B_length (length_buffer ..)]
  rfl

/-- Where the host has a launch, the sizes were in range. -/
theorem fits_of_prepare {A B : List R} {old : Fin 3 → ℕ → R} {L : Launch R}
    (h : prepare τ S A B old = some L) : S.HostFits := by
  obtain ⟨x, hx, h⟩ := Option.bind_eq_some_iff.mp h
  obtain ⟨y, hy, h⟩ := Option.bind_eq_some_iff.mp h
  obtain ⟨z, hz, -⟩ := Option.bind_eq_some_iff.mp h
  have hlt : ∀ {X Y : ℕ} {w : ℕ × ℕ}, matrixSize τ X Y = some w → X * Y < 2 ^ 31 := by
    intro X Y w hw
    by_contra hle
    rw [matrixSize_of_le τ (not_lt.mp hle)] at hw
    cases hw
  exact ⟨hlt hx, hlt hy, hlt hz⟩

variable [Semiring R]

/-- **The reference computes the product.** -/
theorem transposeMultRef_of_fits (h : S.HostFits) (M : Operands S R) {C : List R}
    (hC : C.length = S.AX * S.BY) :
    ∃ res, transposeMultRef S M.A M.B C = some res ∧ IsProduct S M.A M.B S.AY res := by
  have hBY : S.BY * S.AY < 2 ^ 31 := by
    rw [Nat.mul_comm]
    exact h.2.1
  unfold transposeMultRef
  rw [arith_mul_of_lt hBY, Option.bind_eq_bind, Option.bind_some, Int.toNat_natCast]
  obtain ⟨tmp, htmp, hval⟩ := transpose_of_lt M.B_length h.2.1
  rw [htmp, Option.bind_eq_bind, Option.bind_some]
  obtain ⟨res, hres, hlen', hval', -⟩ := forUpTo_fill (X := S.AX) (Y := S.BY) (N := S.AX * S.BY)
    (e := fun i j => i * S.BY + j) (v := fun i j => dot S M.A M.B i j S.AY)
    (f := fun i j C => do
      let acc ← forUpTo S.AY (fun k acc => do
        let a ← M.A[← flat i S.AY k]?
        let b ← tmp[← flat j S.AY k]?
        some (acc + a * b)) 0
      write C (← flat i S.BY j) acc)
    (l := C) hC
    (fun i hi j hj => flat_lt hi hj)
    (fun i hi j hj i' hi' j' hj' he => flat_injective hj hj' he)
    (fun i hi j hj xs hxs => by
      rw [forUpTo_dot (S := S) (A := M.A) (B := M.B) (r := i) (c := j)]
      · rw [Option.bind_eq_bind, Option.bind_some, flat_of_lt ((flat_lt hi hj).trans h.2.2)]
        rfl
      · intro k hk acc
        rw [flat_of_lt ((flat_lt hi hk).trans h.1), flat_of_lt ((flat_lt hj hk).trans hBY)]
        simp only [Option.bind_eq_bind, Option.bind_some]
        rw [M.getElem?_A hi hk, hval k hk j hj]
        rfl)
  exact ⟨res, hres, hlen', fun i hi j hj => hval' i hi j hj⟩

end

/-! ## Correctness -/

/-- The terms a kernel sums up for an entry. -/
def KernelFile.terms (file : KernelFile) (S : Sizes) : ℕ :=
  match file with
  | gemm_simple => S.AY
  | gemm_localmem => S.TS * Localmem.numTiles S

namespace KernelFile

variable {R : Type} [Semiring R] {file : KernelFile} {A B C : List R} {Q Q' : List R → Prop}

/-- What runs show of `C` may be said in other words. -/
theorem EveryRun.mono (h : file.EveryRun S A B C Q) (hQ : ∀ C, Q C → Q' C) :
    file.EveryRun S A B C Q' := by
  cases file with
  | gemm_simple => exact fun loc => Kernel.EveryRun.mono (h loc) (fun _ => id) fun s _ => hQ _
  | gemm_localmem => exact fun loc => Kernel.EveryRun.mono (h loc) (fun _ => id) fun s _ => hQ _

/-- Some run comes to an end, and shows what every run shows. -/
theorem EveryRun.exists_and (h : file.EveryRun S A B C Q) (h' : file.EveryRun S A B C Q') :
    ∃ C', Q C' ∧ Q' C' := by
  cases file with
  | gemm_simple =>
    obtain ⟨s, hs, hfin, hQ⟩ := (h fun _ => ()).exists_finished
    exact ⟨s.glob.C, hQ, (h' fun _ => ()).finished s hs hfin⟩
  | gemm_localmem =>
    have loc : Group S → Localmem.Tiles S R :=
      fun _ => ⟨fun _ _ => ⟨0, none⟩, fun _ _ => ⟨0, none⟩⟩
    obtain ⟨s, hs, hfin, hQ⟩ := (h loc).exists_finished
    exact ⟨s.glob.C, hQ, (h' loc).finished s hs hfin⟩

/-- **What each kernel computes.** -/
theorem everyRun (file : KernelFile) (hF : S.Fits) (M : Operands S R)
    (hC : C.length = S.AX * S.BY) :
    file.EveryRun S M.A M.B C (IsProduct S M.A M.B (file.terms S)) := by
  cases file with
  | gemm_simple =>
    exact fun loc => (Simple.everyRun hF M hC loc).mono (fun _ => id) fun s _ h => h.1
  | gemm_localmem =>
    exact fun loc => (Localmem.everyRun hF M hC loc).mono (fun _ _ => trivial) fun s _ h => h.1

/-- No kernel sums up more terms than there are. -/
theorem terms_le (file : KernelFile) (S : Sizes) : file.terms S ≤ S.AY := by
  cases file with
  | gemm_simple => exact le_refl _
  | gemm_localmem => exact Nat.mul_div_le _ _

/-- **Which kernel sums up all terms.** -/
theorem terms_eq_iff (file : KernelFile) (S : Sizes) :
    file.terms S = S.AY ↔ file = .gemm_simple ∨ S.TS ∣ S.AY := by
  cases file with
  | gemm_simple => exact iff_of_true rfl (Or.inl rfl)
  | gemm_localmem =>
    show S.TS * (S.AY / S.TS) = S.AY ↔ _
    rw [Nat.mul_div_eq_iff_dvd]
    exact (or_iff_right nofun).symm

end KernelFile

/-- A kernel that sums up all terms gives the reference. -/
theorem mmultCorrect_of_terms (h : S.HostFits) (hsq : S.AX = S.BY) {file : KernelFile}
    (hall : file.terms S = S.AY) : MmultCorrect τ file S := by
  intro M CPtr CCPU old hCPtr hCCPU
  obtain ⟨res, hres, hprod⟩ := transposeMultRef_of_fits h M hCCPU
  refine ⟨_, prepare_of_fits h hsq M old, rfl, rfl, ?_⟩
  refine (file.everyRun h.fits M (length_buffer ..)).mono fun C hC => ⟨res, ?_, hres⟩
  rw [hall] at hC
  rw [copy_all hC.length hCPtr, hC.unique hprod]

/-- The matrices of ones. -/
def ones (S : Sizes) : Operands S ℤ :=
  ⟨List.replicate (S.AX * S.AY) 1, List.replicate (S.AY * S.BY) 1, List.length_replicate,
    List.length_replicate⟩

/-- The sum of some terms of the product of the matrices of ones. -/
theorem dot_ones {n : ℕ} (hn : n ≤ S.AY) : dot S (ones S).A (ones S).B 0 0 n = n := by
  unfold dot
  rw [Finset.sum_congr rfl (g := fun _ => (1 : ℤ)) fun k hk => ?_, Finset.sum_const,
    Finset.card_range, nsmul_one]
  have hk : k < S.AY := (Finset.mem_range.mp hk).trans_le hn
  have hA : 0 * S.AY + k < S.AX * S.AY := flat_lt S.AX_pos hk
  have hB : k * S.BY + 0 < S.AY * S.BY := flat_lt hk S.BY_pos
  show (List.replicate _ (1 : ℤ)).getD _ 0 * (List.replicate _ (1 : ℤ)).getD _ 0 = 1
  rw [List.getD_replicate _ hA, List.getD_replicate _ hB, mul_one]

/-- **Where the device gets all of a matrix of ones**, over a buffer of zeros,
as many elements were copied as there are. -/
theorem eq_of_copy_ones {n m : ℕ}
    (h : copy n (List.replicate m (1 : ℤ)) ((List.range m).map fun _ => 0)
      = some (List.replicate m 1)) : n = m := by
  unfold copy at h
  split_ifs at h with hn
  rw [List.length_replicate, length_buffer] at hn
  by_contra hne
  have hlt : n < m := Nat.lt_of_le_of_ne hn.1 hne
  -- the first element that was not copied is still zero
  have hzero : ((List.replicate m (1 : ℤ)).take n ++ ((List.range m).map fun _ => (0 : ℤ)).drop n)[n]?
      = some 0 := by
    rw [List.getElem?_append_right (List.length_take_le _ _), List.length_take,
      List.length_replicate, Nat.min_eq_left hlt.le, Nat.sub_self, List.getElem?_drop,
      Nat.add_zero, List.getElem?_map, List.getElem?_range hlt]
    rfl
  rw [Option.some.inj h, List.getElem?_replicate, if_pos hlt] at hzero
  exact absurd (Option.some.inj hzero) one_ne_zero

/-- **A kernel that gives the reference got both matrices and sums up all
terms**, as its results for the matrices of ones show. -/
theorem terms_of_mmultCorrect {file : KernelFile} (h : MmultCorrect τ file S) :
    S.HostFits ∧ S.AX = S.BY ∧ file.terms S = S.AY := by
  obtain ⟨L, hL, hA, hB, hrun⟩ := h (ones S) (List.replicate _ 0) (List.replicate _ 0) (fun _ _ => 0)
    List.length_replicate List.length_replicate
  have hfits : S.HostFits := fits_of_prepare hL
  have hsq : S.AX = S.BY := by
    rw [prepare_of_hostFits hfits] at hL
    obtain ⟨B', hcopy, rfl⟩ := Option.map_eq_some_iff.mp hL
    have hsz : S.AX * S.AY = S.AY * S.BY := eq_of_copy_ones (hcopy.trans (congrArg some hB))
    exact Nat.eq_of_mul_eq_mul_left S.AY_pos ((Nat.mul_comm _ _).trans hsz)
  refine ⟨hfits, hsq, ?_⟩
  rw [prepare_of_fits hfits hsq] at hL
  cases hL
  obtain ⟨C, hC, res, hcopy, href⟩ :=
    (file.everyRun hfits.fits (ones S) (length_buffer ..)).exists_and hrun
  obtain ⟨res', href', hprod⟩ := transposeMultRef_of_fits hfits (ones S)
    (C := List.replicate (S.AX * S.BY) 0) List.length_replicate
  rw [href, Option.some.injEq] at href'
  rw [copy_all hC.length List.length_replicate, Option.some.injEq] at hcopy
  subst hcopy href'
  have hzero := (hC.entry 0 S.AX_pos 0 S.BY_pos).symm.trans (hprod.entry 0 S.AX_pos 0 S.BY_pos)
  rw [Option.some.injEq, dot_ones (file.terms_le S), dot_ones le_rfl] at hzero
  exact_mod_cast hzero

/-- **`mmult` multiplies matrices if and only if** the products of sizes are in
range, `A` has as many rows as `B` has columns and, with the tiled kernel, the
tile size divides the inner size. -/
theorem mmultCorrect_iff (τ : IntType) (file : KernelFile) (S : Sizes) :
    MmultCorrect τ file S
      ↔ S.HostFits ∧ S.AX = S.BY ∧ (file = .gemm_simple ∨ S.TS ∣ S.AY) := by
  rw [← KernelFile.terms_eq_iff]
  exact ⟨terms_of_mmultCorrect, fun h => mmultCorrect_of_terms h.1 h.2.1 h.2.2⟩

/-- **Two configurations that go wrong**: a matrix of 1 times 2 with one of 2
times 2, where the device does not get the second row of `B`; and one of 2
times 3 with one of 3 times 2, in tiles of 2 times 2, where the last term of
every entry is missing. -/
theorem not_mmultCorrect_examples :
    ¬ MmultCorrect IntType.int .gemm_simple ⟨1, 1, 2, 2, by decide, by decide, by decide, by decide,
      by decide, by decide, by decide, by decide, by decide⟩
    ∧ ¬ MmultCorrect IntType.int .gemm_localmem ⟨2, 2, 3, 2, by decide, by decide, by decide,
      by decide, by decide, by decide, by decide, by decide, by decide⟩ :=
  ⟨fun h => absurd (terms_of_mmultCorrect h).2.1 (by decide),
    fun h => absurd (terms_of_mmultCorrect h).2.2 (by decide)⟩

end Gemm
