import CppGraduate.Compute.HistSchedules
import CppGraduate.Compute.Host

/-!
# The histogram from the host

`OclApp::hist` of `cl_hist.cc`: it creates a buffer for the data and one for
the histogram, copies the data into the first, launches a kernel and copies
the second back. Nothing is ever written to the second before the launch, and
the kernels only add to it.

The reference is `hist_ref`, called with counters that are zero.

**Main result**: `histCorrect_iff`. What is copied back is what the reference
computes if and only if the memory of the new buffer happens to be zero – and
there are data and bins at all, and the sizes are in range.
-/

namespace Hist

open WorkItems Cxx Cl Loops

/-! ## The reference -/

/-- `hist_ref` -/
def histRef (data : List UInt8) (bins : ℕ) (counters : List ℤ) : Option (List ℤ) :=
  forUpTo data.length (fun i counters => do
    let d ← data[i]?
    -- the assertion
    if d.toNat < bins then
      let x ← counters[d.toNat]?
      write counters d.toNat (← IntType.int.arith (x + 1))
    else none) counters

/-! ## The host -/

/-- `DATABLOCK` -/
def DATABLOCK : ℕ := 256

/-- **The arguments of `hist` and the configuration**: data whose values are
all below the number of bins, and a local size that divides the global one,
as the ranges of a launch have to. The sizes are of type `int`. -/
structure Config where
  /-- The data, of `DataSize` elements. -/
  Data : List UInt8
  /-- `HistSize` -/
  HistSize : ℕ
  /-- `GlobalSize` -/
  GlobalSize : ℕ
  /-- `LSZ` -/
  LSZ : ℕ
  DataSize_lt : Data.length < 2 ^ 31
  HistSize_lt : HistSize < 2 ^ 31
  GlobalSize_lt : GlobalSize < 2 ^ 31
  LSZ_lt : LSZ < 2 ^ 31
  GlobalSize_pos : 0 < GlobalSize
  LSZ_pos : 0 < LSZ
  LSZ_dvd : LSZ ∣ GlobalSize * DATABLOCK
  Data_lt : ∀ d ∈ Data, d.toNat < HistSize

/-- What the host has prepared for the launch. -/
structure Prepared where
  /-- The buffer `D`. -/
  D : List UInt8
  /-- The buffer `H`. -/
  H : List (BitVec 32)
  /-- `GlobalRange` -/
  global : ℕ

/-- `OclApp::hist` up to the launch. -/
def prepare (c : Config) (oldD : ℕ → UInt8) (oldH : ℕ → BitVec 32) : Option Prepared := do
  let DataBufSize ← IntType.sizeT.arith (IntType.sizeT.convert c.Data.length * (1 : ℕ))
  let HistBufSize ← IntType.sizeT.arith (IntType.sizeT.convert c.HistSize * (4 : ℕ))
  let D ← createBuffer 1 DataBufSize.toNat oldD
  let H ← createBuffer 4 HistBufSize.toNat oldH
  let D ← copy c.Data.length c.Data D
  let global ← IntType.int.arith (c.GlobalSize * DATABLOCK)
  some ⟨D, H, global.toNat⟩

/-- **The launch** of a kernel with what was prepared. -/
structure Prepared.IsLaunch (P : Prepared) (c : Config) (S : Launch) : Prop where
  data : S.data = P.D
  num_bins : S.num_bins = c.HistSize
  gsize : S.gsize = P.global
  lsize : S.lsize = c.LSZ

/-- The kernel files. -/
inductive KernelFile where
  | hist
  | hist_onlyg_corr

/-- **Every run of a kernel on the device** ends, without a fault, in a
histogram with the property. Local memory holds anything before. -/
def KernelFile.EveryRun (file : KernelFile) (S : Launch) (H : List (BitVec 32))
    (Q : List (BitVec 32) → Prop) : Prop :=
  match file with
  | hist => ∀ loc, (∀ a, (loc a).length = S.num_bins) → (Local.histogram S).EveryRun
      ((Local.histogram S).start loc ⟨H, []⟩) (fun _ => True) fun s => Q s.glob.histogram
  | hist_onlyg_corr => ∀ loc, (OnlyGlobal.histogram S).EveryRun
      ((OnlyGlobal.histogram S).start loc ⟨H, []⟩) (fun _ => True) fun s => Q s.glob.histogram

/-- **`hist` returns the reference histogram** where the memory of the new
buffers holds what is given: what is copied back after any run of the kernel
is what the reference makes of counters that are zero. -/
def HistCorrect (file : KernelFile) (c : Config) (oldD : ℕ → UInt8) (oldH : ℕ → BitVec 32) : Prop :=
  ∀ Hist : List (BitVec 32), Hist.length = c.HistSize →
    ∃ P S, prepare c oldD oldH = some P ∧ P.IsLaunch c S ∧ file.EveryRun S P.H fun H =>
      ∃ res ref, copy c.HistSize H Hist = some res
        ∧ histRef c.Data c.HistSize (List.replicate c.HistSize 0) = some ref
        ∧ res.map BitVec.toInt = ref

/-! ## The reference counts -/

/-- A counter below the largest number of type `int` is counted up. -/
theorem arith_succ {n : ℕ} (h : n + 1 < 2 ^ 31) : IntType.int.arith ((n : ℤ) + 1) = some (n + 1) := by
  have hlo : IntType.int.lo ≤ 0 := IntType.int.lo_nonpos
  have hhi : IntType.int.hi = 2 ^ 31 - 1 := by decide
  exact IntType.arith_of_inRange (by omega) (by omega)

/-- **The reference counts the elements in each bin.** -/
theorem histRef_eq (S : Launch) :
    ∃ ref, histRef S.data S.num_bins (List.replicate S.num_bins 0) = some ref
      ∧ ref.length = S.num_bins ∧ ∀ b < S.num_bins, ref.getD b 0 = S.count b := by
  refine forUpTo_rule (n := S.data.length) (P := fun i (counters : List ℤ) =>
      counters.length = S.num_bins
      ∧ ∀ b < S.num_bins, counters.getD b 0 = ((List.range i).countP (S.bin · = b) : ℤ)) ?_ ?_
  · refine ⟨List.length_replicate, fun b hb => ?_⟩
    rw [List.getD_replicate _ hb]
    rfl
  · rintro i hi counters ⟨hlen, hval⟩
    have hbin : (S.data[i]).toNat = S.bin i := by rw [Launch.bin, List.getD_eq_getElem _ _ hi]
    have hlt : S.bin i < S.num_bins := hbin ▸ S.data_lt _ (List.getElem_mem hi)
    have hlt' : S.bin i < counters.length := by rwa [hlen]
    have hx : counters[S.bin i]? = some (counters.getD (S.bin i) 0) := by
      rw [List.getElem?_eq_getElem hlt', List.getD_eq_getElem _ _ hlt']
    have hle : (List.range i).countP (S.bin · = S.bin i) ≤ i :=
      calc _ ≤ (List.range i).length := List.countP_le_length
        _ = i := List.length_range
    have hadd : IntType.int.arith (counters.getD (S.bin i) 0 + 1)
        = some (counters.getD (S.bin i) 0 + 1) := by
      have := S.num_data_lt
      rw [hval _ hlt]
      exact arith_succ (by omega)
    refine ⟨counters.set (S.bin i) (counters.getD (S.bin i) 0 + 1), ?_, ?_, ?_⟩
    · rw [List.getElem?_eq_getElem hi, Option.bind_eq_bind, Option.bind_some, hbin, if_pos hlt, hx,
        Option.bind_eq_bind, Option.bind_some, hadd, Option.bind_some, write, if_pos hlt']
    · rw [List.length_set, hlen]
    · intro b hb
      rw [getD_set hlt', List.range_succ, List.countP_append, List.countP_singleton]
      by_cases hdb : S.bin i = b
      · subst hdb
        rw [if_pos rfl, hval _ hb, if_pos (decide_eq_true rfl)]
        exact (Int.natCast_succ _).symm
      · rw [if_neg hdb, hval b hb, if_neg (by simpa using hdb), Nat.add_zero]

/-! ## Sizes -/

namespace Config

/-- **There are data and bins, and the sizes are in range.** -/
def Fits (c : Config) (file : KernelFile) : Prop :=
  0 < c.Data.length ∧ 0 < c.HistSize ∧ c.Data.length + c.GlobalSize * DATABLOCK ≤ 2 ^ 31
    ∧ match file with
      | .hist => c.HistSize + c.LSZ ≤ 2 ^ 31
      | .hist_onlyg_corr => True

/-- The launch of a configuration. -/
def launch (c : Config) (hH : 0 < c.HistSize) (hG : c.GlobalSize * DATABLOCK < 2 ^ 31) : Launch where
  lsize := c.LSZ
  groups := c.GlobalSize * DATABLOCK / c.LSZ
  num_bins := c.HistSize
  data := c.Data
  lsize_pos := c.LSZ_pos
  groups_pos := Nat.div_pos (Nat.le_of_dvd (Nat.mul_pos c.GlobalSize_pos (by decide)) c.LSZ_dvd)
    c.LSZ_pos
  num_bins_pos := hH
  gsize_lt := by
    rw [Nat.div_mul_cancel c.LSZ_dvd]
    omega
  num_bins_lt := c.HistSize_lt
  num_data_lt := c.DataSize_lt
  data_lt := c.Data_lt

variable {c : Config} {oldD : ℕ → UInt8} {oldH : ℕ → BitVec 32}

/-- **The device gets all data**, and a histogram of what the memory held. -/
theorem prepare_of_pos (hD : 0 < c.Data.length) (hH : 0 < c.HistSize)
    (hG : c.GlobalSize * DATABLOCK < 2 ^ 31) :
    prepare c oldD oldH
      = some ⟨c.Data, (List.range c.HistSize).map oldH, c.GlobalSize * DATABLOCK⟩ := by
  unfold prepare
  rw [convert_sizeT c.DataSize_lt, convert_sizeT c.HistSize_lt,
    arith_bytes c.DataSize_lt (by decide), arith_bytes c.HistSize_lt (by decide),
    arith_mul_of_lt hG]
  simp only [Option.bind_eq_bind, Option.bind_some, Int.toNat_natCast]
  rw [createBuffer_mul (by decide) hD, Option.bind_some, createBuffer_mul (by decide) hH,
    Option.bind_some, copy_all rfl (length_buffer ..)]
  rfl

/-- Where the host has a launch, there are data and bins and the global size
is in range. -/
theorem of_prepare {P : Prepared} (h : prepare c oldD oldH = some P) :
    0 < c.Data.length ∧ 0 < c.HistSize ∧ c.GlobalSize * DATABLOCK < 2 ^ 31 := by
  unfold prepare at h
  rw [convert_sizeT c.DataSize_lt, convert_sizeT c.HistSize_lt,
    arith_bytes c.DataSize_lt (by decide), arith_bytes c.HistSize_lt (by decide)] at h
  simp only [Option.bind_eq_bind, Option.bind_some, Int.toNat_natCast] at h
  obtain ⟨D, hD, h⟩ := Option.bind_eq_some_iff.mp h
  obtain ⟨H, hH, h⟩ := Option.bind_eq_some_iff.mp h
  obtain ⟨D', -, h⟩ := Option.bind_eq_some_iff.mp h
  obtain ⟨n, hn, -⟩ := Option.bind_eq_some_iff.mp h
  refine ⟨Nat.pos_of_ne_zero fun h0 => ?_, Nat.pos_of_ne_zero fun h0 => ?_, ?_⟩
  · rw [h0, Nat.zero_mul, createBuffer_zero] at hD
    cases hD
  · rw [h0, Nat.zero_mul, createBuffer_zero] at hH
    cases hH
  · by_contra hle
    rw [arith_mul_of_le (not_lt.mp hle)] at hn
    cases hn

end Config

/-- A launch that fits. -/
def KernelFile.LaunchFits (file : KernelFile) (S : Launch) : Prop :=
  match file with
  | hist => S.Fits
  | hist_onlyg_corr => S.DataFits

/-- A configuration fits when its launch does. -/
theorem launchFits_iff {file : KernelFile} {c : Config} {S : Launch} (hdata : S.data = c.Data)
    (hbins : S.num_bins = c.HistSize) (hgsize : S.gsize = c.GlobalSize * DATABLOCK)
    (hlsize : S.lsize = c.LSZ) (hD : 0 < c.Data.length) :
    file.LaunchFits S ↔ c.Fits file := by
  have hH : 0 < c.HistSize := hbins ▸ S.num_bins_pos
  have hdf : S.DataFits ↔ c.Data.length + c.GlobalSize * DATABLOCK ≤ 2 ^ 31 := by
    unfold Launch.DataFits Launch.num_data
    rw [hdata, hgsize]
  cases file with
  | hist =>
    show S.num_bins + S.lsize ≤ 2 ^ 31 ∧ S.DataFits ↔ _ ∧ _ ∧ _ ∧ _
    rw [hbins, hlsize, hdf]
    exact ⟨fun h => ⟨hD, hH, h.2, h.1⟩, fun h => ⟨h.2.2.2, h.2.2.1⟩⟩
  | hist_onlyg_corr =>
    show S.DataFits ↔ _ ∧ _ ∧ _ ∧ _
    rw [hdf]
    exact ⟨fun h => ⟨hD, hH, h, trivial⟩, fun h => h.2.2.1⟩

/-! ## Correctness -/

namespace KernelFile

variable {file : KernelFile} {S : Launch} {H : List (BitVec 32)} {Q Q' : List (BitVec 32) → Prop}

/-- What runs show of the histogram may be said in other words. -/
theorem EveryRun.mono (h : file.EveryRun S H Q) (hQ : ∀ H, Q H → Q' H) :
    file.EveryRun S H Q' := by
  cases file with
  | hist => exact fun loc hloc => Kernel.EveryRun.mono (h loc hloc) (fun _ => id) fun s _ => hQ _
  | hist_onlyg_corr => exact fun loc => Kernel.EveryRun.mono (h loc) (fun _ => id) fun s _ => hQ _

/-- Some run comes to an end, and shows what every run shows. -/
theorem EveryRun.exists_and (h : file.EveryRun S H Q) (h' : file.EveryRun S H Q') :
    ∃ H', Q H' ∧ Q' H' := by
  cases file with
  | hist =>
    obtain ⟨s, hs, hfin, hQ⟩ :=
      (h (fun _ => List.replicate _ 0) fun _ => List.length_replicate).exists_finished
    exact ⟨_, hQ, (h' _ fun _ => List.length_replicate).finished s hs hfin⟩
  | hist_onlyg_corr =>
    obtain ⟨s, hs, hfin, hQ⟩ := (h fun _ => ()).exists_finished
    exact ⟨_, hQ, (h' fun _ => ()).finished s hs hfin⟩

/-- **What each kernel computes.** -/
theorem everyRun (hF : file.LaunchFits S) (hH : H.length = S.num_bins) :
    file.EveryRun S H (IsHistogram S H) := by
  cases file with
  | hist =>
    exact fun loc hloc => (Local.everyRun hF hH hloc).mono (fun _ => id) fun s _ h => h.1
  | hist_onlyg_corr =>
    exact fun loc => (OnlyGlobal.everyRun hF hH loc).mono (fun _ => id) fun s _ h => h.1

/-- A launch whose runs all end fits. -/
theorem launchFits_of_everyRun (h : file.EveryRun S H Q) : file.LaunchFits S := by
  cases file with
  | hist =>
    exact Local.fits_of_everyRun (h (fun _ => List.replicate _ 0) fun _ => List.length_replicate)
  | hist_onlyg_corr => exact OnlyGlobal.dataFits_of_everyRun (h fun _ => ())

end KernelFile

/-- A number of elements is a value of type `int`. -/
theorem toInt_count (S : Launch) (b : ℕ) : (S.count b : BitVec 32).toInt = S.count b := by
  have hle : S.count b ≤ S.num_data := by
    calc S.count b ≤ (List.range S.num_data).length := List.countP_le_length
      _ = S.num_data := List.length_range
  have hlt := S.num_data_lt
  unfold Launch.num_data at hle
  show (BitVec.ofNat 32 (S.count b)).toInt = _
  rw [BitVec.toInt_ofNat']
  exact Int.bmod_eq_of_le (by omega) (by omega)

/-- The device's counters as values of type `int`. -/
theorem map_toInt_eq_iff {new : List (BitVec 32)} {ref : List ℤ} {n : ℕ} (hnew : new.length = n)
    (href : ref.length = n) :
    new.map BitVec.toInt = ref ↔ ∀ b < n, (new.getD b 0).toInt = ref.getD b 0 := by
  constructor
  · rintro rfl b hb
    rw [List.getD_eq_getElem _ _ (by rwa [hnew]), List.getD_eq_getElem _ _ (by rwa [href]),
      List.getElem_map]
  · intro h
    refine List.ext_getElem (by rw [List.length_map, hnew, href]) fun b hb hb' => ?_
    have hbn : b < n := by rwa [href] at hb'
    have := h b hbn
    rwa [List.getD_eq_getElem _ _ (by rwa [hnew]), List.getD_eq_getElem _ _ hb',
      ← List.getElem_map BitVec.toInt] at this

/-- **A histogram is that of the reference where nothing was in the old one.** -/
theorem IsHistogram.eq_ref_iff {S : Launch} {old new : List (BitVec 32)} {ref : List ℤ}
    (h : IsHistogram S old new) (hlen : ref.length = S.num_bins)
    (href : ∀ b < S.num_bins, ref.getD b 0 = S.count b) :
    new.map BitVec.toInt = ref ↔ ∀ b < S.num_bins, old.getD b 0 = 0 := by
  rw [map_toInt_eq_iff h.length hlen]
  refine forall₂_congr fun b hb => ?_
  rw [h.entry b hb, href b hb, ← toInt_count, BitVec.toInt_inj]
  exact add_eq_right

/-- What the memory of the new buffer holds. -/
theorem getD_buffer {n b : ℕ} (hb : b < n) (old : ℕ → BitVec 32) :
    ((List.range n).map old).getD b 0 = old b := by
  rw [List.getD_eq_getElem _ _ (by rwa [length_buffer]), List.getElem_map, List.getElem_range]

variable {file : KernelFile} {c : Config} {oldD : ℕ → UInt8} {oldH : ℕ → BitVec 32}

/-- In range and with zeros in the new buffer, `hist` returns the reference
histogram. -/
theorem histCorrect_of_zero (hF : c.Fits file) (hzero : ∀ b < c.HistSize, oldH b = 0) :
    HistCorrect file c oldD oldH := by
  intro Hist hHist
  obtain ⟨hD, hH, hdata, -⟩ := id hF
  have hG : c.GlobalSize * DATABLOCK < 2 ^ 31 := by omega
  set S := c.launch hH hG with hS
  have hgsize : S.gsize = c.GlobalSize * DATABLOCK := Nat.div_mul_cancel c.LSZ_dvd
  refine ⟨_, S, c.prepare_of_pos hD hH hG, ⟨rfl, rfl, hgsize, rfl⟩, ?_⟩
  have hfits : file.LaunchFits S := (launchFits_iff rfl rfl hgsize rfl hD).mpr hF
  obtain ⟨ref, href, hlen, hval⟩ := histRef_eq S
  refine (KernelFile.everyRun hfits (length_buffer c.HistSize oldH)).mono fun H hH' => ?_
  refine ⟨H, ref, copy_all hH'.length hHist, href, (hH'.eq_ref_iff hlen hval).mpr fun b hb => ?_⟩
  have hb' : b < c.HistSize := hb
  rw [getD_buffer hb', hzero b hb']

/-- **If `hist` returns the reference histogram**, the sizes are in range and
the new buffer holds zeros. -/
theorem zero_of_histCorrect (h : HistCorrect file c oldD oldH) :
    c.Fits file ∧ ∀ b < c.HistSize, oldH b = 0 := by
  obtain ⟨P, S, hP, hS, hrun⟩ := h (List.replicate _ 0) List.length_replicate
  obtain ⟨hD, hH, hG⟩ := c.of_prepare hP
  rw [c.prepare_of_pos hD hH hG, Option.some.injEq] at hP
  subst hP
  have hfits := KernelFile.launchFits_of_everyRun hrun
  refine ⟨(launchFits_iff hS.data hS.num_bins hS.gsize hS.lsize hD).mp hfits, fun b hb => ?_⟩
  have hlenH : ((List.range c.HistSize).map oldH).length = S.num_bins := by
    rw [length_buffer, hS.num_bins]
  obtain ⟨H, hHist, res, ref, hcopy, href, heq⟩ :=
    (KernelFile.everyRun hfits hlenH).exists_and hrun
  rw [copy_all (by rw [hHist.length, hS.num_bins]) List.length_replicate, Option.some.injEq] at hcopy
  subst hcopy
  obtain ⟨ref', href', hlen, hval⟩ := histRef_eq S
  rw [hS.data, hS.num_bins] at href'
  rw [href, Option.some.injEq] at href'
  subst href'
  have hb' : b < S.num_bins := by rwa [hS.num_bins]
  rw [← getD_buffer hb oldH]
  exact (hHist.eq_ref_iff hlen hval).mp heq b hb'

/-- **`hist` returns the reference histogram if and only if the memory of the
new buffer happens to be zero**, there are data and bins, and the sizes are in
range. -/
theorem histCorrect_iff (file : KernelFile) (c : Config) (oldD : ℕ → UInt8)
    (oldH : ℕ → BitVec 32) :
    HistCorrect file c oldD oldH ↔ c.Fits file ∧ ∀ b < c.HistSize, oldH b = 0 :=
  ⟨zero_of_histCorrect, fun h => histCorrect_of_zero h.1 h.2⟩

/-- One element in one bin, and a one in the memory of the new buffer. -/
theorem not_histCorrect_one : ¬ HistCorrect .hist ⟨[0], 1, 1, 1, by decide, by decide, by decide,
    by decide, by decide, by decide, by decide, fun d hd => by rw [List.mem_singleton.mp hd]; decide⟩
    (fun _ => 0) fun _ => 1 := fun h =>
  absurd ((zero_of_histCorrect h).2 0 (by decide)) (by decide)

end Hist
