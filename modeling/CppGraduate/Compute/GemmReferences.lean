import CppGraduate.Compute.Gemm

/-!
# The two references

`matrix_mult_ref` and `transpose_mult_ref` of `cl_gemm.cc` multiply on the
host, the second one after it has transposed `B`. Both compute flat indices
in type `int`. What they write to `C` is logged, for the statement alone.

**Main result**: `referencesAgree_iff`. Both write the entries of the product,
each once and in order, where the last index into every matrix is of type
`int`; `transpose_mult_ref` computes the size of its temporary matrix in
type `int` as well, which is one more than the last index.
-/

namespace Gemm

open Cxx Cl Loops

/-! ## The functions -/

/-- **The sizes** of the matrices, positive and of type `int`. -/
structure Shape where
  /-- The rows of `A`. -/
  AX : ℕ
  /-- The columns of `A`. -/
  AY : ℕ
  /-- The columns of `B`. -/
  BY : ℕ
  AX_pos : 0 < AX
  AY_pos : 0 < AY
  BY_pos : 0 < BY
  AX_lt : AX < 2 ^ 31
  AY_lt : AY < 2 ^ 31
  BY_lt : BY < 2 ^ 31

/-- The sizes of a launch with tiles of one entry. -/
def Shape.sizes (S : Shape) : Sizes where
  TS := 1
  AX := S.AX
  AY := S.AY
  BY := S.BY
  TS_pos := Nat.one_pos
  AX_pos := S.AX_pos
  AY_pos := S.AY_pos
  BY_pos := S.BY_pos
  AX_lt := S.AX_lt
  AY_lt := S.AY_lt
  BY_lt := S.BY_lt
  TS_dvd_AX := Nat.one_dvd _
  TS_dvd_BY := Nat.one_dvd _

/-- **The matrix `C`**, and the indices it was written at. -/
structure Output (R : Type) where
  /-- `C` -/
  C : List R
  /-- The indices, in order. -/
  writes : List ℕ

section

variable {R : Type}

/-- `C[n] = x` -/
def Output.write (out : Output R) (n : ℕ) (x : R) : Option (Output R) := do
  let C ← Loops.write out.C n x
  some ⟨C, out.writes ++ [n]⟩

variable [Semiring R]

/-- `matrix_mult_ref(A, B, C, AX, AY, BY)` -/
def matrixMultRef (S : Shape) (A B : List R) (C : Output R) : Option (Output R) :=
  forUpTo S.AX (fun i => forUpTo S.BY fun j C => do
    let acc ← forUpTo S.AY (fun k acc => do
      let a ← A[← flat i S.AY k]?
      let b ← B[← flat k S.BY j]?
      some (acc + a * b)) 0
    C.write (← flat i S.BY j) acc) C

/-- `transpose_mult_ref(A, B, C, AX, AY, BY)`, with what it writes to `C`
logged. -/
def transposeMultLogged (S : Shape) (A B : List R) (C : Output R) : Option (Output R) := do
  let n ← IntType.int.arith (S.BY * S.AY)
  let tmp ← forUpTo S.AY (fun i => forUpTo S.BY fun j tmp => do
    let b ← B[← flat i S.BY j]?
    write tmp (← flat j S.AY i) b) (List.replicate n.toNat 0)
  forUpTo S.AX (fun i => forUpTo S.BY fun j C => do
    let acc ← forUpTo S.AY (fun k acc => do
      let a ← A[← flat i S.AY k]?
      let b ← tmp[← flat j S.AY k]?
      some (acc + a * b)) 0
    C.write (← flat i S.BY j) acc) C

end

/-! ## What they are to do -/

/-- **The references agree**: both come to their end, so that every index is
in range, both have written every entry of `C` once and nothing else, and
every entry has the same value. -/
def ReferencesAgree (R : Type) [Semiring R] (S : Shape) : Prop :=
  ∀ (M : Operands S.sizes R) (C C' : List R), C.length = S.AX * S.BY → C'.length = S.AX * S.BY →
    ∃ out out', matrixMultRef S M.A M.B ⟨C, []⟩ = some out
      ∧ transposeMultLogged S M.A M.B ⟨C', []⟩ = some out'
      ∧ (out.writes.Perm (List.range (S.AX * S.BY)) ∧ out'.writes.Perm (List.range (S.AX * S.BY)))
      ∧ ∀ i < S.AX, ∀ j < S.BY, ∃ v,
        out.C[i * S.BY + j]? = some v ∧ out'.C[i * S.BY + j]? = some v

/-- The last index into each matrix is of type `int`, and so is the size of
the transposed one. -/
def Shape.Fits (S : Shape) : Prop :=
  S.AX * S.AY ≤ 2 ^ 31 ∧ S.AY * S.BY < 2 ^ 31 ∧ S.AX * S.BY ≤ 2 ^ 31

/-! ## Forgetting the log -/

section Forget

variable {σ τ : Type} {g : σ → τ}

/-- A loop on a state of which only a part matters. -/
theorem forUpTo_map {n : ℕ} {f : ℕ → σ → Option σ} {f' : ℕ → τ → Option τ}
    (h : ∀ i s, (f i s).map g = f' i (g s)) (s : σ) :
    (forUpTo n f s).map g = forUpTo n f' (g s) := by
  induction n with
  | zero => rfl
  | succ n ih =>
    rw [forUpTo_succ, forUpTo_succ, ← ih]
    cases forUpTo n f s with
    | none => rfl
    | some t => exact h n t

end Forget

section

variable {R : Type}

/-- A write without its log. -/
theorem Output.write_map (out : Output R) (n : ℕ) (x : R) :
    (out.write n x).map Output.C = Loops.write out.C n x := by
  unfold Output.write
  cases Loops.write out.C n x <;> rfl

variable [Semiring R]

/-- **Without the log** the second function is the reference of the device
code. -/
theorem transposeMultLogged_map (S : Shape) (A B : List R) (out : Output R) :
    (transposeMultLogged S A B out).map Output.C = transposeMultRef S.sizes A B out.C := by
  unfold transposeMultLogged transposeMultRef
  show Option.map _ (Option.bind _ _) = Option.bind (IntType.int.arith (S.BY * S.AY)) _
  rw [Option.map_bind]
  refine Option.bind_congr fun n _ => ?_
  show Option.map _ (Option.bind _ _) = Option.bind (forUpTo S.AY _ _) _
  rw [Option.map_bind]
  refine Option.bind_congr fun tmp _ => ?_
  refine forUpTo_map (fun i s => forUpTo_map (fun j t => ?_) s) out
  show Option.map _ (Option.bind _ _) = Option.bind (forUpTo S.AY _ _) _
  rw [Option.map_bind]
  refine Option.bind_congr fun acc _ => ?_
  show Option.map _ (Option.bind _ _) = Option.bind (flat i S.BY j) _
  rw [Option.map_bind]
  exact Option.bind_congr fun n _ => t.write_map n acc

end

/-! ## What both do -/

section

variable {R : Type}

/-- A write within the matrix. -/
theorem Output.write_of_lt {out : Output R} {n : ℕ} (h : n < out.C.length) (x : R) :
    out.write n x = some ⟨out.C.set n x, out.writes ++ [n]⟩ := by
  unfold Output.write Loops.write
  rw [if_pos h]
  rfl

/-- **Writing row by row**: a nested loop that writes the value of entry
`i, j` in its place writes at all indices in order. -/
theorem forUpTo_write {X Y : ℕ} {v : ℕ → ℕ → R} {f : ℕ → ℕ → Output R → Option (Output R)}
    (hf : ∀ i < X, ∀ j < Y, ∀ out, f i j out = out.write (i * Y + j) (v i j)) {C : List R}
    (hC : C.length = X * Y) :
    ∃ out, forUpTo X (fun i => forUpTo Y (f i)) ⟨C, []⟩ = some out
      ∧ out.writes = List.range (X * Y)
      ∧ ∀ i < X, ∀ j < Y, out.C[i * Y + j]? = some (v i j) := by
  -- the entries before `i, j` have been written, and these are as many as its index says
  let P (i j : ℕ) (out : Output R) : Prop :=
    out.C.length = X * Y ∧ out.writes = List.range (i * Y + j)
      ∧ ∀ i' < X, ∀ j' < Y, i' * Y + j' < i * Y + j → out.C[i' * Y + j']? = some (v i' j')
  have hrow : ∀ i < X, ∀ out, P i 0 out →
      ∃ out', forUpTo Y (f i) out = some out' ∧ P (i + 1) 0 out' := by
    intro i hi out hP
    obtain ⟨out', hout', hP'⟩ := forUpTo_rule (P := P i) (f := f i) (n := Y) hP (by
      rintro j hj out ⟨hlen, hwrites, hval⟩
      have hlt : i * Y + j < out.C.length := hlen ▸ flat_lt hi hj
      refine ⟨_, (hf i hi j hj out).trans (out.write_of_lt hlt _), ?_, ?_, ?_⟩
      · exact List.length_set.trans hlen
      · rw [hwrites, ← Nat.add_assoc, List.range_succ]
      · intro i' hi' j' hj' hle
        rw [← Nat.add_assoc, Nat.lt_succ_iff_lt_or_eq] at hle
        rcases hle with hlt' | heq
        · rw [List.getElem?_set_ne hlt'.ne', hval i' hi' j' hj' hlt']
        · obtain ⟨rfl, rfl⟩ := flat_injective hj' hj heq
          exact List.getElem?_set_self hlt)
    have hnext : i * Y + Y = (i + 1) * Y + 0 := (Nat.succ_mul i Y).symm
    exact ⟨out', hout', by simpa only [P, hnext] using hP'⟩
  obtain ⟨out, hout, -, hwrites, hval⟩ := forUpTo_rule (P := fun i => P i 0)
    (f := fun i => forUpTo Y (f i)) (n := X) (s := (⟨C, []⟩ : Output R))
    ⟨hC, by rw [Nat.zero_mul]; rfl, fun i' _ j' _ h => by omega⟩ hrow
  exact ⟨out, hout, hwrites, fun i hi j hj => hval i hi j hj (flat_lt hi hj)⟩

variable [Semiring R] {S : Shape}

/-- **Two loops around one that adds up the terms** write the entries of the
product, in order. -/
theorem forUpTo_product (M : Operands S.sizes R) (hCfits : S.AX * S.BY ≤ 2 ^ 31)
    {f : ℕ → ℕ → ℕ → R → Option R}
    (hf : ∀ i < S.AX, ∀ j < S.BY, ∀ k < S.AY, ∀ acc, f i j k acc
      = some (acc + M.A.getD (i * S.AY + k) 0 * M.B.getD (k * S.BY + j) 0))
    {C : List R} (hC : C.length = S.AX * S.BY) :
    ∃ out, forUpTo S.AX (fun i => forUpTo S.BY fun j (C : Output R) => do
        let acc ← forUpTo S.AY (f i j) 0
        C.write (← flat i S.BY j) acc) ⟨C, []⟩ = some out
      ∧ out.writes = List.range (S.AX * S.BY)
      ∧ ∀ i < S.AX, ∀ j < S.BY,
        out.C[i * S.BY + j]? = some (dot S.sizes M.A M.B i j S.AY) := by
  refine forUpTo_write (fun i hi j hj out => ?_) hC
  rw [forUpTo_dot (S := S.sizes) (A := M.A) (B := M.B) (r := i) (c := j) (hf i hi j hj),
    Option.bind_eq_bind, Option.bind_some, flat_of_lt ((flat_lt hi hj).trans_le hCfits)]
  rfl

/-- **The first reference computes the product.** -/
theorem matrixMultRef_of_fits (h : S.Fits) (M : Operands S.sizes R) {C : List R}
    (hC : C.length = S.AX * S.BY) :
    ∃ out, matrixMultRef S M.A M.B ⟨C, []⟩ = some out
      ∧ out.writes = List.range (S.AX * S.BY)
      ∧ ∀ i < S.AX, ∀ j < S.BY,
        out.C[i * S.BY + j]? = some (dot S.sizes M.A M.B i j S.AY) := by
  refine forUpTo_product M h.2.2 (fun i hi j hj k hk acc => ?_) hC
  rw [flat_of_lt ((flat_lt hi hk).trans_le h.1), flat_of_lt ((flat_lt hk hj).trans h.2.1)]
  simp only [Option.bind_eq_bind, Option.bind_some]
  rw [getElem?_flat (X := S.AX) (Y := S.AY) M.A_length hi hk, Option.bind_some,
    getElem?_flat (X := S.AY) (Y := S.BY) M.B_length hk hj, Option.bind_some]

/-- **The second reference computes the product.** -/
theorem transposeMultLogged_of_fits (h : S.Fits) (M : Operands S.sizes R) {C : List R}
    (hC : C.length = S.AX * S.BY) :
    ∃ out, transposeMultLogged S M.A M.B ⟨C, []⟩ = some out
      ∧ out.writes = List.range (S.AX * S.BY)
      ∧ ∀ i < S.AX, ∀ j < S.BY,
        out.C[i * S.BY + j]? = some (dot S.sizes M.A M.B i j S.AY) := by
  have hBY : S.BY * S.AY < 2 ^ 31 := by
    rw [Nat.mul_comm]
    exact h.2.1
  unfold transposeMultLogged
  rw [arith_mul_of_lt hBY, Option.bind_eq_bind, Option.bind_some, Int.toNat_natCast]
  obtain ⟨tmp, htmp, hval⟩ := transpose_of_lt (X := S.AY) (Y := S.BY) M.B_length h.2.1
  rw [htmp, Option.bind_eq_bind, Option.bind_some]
  refine forUpTo_product M h.2.2 (fun i hi j hj k hk acc => ?_) hC
  rw [flat_of_lt ((flat_lt hi hk).trans_le h.1), flat_of_lt ((flat_lt hj hk).trans hBY)]
  simp only [Option.bind_eq_bind, Option.bind_some]
  rw [getElem?_flat (X := S.AX) (Y := S.AY) M.A_length hi hk, Option.bind_some,
    hval k hk j hj, Option.bind_some]

/-! ## Agreement -/

/-- **Where the sizes fit** the references agree. -/
theorem referencesAgree_of_fits (h : S.Fits) : ReferencesAgree R S := by
  intro M C C' hC hC'
  obtain ⟨out, hout, hwrites, hval⟩ := matrixMultRef_of_fits h M hC
  obtain ⟨out', hout', hwrites', hval'⟩ := transposeMultLogged_of_fits h M hC'
  exact ⟨out, out', hout, hout', ⟨by rw [hwrites], by rw [hwrites']⟩,
    fun i hi j hj => ⟨_, hval i hi j hj, hval' i hi j hj⟩⟩

/-- **What has come to its end** has had all its indices in range. -/
theorem fits_of_matrixMultRef {A B : List R} {out out' : Output R}
    (h : matrixMultRef S A B out = some out') :
    S.AX * S.AY ≤ 2 ^ 31 ∧ S.AY * S.BY ≤ 2 ^ 31 ∧ S.AX * S.BY ≤ 2 ^ 31 := by
  have hentry : ∀ i < S.AX, ∀ j < S.BY, i * S.BY + j < 2 ^ 31
      ∧ ∀ k < S.AY, i * S.AY + k < 2 ^ 31 ∧ k * S.BY + j < 2 ^ 31 := by
    intro i hi j hj
    obtain ⟨t, t', hrow⟩ := exists_of_forUpTo h hi
    obtain ⟨u, u', hentry⟩ := exists_of_forUpTo hrow hj
    obtain ⟨acc, hacc, hentry⟩ := Option.bind_eq_some_iff.mp hentry
    obtain ⟨c, hc, -⟩ := Option.bind_eq_some_iff.mp hentry
    refine ⟨(of_flat hc).2, fun k hk => ?_⟩
    obtain ⟨r, r', hterm⟩ := exists_of_forUpTo hacc hk
    obtain ⟨a, ha, hterm⟩ := Option.bind_eq_some_iff.mp hterm
    obtain ⟨x, -, hterm⟩ := Option.bind_eq_some_iff.mp hterm
    obtain ⟨b, hb, -⟩ := Option.bind_eq_some_iff.mp hterm
    exact ⟨(of_flat ha).2, (of_flat hb).2⟩
  refine ⟨le_of_flat_lt fun i hi k hk => ?_, le_of_flat_lt fun k hk j hj => ?_,
    le_of_flat_lt fun i hi j hj => (hentry i hi j hj).1⟩
  · exact ((hentry i hi 0 S.BY_pos).2 k hk).1
  · exact ((hentry 0 S.AX_pos j hj).2 k hk).2

/-- **The temporary matrix** of the second reference has a size. -/
theorem lt_of_transposeMultLogged {A B : List R} {out out' : Output R}
    (h : transposeMultLogged S A B out = some out') : S.AY * S.BY < 2 ^ 31 := by
  by_contra hle
  rw [not_lt, Nat.mul_comm] at hle
  obtain ⟨n, hn, -⟩ := Option.bind_eq_some_iff.mp h
  rw [arith_mul_of_le hle] at hn
  cases hn

/-- The references agree on no larger sizes. -/
theorem fits_of_referencesAgree (h : ReferencesAgree R S) : S.Fits := by
  obtain ⟨out, out', hout, hout', -⟩ := h
    ⟨List.replicate (S.AX * S.AY) 0, List.replicate (S.AY * S.BY) 0, List.length_replicate,
      List.length_replicate⟩
    (List.replicate _ 0) (List.replicate _ 0) List.length_replicate List.length_replicate
  have hfits := fits_of_matrixMultRef hout
  exact ⟨hfits.1, lt_of_transposeMultLogged hout', hfits.2.2⟩

/-- **Transposed multiplication is plain multiplication** if and only if the
indices into the matrices, and the size of the transposed one, are of type
`int`. -/
theorem referencesAgree_iff (R : Type) [Semiring R] (S : Shape) :
    ReferencesAgree R S ↔ S.Fits :=
  ⟨fits_of_referencesAgree, referencesAgree_of_fits⟩

/-- Two square matrices of 65536 rows: the size of the transposed matrix is
not of type `int`. -/
theorem not_referencesAgree_square : ¬ ReferencesAgree ℤ
    ⟨65536, 65536, 65536, by decide, by decide, by decide, by decide, by decide, by decide⟩ :=
  fun h => absurd (fits_of_referencesAgree h).2.1 (by decide)

end

end Gemm
