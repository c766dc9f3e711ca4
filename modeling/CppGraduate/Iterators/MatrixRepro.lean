import CppGraduate.Compute.GemmEntries
import CppGraduate.Compute.Host

/-!
# Two matrix products, and their comparison

`matrix_repro.cc` multiplies two matrices twice: `cpp_transpose_mult` reads
and writes `Matrix` objects, `iter_transpose_mult` goes through iterators.
`main` sizes both results, multiplies, and reports the entries in which the
results differ.

A failed assertion leaves no result, nor does an expression of type `int`
that is out of range or an index that is. The entries are of type `T`, with
exact arithmetic.

**Main result**: `productsCorrect_iff`. The assertion of `cpp_transpose_mult`
compares the rows of the factors; `main` gives both results the size of the
first factor, while `iter_transpose_mult` writes rows as long as those of the
second one. For square factors all of this is the same.
-/

namespace MatrixRepro

open Cxx Loops Gemm Cl

variable {T : Type}

/-! ## The program -/

/-- `Matrix<T>`, with sizes that are not negative -/
structure Matrix (T : Type) where
  /-- `lines_` -/
  lines : ℕ
  /-- `columns_` -/
  columns : ℕ
  /-- `matrix_` -/
  data : List T
deriving DecidableEq

/-- `Matrix()` -/
def Matrix.empty : Matrix T := ⟨0, 0, []⟩

/-- `at(x, y)`, to be read -/
def Matrix.at (M : Matrix T) (x y : ℕ) : Option T := do
  M.data[← flat x M.columns y]?

/-- `resizeto(lines, columns)`; what is new in the vector is zero -/
def Matrix.resizeto [Zero T] (M : Matrix T) (lines columns : ℕ) : Option (Matrix T) := do
  let n ← IntType.int.arith (lines * columns)
  some ⟨lines, columns, M.data.take n.toNat ++ List.replicate (n.toNat - M.data.length) 0⟩

section

variable [Semiring T]

/-- What both products do after their assertions. The rows of `C` are taken to
have length `CY`. -/
def transposeMult (A B C : List T) (AX AY BY CY : ℕ) : Option (List T) := do
  let n ← IntType.int.arith (BY * AY)
  let tmp ← forUpTo AY (fun i => forUpTo BY fun j tmp => do
    let b ← B[← flat i BY j]?
    write tmp (← flat j AY i) b) (List.replicate n.toNat 0)
  forUpTo AX (fun i => forUpTo BY fun j C => do
    let C ← write C (← flat i CY j) 0
    forUpTo AY (fun k C => do
      let c ← C[← flat i CY j]?
      let a ← A[← flat i AY k]?
      let b ← tmp[← flat j AY k]?
      write C (← flat i CY j) (c + a * b)) C) C

/-- `cpp_transpose_mult(a, b, c)`: the rows of `c` have the length that `c`
was given -/
def cppTransposeMult (a b c : Matrix T) : Option (Matrix T) := do
  guard (a.lines = b.lines)
  let data ← transposeMult a.data b.data c.data a.lines a.columns b.columns c.columns
  some { c with data }

/-- `iter_transpose_mult(A, B, C, AX, AY, BY)`: the rows of `C` have length
`BY` -/
def iterTransposeMult (A B C : List T) (AX AY BY : ℕ) : Option (List T) := do
  guard (0 < AX ∧ 0 < AY ∧ 0 < BY)
  transposeMult A B C AX AY BY BY

variable [DecidableEq T]

/-- The comparison at the end of `main`: where it reports a divergence -/
def divergences (C D : Matrix T) (X Y : ℕ) : Option (List (ℕ × ℕ)) :=
  forUpTo X (fun i => forUpTo Y fun j out => do
    let c ← C.at i j
    let d ← D.at i j
    some (if c ≠ d then out ++ [(i, j)] else out)) []

/-- `main()`, for the matrices it has read: `C`, `D` and the divergences -/
def main (A B : Matrix T) : Option (Matrix T × Matrix T × List (ℕ × ℕ)) := do
  let C ← Matrix.empty.resizeto A.lines A.columns
  let D ← Matrix.empty.resizeto A.lines A.columns
  let C ← cppTransposeMult A B C
  let data ← iterTransposeMult A.data B.data D.data A.lines A.columns B.columns
  let D := { D with data }
  let out ← divergences C D A.lines A.columns
  some (C, D, out)

end

/-! ## What it is to compute -/

/-- A matrix has so many rows and columns. -/
structure Matrix.HasSize (M : Matrix T) (r m : ℕ) : Prop where
  lines : M.lines = r
  columns : M.columns = m
  length : M.data.length = r * m

/-- A matrix of so many rows and columns. -/
abbrev Sized (T : Type) (r m : ℕ) := {M : Matrix T // M.HasSize r m}

variable [Semiring T]

/-- The sum over the first `n` of the products `A(i, k) * B(k, j)`. -/
def dotUpTo (A B : List T) (AY BY i j n : ℕ) : T :=
  ∑ k ∈ Finset.range n, A.getD (i * AY + k) 0 * B.getD (k * BY + j) 0

/-- The sum over `k` of the products `A(i, k) * B(k, j)`. -/
def dot (A B : Matrix T) (i j : ℕ) : T := dotUpTo A.data B.data A.columns B.columns i j A.columns

/-- **Both products are correct**: `main` comes to its end without a
divergence, and `C.at(i, j)` and `D.at(i, j)` are the entries of the
product. -/
def ProductsCorrect [DecidableEq T] (A B : Matrix T) : Prop :=
  ∃ C D, main A B = some (C, D, [])
    ∧ ∀ i < A.lines, ∀ j < B.columns,
      C.at i j = some (dot A B i j) ∧ D.at i j = some (dot A B i j)

/-! ## The loops -/

/-- A matrix is sized before the products are computed. -/
theorem resizeto_of_lt {X Y : ℕ} (h : X * Y < 2 ^ 31) :
    (Matrix.empty : Matrix T).resizeto X Y = some ⟨X, Y, List.replicate (X * Y) 0⟩ := by
  unfold Matrix.resizeto
  rw [arith_mul_of_lt h]
  simp only [Matrix.empty, Option.bind_eq_bind, Option.bind_some, Int.toNat_natCast,
    List.take_nil, List.nil_append, List.length_nil, Nat.sub_zero]

/-- Writing an entry that is there. -/
theorem write_of_lt {α : Type} {xs : List α} {n : ℕ} (h : n < xs.length) (x : α) :
    write xs n x = some (xs.set n x) :=
  if_pos h

/-- **An entry of the product is added up** where it is stored, from zero
on. -/
theorem accumulate_eq {A B tmp C : List T} {AX AY BY CY N i j : ℕ} (hA : A.length = AX * AY)
    (hAfit : AX * AY < 2 ^ 31) (hBfit : BY * AY < 2 ^ 31)
    (htmp : ∀ k < AY, tmp[j * AY + k]? = some (B.getD (k * BY + j) 0)) (hC : C.length = N)
    (hN : N < 2 ^ 31) (hi : i < AX) (hj : j < BY) (hlt : i * CY + j < N) :
    (do
      let C ← write C (← flat i CY j) 0
      forUpTo AY (fun k C => do
        let c ← C[← flat i CY j]?
        let a ← A[← flat i AY k]?
        let b ← tmp[← flat j AY k]?
        write C (← flat i CY j) (c + a * b)) C)
      = write C (i * CY + j) (dotUpTo A B AY BY i j AY) := by
  have hflat : flat i CY j = some (i * CY + j) := flat_of_lt (hlt.trans hN)
  have hlen : i * CY + j < C.length := by rwa [hC]
  obtain ⟨C', hloop, rfl⟩ := forUpTo_rule (n := AY) (s := C.set (i * CY + j) 0)
    (f := fun k C => do
      let c ← C[← flat i CY j]?
      let a ← A[← flat i AY k]?
      let b ← tmp[← flat j AY k]?
      write C (← flat i CY j) (c + a * b))
    (P := fun k C' => C' = C.set (i * CY + j) (dotUpTo A B AY BY i j k)) rfl (by
      rintro k hk C' rfl
      refine ⟨_, ?_, rfl⟩
      have hsum : dotUpTo A B AY BY i j (k + 1)
          = dotUpTo A B AY BY i j k + A.getD (i * AY + k) 0 * B.getD (k * BY + j) 0 :=
        Finset.sum_range_succ _ k
      rw [hflat, flat_of_lt ((flat_lt hi hk).trans hAfit),
        flat_of_lt ((flat_lt hj hk).trans hBfit)]
      simp only [Option.bind_eq_bind, Option.bind_some]
      rw [List.getElem?_set_self hlen, Option.bind_some, getElem?_flat hA hi hk, Option.bind_some,
        htmp k hk, Option.bind_some, write_of_lt (by rwa [List.length_set]), List.set_set, hsum])
  rw [hflat]
  simp only [Option.bind_eq_bind, Option.bind_some] at hloop ⊢
  rw [write_of_lt hlen, write_of_lt hlen, Option.bind_some, ← hloop, hflat]
  rfl

/-- **What both products compute**, where the rows of `C` are long enough: the
entries of the product, and nothing else is written. -/
theorem transposeMult_eq {A B C : List T} {AX AY BY N : ℕ} (CY : ℕ) (hA : A.length = AX * AY)
    (hB : B.length = AY * BY) (hC : C.length = N) (hAfit : AX * AY < 2 ^ 31)
    (hBfit : AY * BY < 2 ^ 31) (hN : N < 2 ^ 31) (hCY : BY ≤ CY) (hle : AX * CY ≤ N) :
    ∃ res, transposeMult A B C AX AY BY CY = some res ∧ res.length = N
      ∧ (∀ i < AX, ∀ j < BY, res[i * CY + j]? = some (dotUpTo A B AY BY i j AY))
      ∧ ∀ n, (∀ i < AX, ∀ j < BY, i * CY + j ≠ n) → res[n]? = C[n]? := by
  have hBfit' : BY * AY < 2 ^ 31 := by rwa [Nat.mul_comm]
  have hlt : ∀ i < AX, ∀ j < BY, i * CY + j < N := fun i hi j hj =>
    (flat_lt hi (hj.trans_le hCY)).trans_le hle
  obtain ⟨tmp, htmp, hval⟩ := transpose_of_lt hB hBfit
  obtain ⟨res, hres, hlen, hentry, hrest⟩ := forUpTo_fill (X := AX) (Y := BY) (N := N)
    (e := fun i j => i * CY + j) (v := fun i j => dotUpTo A B AY BY i j AY)
    (f := fun i j C => do
      let C ← write C (← flat i CY j) 0
      forUpTo AY (fun k C => do
        let c ← C[← flat i CY j]?
        let a ← A[← flat i AY k]?
        let b ← tmp[← flat j AY k]?
        write C (← flat i CY j) (c + a * b)) C)
    (l := C) hC hlt
    (fun i _ j hj i' _ j' hj' he => flat_injective (hj.trans_le hCY) (hj'.trans_le hCY) he)
    (fun i hi j hj xs hxs =>
      accumulate_eq hA hAfit hBfit' (fun k hk => hval k hk j hj) hxs hN hi hj (hlt i hi j hj))
  refine ⟨res, ?_, hlen, hentry, hrest⟩
  unfold transposeMult
  rw [arith_mul_of_lt hBfit', Option.bind_eq_bind, Option.bind_some, Int.toNat_natCast, htmp,
    Option.bind_eq_bind, Option.bind_some]
  exact hres

/-- Reading an entry of a matrix. -/
theorem at_eq {M : Matrix T} {X Y i j : ℕ} (hM : M.HasSize X Y) (hfit : X * Y < 2 ^ 31)
    (hi : i < X) (hj : j < Y) : M.at i j = some (M.data.getD (i * Y + j) 0) := by
  unfold Matrix.at
  rw [hM.columns, flat_of_lt ((flat_lt hi hj).trans hfit)]
  exact getElem?_flat hM.length hi hj

/-- Two matrices of one size with the same entries. -/
theorem data_eq_iff {xs ys : List T} {X Y : ℕ} (hxs : xs.length = X * Y)
    (hys : ys.length = X * Y) :
    xs = ys ↔ ∀ i < X, ∀ j < Y, xs.getD (i * Y + j) 0 = ys.getD (i * Y + j) 0 := by
  constructor
  · rintro rfl i - j -
    rfl
  · intro h
    refine List.ext_getElem (by rw [hxs, hys]) fun n hn hn' => ?_
    rw [hxs] at hn
    have hY : 0 < Y := Nat.pos_of_mul_pos_left (Nat.zero_lt_of_lt hn)
    have hrow : n / Y < X := Nat.div_lt_of_lt_mul (by rwa [Nat.mul_comm])
    have := h (n / Y) hrow (n % Y) (Nat.mod_lt n hY)
    rwa [Nat.mul_comm, Nat.div_add_mod, List.getD_eq_getElem, List.getD_eq_getElem] at this

/-- **The comparison** reports nothing exactly if the matrices are equal. -/
theorem divergences_eq [DecidableEq T] {C D : Matrix T} {X Y : ℕ} (hC : C.HasSize X Y)
    (hD : D.HasSize X Y) (hfit : X * Y < 2 ^ 31) :
    ∃ out, divergences C D X Y = some out ∧ (out = [] ↔ C.data = D.data) := by
  refine ⟨_, forUpTo_append (fun i hi out => forUpTo_append (g := fun j =>
    if C.data.getD (i * Y + j) 0 ≠ D.data.getD (i * Y + j) 0 then [(i, j)] else [])
    (fun j hj out => ?_) out) [], ?_⟩
  · rw [at_eq hC hfit hi hj, at_eq hD hfit hi hj]
    simp only [Option.bind_eq_bind, Option.bind_some]
    split
    · rfl
    · rw [List.append_nil]
  · rw [data_eq_iff hC.length hD.length]
    simp only [List.nil_append, List.flatMap_eq_nil_iff, List.mem_range, ite_eq_right_iff,
      List.cons_ne_nil, imp_false, ne_eq, not_not]

/-! ## When the results have room -/

variable [DecidableEq T] {r m c : ℕ} {A B C D : Matrix T}

/-- **The results** for a first factor of `m` rows and columns and a second
one of `c` columns, `c` being `m` at most: `C` has the product in its first
columns, `D` has the rows of the product one after another. -/
structure Results (A B : Matrix T) (m c : ℕ) (C D : Matrix T) : Prop where
  C_size : C.HasSize m m
  D_size : D.HasSize m m
  /-- The entries of `C` that were written. -/
  C_entry : ∀ i < m, ∀ j < c, C.data.getD (i * m + j) 0 = dot A B i j
  /-- The entries of `C` that were not. -/
  C_rest : ∀ i < m, ∀ j < m, c ≤ j → C.data.getD (i * m + j) 0 = 0
  /-- The entries of `D` that were written. -/
  D_entry : ∀ i < m, ∀ j < c, D.data.getD (i * c + j) 0 = dot A B i j
  /-- The entries of `D` that were not. -/
  D_rest : ∀ n, m * c ≤ n → D.data.getD n 0 = 0

omit [Semiring T] [DecidableEq T] in
/-- An assertion that holds. -/
theorem guard_of {p : Prop} [Decidable p] (h : p) : (guard p : Option Unit) = some () := if_pos h

/-- **`main` comes to its end** where the first factor is square, the second
one no wider, and the number of entries in range. -/
theorem main_eq (hc : 0 < c) (hcm : c ≤ m) (hfit : m * m < 2 ^ 31) (hA : A.HasSize m m)
    (hB : B.HasSize m c) :
    ∃ C D out, main A B = some (C, D, out) ∧ Results A B m c C D
      ∧ (out = [] ↔ C.data = D.data) := by
  have hm : 0 < m := hc.trans_le hcm
  have hmc : m * c ≤ m * m := Nat.mul_le_mul_left m hcm
  have hzero : (List.replicate (m * m) (0 : T)).length = m * m := List.length_replicate
  have hget : ∀ n, (List.replicate (m * m) (0 : T)).getD n 0 = 0 := fun n => by
    simp [List.getD_eq_getElem?_getD]
  obtain ⟨res, hres, hlen, hentry, hrest⟩ := transposeMult_eq m hA.length hB.length hzero
    hfit (hmc.trans_lt hfit) hfit hcm le_rfl
  obtain ⟨res', hres', hlen', hentry', hrest'⟩ := transposeMult_eq c hA.length hB.length
    hzero hfit (hmc.trans_lt hfit) hfit le_rfl hmc
  have hsize : ∀ xs : List T, xs.length = m * m → (⟨m, m, xs⟩ : Matrix T).HasSize m m :=
    fun xs hxs => ⟨rfl, rfl, hxs⟩
  obtain ⟨out, hout, hiff⟩ := divergences_eq (hsize res hlen) (hsize res' hlen') hfit
  refine ⟨⟨m, m, res⟩, ⟨m, m, res'⟩, out, ?_, ?_, hiff⟩
  · unfold main cppTransposeMult iterTransposeMult
    rw [hA.lines, hA.columns, hB.lines, hB.columns, resizeto_of_lt hfit, guard_of rfl,
      guard_of ⟨hm, hm, hc⟩]
    simp only [Option.bind_eq_bind, Option.bind_some]
    rw [hres, Option.bind_some, Option.bind_some, hres', Option.bind_some, hout, Option.bind_some]
  · have hdot : ∀ i j, dot A B i j = dotUpTo A.data B.data m c i j m := fun i j => by
      unfold dot
      rw [hA.columns, hB.columns]
    refine ⟨hsize res hlen, hsize res' hlen', fun i hi j hj => ?_, fun i hi j hj hcj => ?_,
      fun i hi j hj => ?_, fun n hn => ?_⟩
    · rw [hdot, List.getD_eq_getElem?_getD, hentry i hi j hj]
      rfl
    · rw [List.getD_eq_getElem?_getD, hrest (i * m + j), ← List.getD_eq_getElem?_getD, hget]
      intro i' hi' j' hj' he
      obtain ⟨-, rfl⟩ := flat_injective (hj'.trans_le hcm) hj he
      exact absurd hj' (not_lt.mpr hcj)
    · rw [hdot, List.getD_eq_getElem?_getD, hentry' i hi j hj]
      rfl
    · rw [List.getD_eq_getElem?_getD, hrest' n, ← List.getD_eq_getElem?_getD, hget]
      intro i' hi' j' hj' he
      exact absurd (flat_lt hi' hj') (not_lt.mpr (he ▸ hn))

namespace Results

omit [DecidableEq T] in
/-- Of square factors the results are the same. -/
theorem eq_of_square (h : Results A B m m C D) : C.data = D.data :=
  (data_eq_iff h.C_size.length h.D_size.length).mpr fun i hi j hj =>
    (h.C_entry i hi j hj).trans (h.D_entry i hi j hj).symm

omit [DecidableEq T] in
/-- **Equal results of a narrower factor** have zeros from the second row on:
an entry of `D` stands where `C` has one of an earlier place, or none. -/
theorem rows_zero (h : Results A B m c C D) (hcm : c < m) (he : C.data = D.data) (i : ℕ)
    (hi : i < m) (hi' : 1 ≤ i) (j : ℕ) (hj : j < c) : dot A B i j = 0 := by
  have hmain : ∀ n i j, i * c + j = n → i < m → 1 ≤ i → j < c → dot A B i j = 0 := by
    intro n
    induction n using Nat.strong_induction_on with
    | _ n ih =>
      rintro i j rfl hi hi' hj
      have hn : i * c + j < m * m :=
        (flat_lt hi hj).trans_le (Nat.mul_le_mul_left m hcm.le)
      have hm : 0 < m := Nat.zero_lt_of_lt hi
      have hrow : (i * c + j) / m < m := Nat.div_lt_of_lt_mul hn
      have hcol : (i * c + j) % m < m := Nat.mod_lt _ hm
      have hsplit : (i * c + j) / m * m + (i * c + j) % m = i * c + j := by
        rw [Nat.mul_comm]
        exact Nat.div_add_mod _ _
      rw [← h.D_entry i hi j hj, ← he, ← hsplit]
      rcases lt_or_ge ((i * c + j) % m) c with hlt | hge
      · have hle : c ≤ i * c + j := (Nat.le_mul_of_pos_left c hi').trans (Nat.le_add_right _ _)
        have hpos : 1 ≤ (i * c + j) / m := by
          by_contra hzero
          rw [Nat.lt_one_iff.mp (not_le.mp hzero), Nat.zero_mul, Nat.zero_add] at hsplit
          rw [hsplit] at hlt
          exact absurd hlt (not_lt.mpr hle)
        have hearlier : (i * c + j) / m * c + (i * c + j) % m < i * c + j := by
          conv_rhs => rw [← hsplit]
          exact Nat.add_lt_add_right (Nat.mul_lt_mul_of_pos_left hcm hpos) _
        rw [h.C_entry _ hrow _ hlt]
        exact ih _ hearlier _ _ rfl hrow hpos hlt
      · exact h.C_rest _ hrow _ hcol hge
  exact hmain _ i j rfl hi hi' hj

omit [DecidableEq T] in
/-- **Where the product has zeros from the second row on**, its first row is
what both results have, and nothing else. -/
theorem eq_of_rows_zero (h : Results A B m c C D) (hc : 0 < c) (hcm : c ≤ m)
    (hzero : ∀ i < m, 1 ≤ i → ∀ j < c, dot A B i j = 0) : C.data = D.data := by
  refine (data_eq_iff h.C_size.length h.D_size.length).mpr fun i hi j hj => ?_
  have hD : c ≤ i * m + j → D.data.getD (i * m + j) 0 = 0 := by
    intro hle
    rcases lt_or_ge (i * m + j) (m * c) with hlt | hge
    · have hrow : (i * m + j) / c < m := Nat.div_lt_of_lt_mul (hlt.trans_eq (Nat.mul_comm m c))
      have hpos : 1 ≤ (i * m + j) / c := (Nat.one_le_div_iff hc).mpr hle
      have hcol : (i * m + j) % c < c := Nat.mod_lt _ hc
      have hentry := h.D_entry _ hrow _ hcol
      rwa [Nat.mul_comm, Nat.div_add_mod, hzero _ hrow hpos _ hcol] at hentry
    · exact h.D_rest _ hge
  rcases Nat.eq_zero_or_pos i with rfl | hpos
  · rcases lt_or_ge j c with hlt | hge
    · have hentry := h.D_entry 0 hi j hlt
      rw [Nat.zero_mul] at hentry
      rw [h.C_entry 0 hi j hlt, Nat.zero_mul, hentry]
    · rw [h.C_rest 0 hi j hj hge, hD (by omega)]
  · have hle : c ≤ i * m + j :=
      (hcm.trans (Nat.le_mul_of_pos_left m hpos)).trans (Nat.le_add_right _ _)
    rw [hD hle]
    rcases lt_or_ge j c with hlt | hge
    · rw [h.C_entry i hi j hlt, hzero i hi hpos j hlt]
    · exact h.C_rest i hi j hj hge

end Results

/-- **With a square first factor and a second one no wider** the products are
correct exactly if the results are equal. -/
theorem productsCorrect_iff_of_le (hc : 0 < c) (hcm : c ≤ m) (hfit : m * m < 2 ^ 31)
    (hA : A.HasSize m m) (hB : B.HasSize m c) :
    ProductsCorrect A B ↔ c = m ∨ ∀ i < m, 1 ≤ i → ∀ j < c, dot A B i j = 0 := by
  obtain ⟨C, D, out, hmain, hres, hout⟩ := main_eq hc hcm hfit hA hB
  have heq : C.data = D.data ↔ c = m ∨ ∀ i < m, 1 ≤ i → ∀ j < c, dot A B i j = 0 := by
    constructor
    · intro he
      rcases Nat.eq_or_lt_of_le hcm with h | h
      · exact Or.inl h
      · exact Or.inr (hres.rows_zero h he)
    · rintro (rfl | hzero)
      · exact hres.eq_of_square
      · exact hres.eq_of_rows_zero hc hcm hzero
  rw [← heq]
  constructor
  · rintro ⟨C', D', hmain', -⟩
    rw [hmain] at hmain'
    exact hout.mp (congrArg (fun t => t.2.2) (Option.some.inj hmain'))
  · intro he
    refine ⟨C, D, ?_, fun i hi j hj => ?_⟩
    · rw [hmain, hout.mpr he]
    · rw [hA.lines] at hi
      rw [hB.columns] at hj
      rw [at_eq hres.C_size hfit hi (hj.trans_le hcm), at_eq hres.D_size hfit hi (hj.trans_le hcm),
        ← he, hres.C_entry i hi j hj]
      exact ⟨rfl, rfl⟩

/-! ## When they have not -/

omit [DecidableEq T] in
/-- The products leave the size of the result as it is. -/
theorem length_of_transposeMult {A B C res : List T} {AX AY BY CY : ℕ}
    (h : transposeMult A B C AX AY BY CY = some res) : res.length = C.length := by
  have hwrite : ∀ {xs ys : List T} {n : ℕ} {x : T}, write xs n x = some ys →
      ys.length = xs.length := by
    intro xs ys n x hw
    unfold write at hw
    split at hw
    · rw [← Option.some.inj hw, List.length_set]
    · cases hw
  obtain ⟨_, -, h⟩ := Option.bind_eq_some_iff.mp h
  obtain ⟨_, -, h⟩ := Option.bind_eq_some_iff.mp h
  refine forUpTo_inv (P := fun xs : List T => xs.length = C.length) rfl
    (fun i _ xs xs' hxs hrow => ?_) h
  refine forUpTo_inv (P := fun xs : List T => xs.length = C.length) hxs
    (fun j _ ys ys' hys hentry => ?_) hrow
  obtain ⟨_, -, hentry⟩ := Option.bind_eq_some_iff.mp hentry
  obtain ⟨zs, hzs, hentry⟩ := Option.bind_eq_some_iff.mp hentry
  refine forUpTo_inv (P := fun xs : List T => xs.length = C.length) ((hwrite hzs).trans hys)
    (fun k _ us us' hus hterm => ?_) hentry
  obtain ⟨_, -, hterm⟩ := Option.bind_eq_some_iff.mp hterm
  obtain ⟨_, -, hterm⟩ := Option.bind_eq_some_iff.mp hterm
  obtain ⟨_, -, hterm⟩ := Option.bind_eq_some_iff.mp hterm
  obtain ⟨_, -, hterm⟩ := Option.bind_eq_some_iff.mp hterm
  obtain ⟨_, -, hterm⟩ := Option.bind_eq_some_iff.mp hterm
  obtain ⟨_, -, hterm⟩ := Option.bind_eq_some_iff.mp hterm
  obtain ⟨_, -, hterm⟩ := Option.bind_eq_some_iff.mp hterm
  exact (hwrite hterm).trans hus

/-- **Correct products are those of a square first factor and a second one no
wider**: the assertion compares rows with rows, and `C` has no more columns
than the first factor. -/
theorem shape_of_productsCorrect (hr : 0 < r) (hc : 0 < c) (hA : A.HasSize r m)
    (hB : B.HasSize m c) (h : ProductsCorrect A B) : r = m ∧ c ≤ m ∧ m * m < 2 ^ 31 := by
  obtain ⟨C, D, hmain, hentry⟩ := h
  have hfit : r * m < 2 ^ 31 := by
    by_contra hle
    obtain ⟨_, hC, -⟩ := Option.bind_eq_some_iff.mp hmain
    unfold Matrix.resizeto at hC
    rw [hA.lines, hA.columns, arith_mul_of_le (not_lt.mp hle)] at hC
    cases hC
  unfold main at hmain
  rw [hA.lines, hA.columns, resizeto_of_lt hfit] at hmain
  simp only [Option.bind_eq_bind, Option.bind_some] at hmain
  obtain ⟨C', hcpp, hmain⟩ := Option.bind_eq_some_iff.mp hmain
  obtain ⟨_, -, hmain⟩ := Option.bind_eq_some_iff.mp hmain
  obtain ⟨_, -, hmain⟩ := Option.bind_eq_some_iff.mp hmain
  obtain rfl : C' = C := congrArg Prod.fst (Option.some.inj hmain)
  obtain ⟨_, hassert, hcpp⟩ := Option.bind_eq_some_iff.mp hcpp
  obtain ⟨data, hdata, hcpp⟩ := Option.bind_eq_some_iff.mp hcpp
  have hrm : r = m := by
    by_contra hne
    rw [hA.lines, hB.lines, guard, if_neg hne] at hassert
    cases hassert
  have hlen := length_of_transposeMult hdata
  rw [List.length_replicate] at hlen
  refine ⟨hrm, ?_, hrm ▸ hfit⟩
  -- the last entry of the product has a place in `C`
  have hlast := (hentry (r - 1) (by rw [hA.lines]; omega) (c - 1) (by rw [hB.columns]; omega)).1
  rw [← Option.some.inj hcpp] at hlast
  obtain ⟨n, hn, hlast⟩ := Option.bind_eq_some_iff.mp hlast
  obtain ⟨rfl, -⟩ := of_flat hn
  have hlt := (List.getElem?_eq_some_iff.mp hlast).1
  dsimp only at hlt
  rw [hlen] at hlt
  have hsplit : r * m = (r - 1) * m + m := by
    rw [← Nat.succ_mul, Nat.succ_eq_add_one, Nat.sub_add_cancel hr]
  omega

/-! ## Which products are correct -/

/-- The matrix of ones. -/
def ones (X Y : ℕ) : Sized ℤ X Y := ⟨⟨X, Y, List.replicate (X * Y) 1⟩, rfl, rfl, List.length_replicate⟩

/-- The entries of the product of matrices of ones. -/
theorem dot_ones {i j : ℕ} (hi : i < r) (hj : j < c) : dot (ones r m).val (ones m c).val i j = m := by
  unfold dot dotUpTo
  show ∑ k ∈ Finset.range m, (List.replicate (r * m) (1 : ℤ)).getD (i * m + k) 0
    * (List.replicate (m * c) (1 : ℤ)).getD (k * c + j) 0 = m
  rw [Finset.sum_congr rfl (g := fun _ => (1 : ℤ)) fun k hk => ?_, Finset.sum_const,
    Finset.card_range, nsmul_one]
  have hk : k < m := Finset.mem_range.mp hk
  rw [List.getD_replicate _ (flat_lt hi hk), List.getD_replicate _ (flat_lt hk hj), mul_one]

/-- **The products of all matrices of three sizes are correct exactly for
square matrices**, the number of whose entries is in the range of `int`. Of
other matrices they are so where the first factor is square, the second one
narrower, and the product has zeros from the second row on. -/
theorem productsCorrect_iff (hr : 0 < r) (hc : 0 < c) :
    ((∀ (A : Sized ℤ r m) (B : Sized ℤ m c), ProductsCorrect A.val B.val)
      ↔ r = m ∧ c = m ∧ m * m < 2 ^ 31)
    ∧ ∀ (A : Sized ℤ r m) (B : Sized ℤ m c), ProductsCorrect A.val B.val
      ↔ r = m ∧ m * m < 2 ^ 31
        ∧ (c = m ∨ c < m ∧ ∀ i < m, 1 ≤ i → ∀ j < c, dot A.val B.val i j = 0) := by
  have hiff : ∀ (A : Sized ℤ r m) (B : Sized ℤ m c), ProductsCorrect A.val B.val
      ↔ r = m ∧ m * m < 2 ^ 31
        ∧ (c = m ∨ c < m ∧ ∀ i < m, 1 ≤ i → ∀ j < c, dot A.val B.val i j = 0) := by
    rintro ⟨A, hA⟩ ⟨B, hB⟩
    constructor
    · intro h
      obtain ⟨rfl, hcm, hfit⟩ := shape_of_productsCorrect hr hc hA hB h
      refine ⟨rfl, hfit, ?_⟩
      rcases Nat.eq_or_lt_of_le hcm with he | hlt
      · exact Or.inl he
      · exact Or.inr ⟨hlt, ((productsCorrect_iff_of_le hc hcm hfit hA hB).mp h).resolve_left
          hlt.ne⟩
    · rintro ⟨rfl, hfit, hrows⟩
      have hcm : c ≤ r := hrows.elim le_of_eq fun h => h.1.le
      exact (productsCorrect_iff_of_le hc hcm hfit hA hB).mpr (hrows.imp_right And.right)
  refine ⟨⟨fun h => ?_, fun h A B => (hiff A B).mpr ⟨h.1, h.2.2, Or.inl h.2.1⟩⟩, hiff⟩
  obtain ⟨rfl, hfit, hrows⟩ := (hiff _ _).mp (h (ones r m) (ones m c))
  refine ⟨rfl, hrows.resolve_right fun ⟨hlt, hzero⟩ => ?_, hfit⟩
  have hone := hzero 1 (by omega) le_rfl 0 hc
  rw [dot_ones (by omega) hc] at hone
  omega

/-- Two square matrices. -/
theorem productsCorrect_iff_two :
    ProductsCorrect (⟨2, 2, [1, 2, 3, 4]⟩ : Matrix ℤ) ⟨2, 2, [5, 6, 7, 8]⟩ :=
  ((productsCorrect_iff (by decide) (by decide)).2 ⟨_, rfl, rfl, rfl⟩ ⟨_, rfl, rfl, rfl⟩).mpr
    ⟨rfl, by decide, Or.inl rfl⟩

/-- A row times a column fails the assertion, which compares the rows of the
first factor with the rows of the second one. For a square matrix times a
column the results have the product at different places. -/
theorem not_productsCorrect_rectangular :
    main (⟨1, 2, [1, 1]⟩ : Matrix ℤ) ⟨2, 1, [1, 1]⟩ = none
      ∧ ¬ ProductsCorrect (⟨1, 2, [1, 1]⟩ : Matrix ℤ) ⟨2, 1, [1, 1]⟩
      ∧ main (⟨2, 2, [1, 0, 0, 1]⟩ : Matrix ℤ) ⟨2, 1, [1, 1]⟩
        = some (⟨2, 2, [1, 0, 1, 0]⟩, ⟨2, 2, [1, 1, 0, 0]⟩, [(0, 1), (1, 0)])
      ∧ ¬ ProductsCorrect (⟨2, 2, [1, 0, 0, 1]⟩ : Matrix ℤ) ⟨2, 1, [1, 1]⟩ := by
  have hrow : main (⟨1, 2, [1, 1]⟩ : Matrix ℤ) ⟨2, 1, [1, 1]⟩ = none := by decide
  have hcolumn : main (⟨2, 2, [1, 0, 0, 1]⟩ : Matrix ℤ) ⟨2, 1, [1, 1]⟩
      = some (⟨2, 2, [1, 0, 1, 0]⟩, ⟨2, 2, [1, 1, 0, 0]⟩, [(0, 1), (1, 0)]) := by decide
  refine ⟨hrow, ?_, hcolumn, ?_⟩
  · rintro ⟨C, D, h, -⟩
    rw [hrow] at h
    cases h
  · rintro ⟨C, D, h, -⟩
    rw [hcolumn] at h
    cases h

end MatrixRepro
