import CppGraduate.Compute.GemmKernels
import CppGraduate.Lib.Loops
import Mathlib.Algebra.BigOperators.Fin
import Mathlib.Data.List.GetD

/-!
# The entries of the product and who stores them

What both kernels have in common: the numbering of the work-items, the
indices they compute, the sums that are the entries of the product, and what
has been stored to `C`.

The products of sizes that bound the indices are in range by `Sizes.Fits`:
then no expression of type `int` overflows.
-/

namespace Gemm

open WorkItems Cxx Loops

variable {S : Sizes} {R : Type}

/-! ## Indices -/

/-- An index has a result when it is in the range of `int`. -/
theorem flat_eq (i n j : ℕ) :
    flat i n j = if i * n + j < 2 ^ 31 then some (i * n + j) else none := by
  have hhi : IntType.int.hi = 2 ^ 31 - 1 := by decide
  have hlo : IntType.int.lo ≤ 0 := IntType.int.lo_nonpos
  have hp : (0 : ℤ) ≤ (i : ℤ) * n := Int.mul_nonneg (by omega) (by omega)
  have hs : IntType.int.signed = true := rfl
  unfold flat
  by_cases h₁ : i * n < 2 ^ 31
  · have h₁' : (i : ℤ) * n < 2 ^ 31 := by exact_mod_cast h₁
    rw [IntType.arith_of_inRange (by omega) (by omega), Option.bind_eq_bind, Option.bind_some]
    by_cases h₂ : i * n + j < 2 ^ 31
    · have h₂' : (i : ℤ) * n + j < 2 ^ 31 := by exact_mod_cast h₂
      rw [IntType.arith_of_inRange (by omega) (by omega), Option.bind_some, if_pos h₂]
      congr 1
    · have h₂' : (2 : ℤ) ^ 31 ≤ (i : ℤ) * n + j := by exact_mod_cast not_lt.mp h₂
      rw [IntType.arith_signed_of_hi_lt hs (by omega), if_neg h₂]
      rfl
  · have h₁' : (2 : ℤ) ^ 31 ≤ (i : ℤ) * n := by exact_mod_cast not_lt.mp h₁
    rw [IntType.arith_signed_of_hi_lt hs (by omega), if_neg (by omega)]
    rfl

/-- An index in range. -/
theorem flat_of_lt {i n j : ℕ} (h : i * n + j < 2 ^ 31) : flat i n j = some (i * n + j) := by
  rw [flat_eq, if_pos h]

/-- Where an index has a result, it is the exact one. -/
theorem of_flat {i n j m : ℕ} (h : flat i n j = some m) : m = i * n + j ∧ i * n + j < 2 ^ 31 := by
  rw [flat_eq] at h
  split at h
  · exact ⟨(Option.some.inj h).symm, by assumption⟩
  · cases h

/-- Reading an entry of a flat table. -/
theorem getElem?_flat [Zero R] {l : List R} {X Y i j : ℕ} (hl : l.length = X * Y) (hi : i < X)
    (hj : j < Y) : l[i * Y + j]? = some (l.getD (i * Y + j) 0) := by
  have h : i * Y + j < l.length := by
    rw [hl]
    exact flat_lt hi hj
  rw [List.getElem?_eq_getElem h, List.getD_eq_getElem _ _ h]

/-- **Transposing a matrix**: it is read row by row, and written column by
column. -/
theorem transpose_of_lt [Zero R] {B : List R} {X Y : ℕ} (hB : B.length = X * Y)
    (h : X * Y < 2 ^ 31) :
    ∃ tmp, forUpTo X (fun i => forUpTo Y fun j tmp => do
        let b ← B[← flat i Y j]?
        write tmp (← flat j X i) b) (List.replicate (Y * X) 0) = some tmp
      ∧ ∀ i < X, ∀ j < Y, tmp[j * X + i]? = some (B.getD (i * Y + j) 0) := by
  have h' : Y * X < 2 ^ 31 := by rwa [Nat.mul_comm]
  obtain ⟨tmp, htmp, -, hval, -⟩ := forUpTo_fill (X := X) (Y := Y) (N := Y * X)
    (e := fun i j => j * X + i) (v := fun i j => B.getD (i * Y + j) 0)
    (f := fun i j tmp => do
      let b ← B[← flat i Y j]?
      write tmp (← flat j X i) b)
    (l := List.replicate (Y * X) 0) List.length_replicate
    (fun i hi j hj => flat_lt hj hi)
    (fun i hi j hj i' hi' j' hj' he => (flat_injective hi hi' he).symm)
    (fun i hi j hj xs hxs => by
      rw [flat_of_lt ((flat_lt hi hj).trans h), flat_of_lt ((flat_lt hj hi).trans h')]
      simp only [Option.bind_eq_bind, Option.bind_some]
      rw [getElem?_flat hB hi hj, Option.bind_some])
  exact ⟨tmp, htmp, hval⟩

/-- **The products of sizes are in range**, those that bound the indices
into the three buffers. -/
def Sizes.Fits (S : Sizes) : Prop :=
  S.AX * S.AY ≤ 2 ^ 31 ∧ S.AY * S.BY ≤ 2 ^ 31 ∧ S.AX * S.BY ≤ 2 ^ 31

instance (S : Sizes) : Decidable S.Fits := inferInstanceAs (Decidable (_ ∧ _ ∧ _))

namespace Item

/-- The group and the local number of an item in one dimension stay below
the size. -/
theorem global_lt {n X : ℕ} (a : Fin (X / n)) (x : Fin n) : n * a + x < X :=
  calc n * a + x < n * a + n := Nat.add_lt_add_left x.isLt _
    _ = n * (a + 1) := (Nat.mul_succ n a).symm
    _ ≤ n * (X / n) := Nat.mul_le_mul_left n a.isLt
    _ ≤ X := Nat.mul_div_le X n

/-- The row of an item is one of `C`. -/
theorem globalRow_lt (i : Item S) : i.globalRow < S.AX := global_lt i.1.1 i.row

/-- The column of an item is one of `C`. -/
theorem globalCol_lt (i : Item S) : i.globalCol < S.BY := global_lt i.1.2 i.col

/-- **There is an item for every entry** of `C`. -/
theorem exists_item {r c : ℕ} (hr : r < S.AX) (hc : c < S.BY) :
    ∃ i : Item S, i.globalRow = r ∧ i.globalCol = c := by
  refine ⟨⟨⟨⟨r / S.TS, Nat.div_lt_div_of_lt_of_dvd S.TS_dvd_AX hr⟩,
    ⟨c / S.TS, Nat.div_lt_div_of_lt_of_dvd S.TS_dvd_BY hc⟩⟩,
    ⟨⟨r % S.TS, Nat.mod_lt _ S.TS_pos⟩, ⟨c % S.TS, Nat.mod_lt _ S.TS_pos⟩⟩⟩, ?_, ?_⟩
  · exact Nat.div_add_mod r S.TS
  · exact Nat.div_add_mod c S.TS

/-- **There is one item only for an entry** of `C`. -/
theorem ext_global {i j : Item S} (hr : i.globalRow = j.globalRow)
    (hc : i.globalCol = j.globalCol) : i = j := by
  have hr' : i.1.1.val * S.TS + i.row = j.1.1.val * S.TS + j.row := by
    rw [Nat.mul_comm _ S.TS, Nat.mul_comm _ S.TS]
    exact hr
  have hc' : i.1.2.val * S.TS + i.col = j.1.2.val * S.TS + j.col := by
    rw [Nat.mul_comm _ S.TS, Nat.mul_comm _ S.TS]
    exact hc
  obtain ⟨h₁, h₂⟩ := flat_injective i.row.isLt j.row.isLt hr'
  obtain ⟨h₃, h₄⟩ := flat_injective i.col.isLt j.col.isLt hc'
  exact Prod.ext (Prod.ext (Fin.ext h₁) (Fin.ext h₃)) (Prod.ext (Fin.ext h₂) (Fin.ext h₄))

/-- The index of `C` an item stores to. -/
def index (i : Item S) : ℕ := i.globalRow * S.BY + i.globalCol

/-- Items store to different indices. -/
theorem index_injective : Function.Injective (index (S := S)) := by
  intro i j h
  obtain ⟨hr, hc⟩ := flat_injective i.globalCol_lt j.globalCol_lt h
  exact ext_global hr hc

/-- Items store within `C`. -/
theorem index_lt (i : Item S) : i.index < S.AX * S.BY := flat_lt i.globalRow_lt i.globalCol_lt

/-- Every index of `C` is one some item stores to. -/
theorem exists_index {n : ℕ} (hn : n < S.AX * S.BY) : ∃ i : Item S, i.index = n := by
  have hr : n / S.BY < S.AX := Nat.div_lt_of_lt_mul (by rwa [Nat.mul_comm])
  obtain ⟨i, hi, hi'⟩ := exists_item hr (Nat.mod_lt n S.BY_pos)
  refine ⟨i, ?_⟩
  rw [index, hi, hi', Nat.mul_comm]
  exact Nat.div_add_mod n S.BY

end Item

/-! ## The product -/

section

variable [Semiring R]

/-- The first `n` terms of an entry of the product. -/
def dot (S : Sizes) (A B : List R) (r c n : ℕ) : R :=
  ∑ k ∈ Finset.range n, A.getD (r * S.AY + k) 0 * B.getD (k * S.BY + c) 0

/-- One term more. -/
theorem dot_succ (A B : List R) (r c n : ℕ) :
    dot S A B r c (n + 1)
      = dot S A B r c n + A.getD (r * S.AY + n) 0 * B.getD (n * S.BY + c) 0 :=
  Finset.sum_range_succ _ n

/-- A loop that adds one term in each pass. -/
theorem forUpTo_dot {A B : List R} {r c n : ℕ} {f : ℕ → R → Option R}
    (hf : ∀ k < n, ∀ acc,
      f k acc = some (acc + A.getD (r * S.AY + k) 0 * B.getD (k * S.BY + c) 0)) :
    forUpTo n f 0 = some (dot S A B r c n) := by
  obtain ⟨acc, hacc, rfl⟩ := forUpTo_rule (n := n) (f := f) (s := (0 : R))
    (P := fun k acc => acc = dot S A B r c k) rfl (by
      rintro k hk acc rfl
      exact ⟨_, hf k hk _, (dot_succ ..).symm⟩)
  exact hacc

/-- **The entries of a buffer are sums of the first `n` terms** each. -/
structure IsProduct (S : Sizes) (A B : List R) (n : ℕ) (C : List R) : Prop where
  length : C.length = S.AX * S.BY
  entry : ∀ r < S.AX, ∀ c < S.BY, C[r * S.BY + c]? = some (dot S A B r c n)

/-- The entries of a product determine the buffer. -/
theorem IsProduct.unique {A B : List R} {n : ℕ} {C C' : List R} (h : IsProduct S A B n C)
    (h' : IsProduct S A B n C') : C = C' := by
  refine List.ext_getElem? fun m => ?_
  by_cases hm : m < S.AX * S.BY
  · obtain ⟨i, rfl⟩ := Item.exists_index hm
    rw [Item.index, h.entry _ i.globalRow_lt _ i.globalCol_lt,
      h'.entry _ i.globalRow_lt _ i.globalCol_lt]
  · rw [List.getElem?_eq_none (by rw [h.length]; omega),
      List.getElem?_eq_none (by rw [h'.length]; omega)]

end

/-- The contents of the buffers `A` and `B`. -/
structure Operands (S : Sizes) (R : Type) where
  /-- `A` -/
  A : List R
  /-- `B` -/
  B : List R
  A_length : A.length = S.AX * S.AY
  B_length : B.length = S.AY * S.BY

namespace Operands

/-- Reading an entry of `A`. -/
theorem getElem?_A [Zero R] (M : Operands S R) {r k : ℕ} (hr : r < S.AX) (hk : k < S.AY) :
    M.A[r * S.AY + k]? = some (M.A.getD (r * S.AY + k) 0) :=
  getElem?_flat M.A_length hr hk

/-- Reading an entry of `B`. -/
theorem getElem?_B [Zero R] (M : Operands S R) {k c : ℕ} (hk : k < S.AY) (hc : c < S.BY) :
    M.B[k * S.BY + c]? = some (M.B.getD (k * S.BY + c) 0) :=
  getElem?_flat M.B_length hk hc

end Operands

/-! ## What has been stored -/

/-- **The items that are done have stored their entries**, each once, and
the others have not. -/
structure Stored (done : Item S → Prop) (val : ℕ → ℕ → R) (g : Global S R) : Prop where
  length : g.C.length = S.AX * S.BY
  entry : ∀ i, done i → g.C[i.index]? = some (val i.globalRow i.globalCol)
  logged : ∀ n i, (n, i) ∈ g.stores ↔ done i ∧ n = i.index
  nodup : g.stores.Nodup

/-- **Every entry of `C` was stored once**, by one work-item. -/
def StoredOnce (g : Global S R) : Prop :=
  g.stores.Nodup ∧ ∀ n < S.AX * S.BY, ∃! i, (n, i) ∈ g.stores

/-- The store of an entry is one to the item's index. -/
theorem storeEntry_of_fits (hF : S.Fits) (g : Global S R) (i : Item S) (x : R) :
    g.storeEntry i x = g.store i i.index x := by
  unfold Global.storeEntry
  rw [flat_of_lt (i.index_lt.trans_le hF.2.2)]
  rfl

namespace Stored

variable {done : Item S → Prop} {val : ℕ → ℕ → R} {g g' : Global S R}

/-- Before the first step. -/
theorem start {C : List R} (hC : C.length = S.AX * S.BY) :
    Stored (fun _ => False) val (⟨C, []⟩ : Global S R) :=
  ⟨hC, fun _ h => h.elim, fun _ _ => by simp, List.nodup_nil⟩

/-- The items that are done are what matters. -/
theorem congr {done' : Item S → Prop} (h : Stored done val g) (hd : ∀ i, done' i ↔ done i) :
    Stored done' val g :=
  ⟨h.length, fun i hi => h.entry i ((hd i).mp hi), fun n i => by rw [h.logged, hd], h.nodup⟩

/-- **An item stores its entry**. -/
theorem store (h : Stored done val g) {i : Item S} (hi : ¬ done i)
    (hg : g.store i i.index (val i.globalRow i.globalCol) = some g') :
    Stored (fun j => done j ∨ j = i) val g' := by
  unfold Global.store at hg
  rw [if_pos (by rw [h.length]; exact i.index_lt)] at hg
  obtain rfl := Option.some.inj hg
  refine ⟨?_, ?_, ?_, ?_⟩
  · show (g.C.set i.index _).length = _
    rw [List.length_set, h.length]
  · intro j hj
    show (g.C.set i.index _)[j.index]? = _
    by_cases hji : j = i
    · subst hji
      rw [List.getElem?_set_self (by rw [h.length]; exact j.index_lt)]
    · rw [List.getElem?_set_ne fun he => hji (Item.index_injective he).symm]
      exact h.entry j (hj.resolve_right hji)
  · intro n j
    show (n, j) ∈ (i.index, i) :: g.stores ↔ _
    rw [List.mem_cons, h.logged, Prod.mk.injEq]
    constructor
    · rintro (⟨rfl, rfl⟩ | ⟨hj, rfl⟩)
      · exact ⟨Or.inr rfl, rfl⟩
      · exact ⟨Or.inl hj, rfl⟩
    · rintro ⟨hj | rfl, rfl⟩
      · exact Or.inr ⟨hj, rfl⟩
      · exact Or.inl ⟨rfl, rfl⟩
  · refine List.nodup_cons.mpr ⟨?_, h.nodup⟩
    rw [h.logged]
    exact fun hd => hi hd.1

/-- The store of an item has a result. -/
theorem store_isSome (h : Stored done val g) (i : Item S) (x : R) :
    (g.store i i.index x).isSome := by
  unfold Global.store
  rw [if_pos (by rw [h.length]; exact i.index_lt)]
  rfl

section

variable {κ σ l : Type} [DecidableEq κ] {K : Kernel (Item S) κ σ l (Global S R)}
  {s : State (Item S) κ σ l (Global S R)} {D : σ → Prop} {i : Item S} {p : σ}

/-- **A step of an item that is not done** either leaves `C` alone or is the
store of the item, which is done then. -/
theorem acted {m : l × Global S R} (h : Stored (fun j => D (s.priv j)) val s.glob)
    (hi : ¬ D (s.priv i))
    (hm : (¬ D p ∧ m.2 = s.glob)
      ∨ (D p ∧ s.glob.store i i.index (val i.globalRow i.globalCol) = some m.2)) :
    Stored (fun j => D ((K.acted s i p m).priv j)) val m.2 := by
  rcases hm with ⟨hp, hg⟩ | ⟨hp, hg⟩
  · rw [hg]
    refine h.congr fun j => ?_
    show D (Function.update s.priv i p j) ↔ _
    by_cases hj : j = i
    · subst hj
      rw [Function.update_self]
      exact iff_of_false hp hi
    · rw [Function.update_of_ne hj]
  · refine (h.store hi hg).congr fun j => ?_
    show D (Function.update s.priv i p j) ↔ _
    by_cases hj : j = i
    · subst hj
      rw [Function.update_self]
      exact iff_of_true hp (Or.inr rfl)
    · rw [Function.update_of_ne hj]
      exact (or_iff_left hj).symm

omit [DecidableEq κ] in
/-- An item that passes a barrier leaves `C` alone. -/
theorem released (h : Stored (fun j => D (s.priv j)) val s.glob) (hi : ¬ D (s.priv i))
    (hp : ¬ D p) :
    Stored (fun j => D ((Kernel.released s i p).priv j)) val (Kernel.released s i p).glob := by
  refine h.congr fun j => ?_
  show D (Function.update s.priv i p j) ↔ _
  by_cases hj : j = i
  · subst hj
    rw [Function.update_self]
    exact iff_of_false hp hi
  · rw [Function.update_of_ne hj]

end

/-- **When all items are done**, every entry is there and was stored once. -/
theorem all [Semiring R] {A B : List R} {n : ℕ} (h : Stored done (dot S A B · · n) g)
    (hd : ∀ i, done i) : IsProduct S A B n g.C ∧ StoredOnce g := by
  refine ⟨⟨h.length, ?_⟩, h.nodup, ?_⟩
  · intro r hr c hc
    obtain ⟨i, rfl, rfl⟩ := Item.exists_item hr hc
    exact h.entry i (hd i)
  · intro n hn
    obtain ⟨i, rfl⟩ := Item.exists_index hn
    refine ⟨i, (h.logged _ _).mpr ⟨hd i, rfl⟩, fun j hj => ?_⟩
    exact Item.index_injective ((h.logged _ _).mp hj).2.symm

end Stored

end Gemm
