import CppGraduate.Lib.CxxInt
import Mathlib.Algebra.Ring.Divisibility.Basic
import Mathlib.Data.Int.ModEq
import Mathlib.Tactic.LinearCombination
import Mathlib.Tactic.NormNum
import Mathlib.Tactic.Ring

/-!
# The sides of a polygon

`get_side` and `side_line_intersect` take the number of a side as an `int` and
first make a negative one positive, by
`index += (1 + (index / vsz)) * vsz` with `vsz` of type `std::size_t`. The
division is one of `size_t`: `index` becomes `index + 2⁶⁴`, so what is added
is the next multiple of `vsz` above that, and the sum is `2 · index` and the
distance to that multiple, cut to an `int` (`adjust_neg`). If the sum is still
negative the subscripts add `2⁶⁴` to it once more and come out right, and
otherwise they are right only for a `vsz` that divides `2⁶⁴`.

The coordinates are floating-point numbers and nothing here depends on them:
points, lines and what is computed of them are parameters. **Main result**
(`sides_cyclic_iff`): for which numbers of vertices and of a side either
function uses the vertices it is meant to use.
-/

open Cxx

namespace Triangles

/-! ## The functions -/

/-- What the polygon computes with points and lines. -/
structure Geometry (P L : Type) where
  /-- `line_t(p1, p2)`. -/
  line : P → P → L
  /-- `line.separates(p1, p2)`. -/
  separates : L → P → P → Bool
  /-- `line.point_of_intersect(another)`. -/
  pointOfIntersect : L → L → P
  /-- `point_t{}`. -/
  invalid : P

/-- `if (index < 0) index += (1 + (index / vsz)) * vsz`, where `index` is an
`int` and `vsz` a `size_t`. -/
def adjust (vsz index : ℤ) : Option ℤ :=
  if index < 0 then do
    let u := IntType.sizeT.convert index
    let q ← IntType.sizeT.arith (1 + u / vsz)
    let d ← IntType.sizeT.arith (q * vsz)
    let sum ← IntType.sizeT.arith (u + d)
    return IntType.int.convert sum
  else some index

/-- The subscripts `index % vsz` and `(index + 1) % vsz`. -/
def subscripts (vsz index : ℤ) : Option (ℤ × ℤ) := do
  let next ← IntType.int.arith (index + 1)
  return (IntType.sizeT.convert index % vsz, IntType.sizeT.convert next % vsz)

variable {P L : Type} (G : Geometry P L)

/-- **`get_side`**: the line, and the numbers of the vertices it is drawn
through. -/
def getSide (vertices : List P) (index : ℤ) : Option (L × (ℤ × ℤ)) :=
  if vertices = [] then none
  else do
    let index ← adjust vertices.length index
    let (i, j) ← subscripts vertices.length index
    let p ← vertices[i.toNat]?
    let q ← vertices[j.toNat]?
    return (G.line p q, (i, j))

/-- **`side_line_intersect`**: the point, the numbers of the vertices compared
with the line, and those of the side intersected with it, if one is. -/
def sideLineIntersect (vertices : List P) (index : ℤ) (line : L) :
    Option (P × (ℤ × ℤ) × Option (ℤ × ℤ)) := do
  let index ← adjust vertices.length index
  let (i, j) ← subscripts vertices.length index
  let p ← vertices[i.toNat]?
  let q ← vertices[j.toNat]?
  if !G.separates line p q then return (G.invalid, (i, j), none)
  else do
    let (polySide, used) ← getSide G vertices index
    return (G.pointOfIntersect line polySide, (i, j), some used)

/-! ## When the subscripts are right -/

/-- How far the next multiple of `n` is above `2⁶⁴ + index`. -/
def gap (n index : ℤ) : ℤ := n - (2 ^ 64 + index) % n

/-- The adjusted index, if an `int` leaves `k` times `2³²` out of it. -/
def shifted (n index k : ℤ) : ℤ := 2 * index + gap n index - k * 2 ^ 32

/-- **The condition on a negative index**, which has `m` times `2⁶⁴` too little
to begin with: `shifted` is in the range of `int`, and `n` divides what it has
too much in the subscripts. They add `2⁶⁴` to what is negative; at `-1` the
second subscript is `0`, and after the largest `int` there is none. -/
def Lands (n index m k : ℤ) : Prop :=
  (-2 ^ 31 ≤ shifted n index k ∧ shifted n index k ≤ -2 ∧ n ∣ m * 2 ^ 64 + k * 2 ^ 32) ∨
  (shifted n index k = -1 ∧ n ∣ m * 2 ^ 64 + k * 2 ^ 32 ∧ n ∣ 2 ^ 64) ∨
  (0 ≤ shifted n index k ∧ shifted n index k < 2 ^ 31 - 1 ∧ n ∣ (m + 1) * 2 ^ 64 + k * 2 ^ 32)

/-- **When `get_side` is right.** -/
def Cyclic (n index : ℤ) : Prop := 0 ≤ index ∨ ∃ k, Lands n index 0 k

/-- **When `side_line_intersect` is right.** If the line separates the two
vertices the adjusted index goes to `get_side`, which adjusts it again where it
is negative. -/
def CyclicLine (n index : ℤ) (separates : Prop) : Prop :=
  0 ≤ index ∨ ∃ k, Lands n index 0 k ∧
    (separates → 0 ≤ shifted n index k ∨ ∃ k', Lands n (shifted n index k) 1 k')

/-! ## Adjusting -/

/-- Conversion to `int` depends only on the value modulo `2³²`. -/
theorem convert_int_congr {z w : ℤ} (h : z ≡ w [ZMOD 2 ^ 32]) :
    IntType.int.convert z = IntType.int.convert w := by
  have h' : z % 4294967296 = w % 4294967296 := h
  simp only [IntType.convert, IntType.int, if_true]
  omega

/-- **What a negative index becomes.** -/
theorem adjust_neg {n index : ℤ} (hlo : -2 ^ 31 ≤ index) (hneg : index < 0) :
    adjust n index = some (IntType.int.convert (2 * index + gap n index)) := by
  have hu : IntType.sizeT.convert index = 2 ^ 64 + index := by
    simp only [IntType.convert, IntType.sizeT, Bool.false_eq_true, if_false]
    omega
  rw [adjust, if_pos hneg]
  simp only [hu, IntType.arith_unsigned (show IntType.sizeT.signed = false from rfl),
    show IntType.sizeT.width = 64 from rfl, Option.bind_eq_bind, Option.bind_some, Option.pure_def,
    Option.some.injEq]
  apply convert_int_congr
  -- modulo 2⁶⁴ the reductions on the way make no difference
  have hred : (2 ^ 64 + index + (1 + (2 ^ 64 + index) / n) % 2 ^ 64 * n % 2 ^ 64) % 2 ^ 64
      ≡ 2 ^ 64 + index + (1 + (2 ^ 64 + index) / n) * n [ZMOD 2 ^ 64] :=
    (Int.mod_modEq _ _).trans (Int.ModEq.add_left _
      ((Int.mod_modEq _ _).trans (Int.ModEq.mul_right n (Int.mod_modEq _ _))))
  have hsum : 2 ^ 64 + index + (1 + (2 ^ 64 + index) / n) * n
      = 2 * index + gap n index + 2 ^ 32 * 2 ^ 33 := by
    have hdiv := Int.mul_ediv_add_emod (2 ^ 64 + index) n
    rw [gap]
    linear_combination hdiv
  rw [hsum] at hred
  exact (hred.of_dvd (by norm_num)).trans (Int.add_mul_emod_self_left _ _ _)

/-- The sum and the index differ by `2⁶⁴`, up to a multiple of the number of
vertices. -/
theorem dvd_gap (n index : ℤ) : n ∣ 2 * index + gap n index - (index - 2 ^ 64) := by
  have hdiv := Int.mul_ediv_add_emod (2 ^ 64 + index) n
  refine ⟨1 + (2 ^ 64 + index) / n, ?_⟩
  rw [gap]
  linear_combination -hdiv

/-! ## Subscripts -/

/-- Two remainders are the same when the difference is divisible. -/
theorem emod_eq_emod_iff_dvd {n a b : ℤ} : a % n = b % n ↔ n ∣ a - b := by
  rw [Int.emod_eq_emod_iff_emod_sub_eq_zero, Int.dvd_iff_emod_eq_zero]

/-- An `int` as a `size_t`. -/
theorem convert_sizeT {a : ℤ} (hlo : -2 ^ 31 ≤ a) (hhi : a ≤ 2 ^ 31 - 1) :
    IntType.sizeT.convert a = if a < 0 then a + 2 ^ 64 else a := by
  simp only [IntType.convert, IntType.sizeT, Bool.false_eq_true, if_false]
  split_ifs <;> omega

/-- **When the subscripts of an index are the vertices of a side.** -/
theorem subscripts_eq_iff {n a t : ℤ} (hlo : -2 ^ 31 ≤ a) (hhi : a ≤ 2 ^ 31 - 1) :
    subscripts n a = some (t % n, (t + 1) % n) ↔
      (a ≤ -2 ∧ n ∣ a + 2 ^ 64 - t) ∨ (a = -1 ∧ n ∣ a + 2 ^ 64 - t ∧ n ∣ 2 ^ 64) ∨
        (0 ≤ a ∧ a < 2 ^ 31 - 1 ∧ n ∣ a - t) := by
  have hlimits : IntType.int.lo = -2 ^ 31 ∧ IntType.int.hi = 2 ^ 31 - 1 := ⟨rfl, rfl⟩
  rcases hhi.lt_or_eq with hlt | rfl
  · have hnext : subscripts n a
        = some (IntType.sizeT.convert a % n, IntType.sizeT.convert (a + 1) % n) := by
      rw [subscripts, IntType.arith_of_inRange (by omega) (by omega)]
      rfl
    rw [hnext, Option.some.injEq, Prod.mk.injEq, emod_eq_emod_iff_dvd, emod_eq_emod_iff_dvd,
      convert_sizeT hlo hhi, convert_sizeT (by omega) (by omega)]
    rcases lt_trichotomy a (-1) with h | rfl | h
    · rw [if_pos (by omega), if_pos (by omega),
        show a + 1 + 2 ^ 64 - (t + 1) = a + 2 ^ 64 - t by ring, and_self]
      constructor
      · exact fun hd => .inl ⟨by omega, hd⟩
      · rintro (⟨-, hd⟩ | ⟨ha, -⟩ | ⟨ha, -⟩)
        · exact hd
        · omega
        · omega
    · rw [if_pos (by omega), if_neg (by omega)]
      have hzero : n ∣ -1 + 2 ^ 64 - t → (n ∣ -1 + 1 - (t + 1) ↔ n ∣ 2 ^ 64) := by
        intro hd
        rw [show (-1 + 1 - (t + 1) : ℤ) = (-1 + 2 ^ 64 - t) - 2 ^ 64 by ring]
        exact dvd_sub_right hd
      constructor
      · exact fun ⟨hd, hd'⟩ => .inr (.inl ⟨rfl, hd, (hzero hd).mp hd'⟩)
      · rintro (⟨ha, -⟩ | ⟨-, hd, hd'⟩ | ⟨ha, -⟩)
        · omega
        · exact ⟨hd, (hzero hd).mpr hd'⟩
        · omega
    · rw [if_neg (by omega), if_neg (by omega), show a + 1 - (t + 1) = a - t by ring, and_self]
      constructor
      · exact fun hd => .inr (.inr ⟨by omega, hlt, hd⟩)
      · rintro (⟨ha, -⟩ | ⟨ha, -⟩ | ⟨-, -, hd⟩)
        · omega
        · omega
        · exact hd
  · -- after the largest `int` there is no next one
    have hnone : subscripts n (2 ^ 31 - 1) = none := by
      rw [subscripts, IntType.arith_signed_of_hi_lt rfl (by omega)]
      rfl
    rw [hnone]
    constructor
    · exact fun h => absurd h (by simp)
    · rintro (⟨ha, -⟩ | ⟨ha, -⟩ | ⟨-, ha, -⟩) <;> omega

/-! ## The two functions -/

/-- The conversion to `int` leaves some multiple of `2³²` out. -/
theorem exists_adjust_eq {n index : ℤ} (hlo : -2 ^ 31 ≤ index) (hneg : index < 0) :
    ∃ k, adjust n index = some (shifted n index k) ∧ -2 ^ 31 ≤ shifted n index k ∧
      shifted n index k ≤ 2 ^ 31 - 1 := by
  refine ⟨(2 * index + gap n index + 2 ^ 31) / 2 ^ 32, ?_⟩
  rw [adjust_neg hlo hneg]
  simp only [IntType.convert, IntType.int, if_true, shifted, Option.some.injEq]
  omega

/-- The multiple the condition is about is the one left out. -/
theorem Lands.adjust_eq {n index m k : ℤ} (h : Lands n index m k) (hlo : -2 ^ 31 ≤ index)
    (hneg : index < 0) : adjust n index = some (shifted n index k) := by
  obtain ⟨k', hadjust, hle, hge⟩ := exists_adjust_eq (n := n) hlo hneg
  have hk : k = k' := by
    simp only [Lands, shifted] at h hle hge
    rcases h with ⟨h₁, h₂, -⟩ | ⟨h₁, -⟩ | ⟨h₁, h₂, -⟩ <;> omega
  rw [hk, hadjust]

/-- **A negative index lands on a side**: adjusting and subscripting give the
vertices of side `t`, of which the index is `m` times `2⁶⁴` short, exactly under
the condition. -/
theorem adjust_subscripts_iff {n index t m : ℤ} (hlo : -2 ^ 31 ≤ index) (hneg : index < 0)
    (ht : n ∣ index + m * 2 ^ 64 - t) :
    (adjust n index).bind (subscripts n) = some (t % n, (t + 1) % n) ↔ ∃ k, Lands n index m k := by
  obtain ⟨k, hadjust, hle, hge⟩ := exists_adjust_eq (n := n) hlo hneg
  -- what the subscripts have too much
  have hdvd : ∀ d, n ∣ shifted n index k + d - t ↔ n ∣ (m + 1) * 2 ^ 64 + k * 2 ^ 32 - d := by
    intro d
    have hsum := dvd_add (dvd_gap n index) ht
    rw [shifted, show 2 * index + gap n index - k * 2 ^ 32 + d - t
      = 2 * index + gap n index - (index - 2 ^ 64) + (index + m * 2 ^ 64 - t)
        - ((m + 1) * 2 ^ 64 + k * 2 ^ 32 - d) by ring]
    exact dvd_sub_right hsum
  have hpos : n ∣ shifted n index k - t ↔ n ∣ (m + 1) * 2 ^ 64 + k * 2 ^ 32 := by
    have h := hdvd 0
    rwa [add_zero, sub_zero] at h
  have hneg' : n ∣ shifted n index k + 2 ^ 64 - t ↔ n ∣ m * 2 ^ 64 + k * 2 ^ 32 := by
    rw [hdvd (2 ^ 64),
      show (m + 1) * 2 ^ 64 + k * 2 ^ 32 - 2 ^ 64 = m * 2 ^ 64 + k * 2 ^ 32 by ring]
  rw [hadjust, Option.bind_some, subscripts_eq_iff hle hge, hpos, hneg']
  constructor
  · rintro (⟨h₁, hd⟩ | h | h)
    · exact ⟨k, .inl ⟨hle, h₁, hd⟩⟩
    · exact ⟨k, .inr (.inl h)⟩
    · exact ⟨k, .inr (.inr h)⟩
  · rintro ⟨k', h⟩
    have hk : shifted n index k' = shifted n index k :=
      Option.some.inj ((h.adjust_eq hlo hneg).symm.trans hadjust)
    obtain rfl : k' = k := by
      simp only [shifted] at hk
      omega
    rcases h with ⟨-, h₁, hd⟩ | h | h
    · exact .inl ⟨h₁, hd⟩
    · exact .inr (.inl h)
    · exact .inr (.inr h)

/-- A non-negative index is used as it is. -/
theorem adjust_subscripts_of_nonneg {n index : ℤ} (hnonneg : 0 ≤ index)
    (hhi : index + 1 ≤ 2 ^ 31 - 1) :
    (adjust n index).bind (subscripts n) = some (index % n, (index + 1) % n) := by
  rw [adjust, if_neg (by omega), Option.bind_some, subscripts_eq_iff (by omega) (by omega)]
  exact .inr (.inr ⟨hnonneg, by omega, by simp⟩)

/-- Vertices with the numbers of a side exist. -/
theorem exists_getElem?_emod {vertices : List P} (hne : vertices ≠ []) (t : ℤ) :
    ∃ p, vertices[(t % vertices.length).toNat]? = some p := by
  have hpos : 0 < vertices.length := List.length_pos_iff.mpr hne
  have hlt := Int.emod_lt_of_pos t (show (0 : ℤ) < vertices.length by omega)
  exact ⟨_, List.getElem?_eq_getElem (show (t % vertices.length).toNat < vertices.length by omega)⟩

/-- **What `get_side` uses** is what the subscripts are. -/
theorem getSide_iff {vertices : List P} (hne : vertices ≠ []) (index t : ℤ) :
    (∃ l, getSide G vertices index
        = some (l, (t % vertices.length, (t + 1) % vertices.length))) ↔
      (adjust vertices.length index).bind (subscripts vertices.length)
        = some (t % vertices.length, (t + 1) % vertices.length) := by
  rw [getSide, if_neg hne]
  constructor
  · rintro ⟨l, h⟩
    obtain ⟨a, ha, h⟩ := Option.bind_eq_some_iff.mp h
    obtain ⟨⟨i, j⟩, hij, h⟩ := Option.bind_eq_some_iff.mp h
    obtain ⟨p, -, h⟩ := Option.bind_eq_some_iff.mp h
    obtain ⟨q, -, h⟩ := Option.bind_eq_some_iff.mp h
    obtain ⟨-, rfl, rfl⟩ : G.line p q = l ∧ i = t % vertices.length ∧
        j = (t + 1) % vertices.length := by simpa using h
    rw [ha, Option.bind_some, hij]
  · intro h
    obtain ⟨a, ha, hij⟩ := Option.bind_eq_some_iff.mp h
    obtain ⟨p, hp⟩ := exists_getElem?_emod hne t
    obtain ⟨q, hq⟩ := exists_getElem?_emod hne (t + 1)
    exact ⟨G.line p q, by simp [ha, hij, hp, hq]⟩

/-- The line separates the two vertices of a side. -/
def SeparatesSide (vertices : List P) (t : ℤ) (line : L) : Prop :=
  ∃ p q, vertices[(t % vertices.length).toNat]? = some p ∧
    vertices[((t + 1) % vertices.length).toNat]? = some q ∧ G.separates line p q = true

/-- **What `side_line_intersect` uses**: the subscripts of the adjusted index,
and what `get_side` makes of that index if the line separates the two
vertices. -/
theorem sideLineIntersect_iff {vertices : List P} (hne : vertices ≠ []) (index t : ℤ) (line : L) :
    (∃ p side, sideLineIntersect G vertices index line
          = some (p, (t % vertices.length, (t + 1) % vertices.length), side) ∧
        ∀ used ∈ side, used = (t % vertices.length, (t + 1) % vertices.length)) ↔
      ∃ a, adjust vertices.length index = some a ∧
        subscripts vertices.length a = some (t % vertices.length, (t + 1) % vertices.length) ∧
        (SeparatesSide G vertices t line → ∃ l, getSide G vertices a
          = some (l, (t % vertices.length, (t + 1) % vertices.length))) := by
  obtain ⟨p, hp⟩ := exists_getElem?_emod hne t
  obtain ⟨q, hq⟩ := exists_getElem?_emod hne (t + 1)
  have hsep : SeparatesSide G vertices t line ↔ G.separates line p q = true := by
    simp [SeparatesSide, hp, hq]
  rw [hsep]
  constructor
  · rintro ⟨r, side, h, huses⟩
    obtain ⟨a, ha, h⟩ := Option.bind_eq_some_iff.mp h
    obtain ⟨⟨i, j⟩, hij, h⟩ := Option.bind_eq_some_iff.mp h
    obtain ⟨p', hp', h⟩ := Option.bind_eq_some_iff.mp h
    obtain ⟨q', hq', h⟩ := Option.bind_eq_some_iff.mp h
    by_cases hs : G.separates line p' q' = true
    · rw [hs] at h
      obtain ⟨⟨l, used⟩, hside, h⟩ := Option.bind_eq_some_iff.mp h
      obtain ⟨-, ⟨rfl, rfl⟩, rfl⟩ : G.pointOfIntersect line l = r ∧
          (i = t % vertices.length ∧ j = (t + 1) % vertices.length) ∧ some used = side := by
        simpa using h
      exact ⟨a, ha, hij, fun _ => ⟨l, by rw [hside, huses used rfl]⟩⟩
    · rw [Bool.not_eq_true] at hs
      rw [hs] at h
      obtain ⟨-, ⟨rfl, rfl⟩, -⟩ : G.invalid = r ∧
          (i = t % vertices.length ∧ j = (t + 1) % vertices.length) ∧ none = side := by
        simpa using h
      refine ⟨a, ha, hij, fun h => ?_⟩
      rw [← Option.some.inj (hp.symm.trans hp'), ← Option.some.inj (hq.symm.trans hq'), h] at hs
      cases hs
  · rintro ⟨a, ha, hij, hside⟩
    cases hs : G.separates line p q with
    | false =>
      refine ⟨G.invalid, none, ?_, by simp⟩
      simp [sideLineIntersect, ha, hij, hp, hq, hs]
    | true =>
      obtain ⟨l, hl⟩ := hside hs
      refine ⟨G.pointOfIntersect line l, some (t % vertices.length, (t + 1) % vertices.length), ?_,
        by simp⟩
      simp [sideLineIntersect, ha, hij, hp, hq, hs, hl]

/-! ## All polygons, all indices -/

/-- **When both pairs of subscripts are right**: the condition for
`side_line_intersect`. -/
theorem subscripts_twice_iff {n index : ℤ} (hlo : -2 ^ 31 ≤ index) (hhi : index + 1 ≤ 2 ^ 31 - 1)
    (separates : Prop) :
    (∃ a, adjust n index = some a ∧ subscripts n a = some (index % n, (index + 1) % n) ∧
        (separates → (adjust n a).bind (subscripts n) = some (index % n, (index + 1) % n))) ↔
      CyclicLine n index separates := by
  rcases Int.lt_or_le index 0 with hneg | hnonneg
  · have hfirst := adjust_subscripts_iff (n := n) (t := index) (m := 0) hlo hneg (by simp)
    obtain ⟨k, hadjust, hle, hge⟩ := exists_adjust_eq (n := n) hlo hneg
    -- the second adjustment starts `2⁶⁴` short
    have hsecond : subscripts n (shifted n index k) = some (index % n, (index + 1) % n) →
        ((adjust n (shifted n index k)).bind (subscripts n) = some (index % n, (index + 1) % n) ↔
          0 ≤ shifted n index k ∨ ∃ k', Lands n (shifted n index k) 1 k') := by
      intro hsub
      rcases Int.lt_or_le (shifted n index k) 0 with ha | ha
      · rw [or_iff_right (by omega)]
        refine adjust_subscripts_iff hle ha ?_
        rw [one_mul]
        rcases (subscripts_eq_iff hle hge).mp hsub with ⟨-, hd⟩ | ⟨-, hd, -⟩ | ⟨ha', -⟩
        · exact hd
        · exact hd
        · omega
      · refine iff_of_true ?_ (.inl ha)
        rw [adjust, if_neg (by omega), Option.bind_some, hsub]
    rw [hadjust, Option.bind_some] at hfirst
    constructor
    · rintro ⟨a, ha, hsub, htwice⟩
      obtain rfl := Option.some.inj (hadjust.symm.trans ha)
      obtain ⟨k', hk'⟩ := hfirst.mp hsub
      have heq := Option.some.inj ((hk'.adjust_eq hlo hneg).symm.trans hadjust)
      refine .inr ⟨k', hk', fun hs => ?_⟩
      rw [heq]
      exact (hsecond hsub).mp (htwice hs)
    · rintro (h | ⟨k', hk', htwice⟩)
      · omega
      have heq := Option.some.inj ((hk'.adjust_eq hlo hneg).symm.trans hadjust)
      rw [heq] at htwice
      have hsub := hfirst.mpr ⟨k', hk'⟩
      exact ⟨_, hadjust, hsub, fun hs => (hsecond hsub).mpr (htwice hs)⟩
  · have hboth := adjust_subscripts_of_nonneg (n := n) hnonneg hhi
    have hadjust : adjust n index = some index := if_neg (by omega)
    refine iff_of_true ⟨index, hadjust, ?_, fun _ => hboth⟩ (.inl hnonneg)
    rwa [hadjust, Option.bind_some] at hboth

/-- **Main result.** `get_side` draws its line through the vertices
`index mod n` and `(index + 1) mod n` exactly when `Cyclic` holds, and
`side_line_intersect` compares and intersects that side exactly when
`CyclicLine` does. -/
theorem sides_cyclic_iff (vertices : List P) (index : ℤ) (hne : vertices ≠ [])
    (hlo : -2 ^ 31 ≤ index) (hhi : index + 1 ≤ 2 ^ 31 - 1) :
    ((∃ l, getSide G vertices index
        = some (l, (index % vertices.length, (index + 1) % vertices.length))) ↔
      Cyclic vertices.length index) ∧
    ∀ line, (∃ p side, sideLineIntersect G vertices index line
          = some (p, (index % vertices.length, (index + 1) % vertices.length), side) ∧
        ∀ used ∈ side, used = (index % vertices.length, (index + 1) % vertices.length)) ↔
      CyclicLine vertices.length index (SeparatesSide G vertices index line) := by
  refine ⟨?_, fun line => ?_⟩
  · rw [getSide_iff G hne]
    rcases Int.lt_or_le index 0 with hneg | hnonneg
    · rw [adjust_subscripts_iff (m := 0) hlo hneg (by simp), Cyclic, or_iff_right (by omega)]
    · exact iff_of_true (adjust_subscripts_of_nonneg hnonneg hhi) (.inl hnonneg)
  · rw [sideLineIntersect_iff G hne]
    simp only [getSide_iff G hne]
    exact subscripts_twice_iff hlo hhi _

/-- **The side before the first**: in a polygon of any size an `int` can index,
`-1` is right only if the number of vertices divides `2⁶⁴`. -/
theorem cyclic_neg_one_iff {n : ℤ} (hpos : 0 < n) (hn : n ≤ 2 ^ 31) :
    Cyclic n (-1) ↔ n ∣ 2 ^ 64 := by
  have hlt := Int.emod_lt_of_pos (2 ^ 64 + -1) hpos
  have hge := Int.emod_nonneg (2 ^ 64 + -1) hpos.ne'
  have hshift : ∀ k, shifted n (-1) k = -2 + (n - (2 ^ 64 + -1) % n) - k * 2 ^ 32 := fun _ => rfl
  constructor
  · rintro (h | ⟨k, ⟨h₁, h₂, -⟩ | ⟨-, -, h⟩ | ⟨h₁, h₂, h⟩⟩)
    · omega
    · rw [hshift] at h₁ h₂
      omega
    · exact h
    · rw [hshift] at h₁ h₂
      obtain rfl : k = 0 := by omega
      simpa using h
  · intro h
    refine .inr ⟨0, .inr ?_⟩
    by_cases hs : shifted n (-1) 0 = -1
    · exact .inl ⟨hs, by simp, h⟩
    · refine .inr ⟨?_, ?_, by simpa using h⟩
      · rw [hshift] at hs ⊢
        omega
      · rw [hshift]
        omega

/-! ## A triangle -/

/-- Points as pairs of integers and lines as pairs of points, which separate
nothing. -/
def pairs : Geometry (ℤ × ℤ) ((ℤ × ℤ) × (ℤ × ℤ)) where
  line := fun p q => (p, q)
  separates := fun _ _ _ => false
  pointOfIntersect := fun l _ => l.1
  invalid := (0, 0)

/-- Side `-2` of a triangle. -/
theorem sides_cyclic_iff_triangle :
    ((∃ l, getSide pairs [(0, 0), (4, 0), (0, 3)] (-2) = some (l, ((-2) % 3, (-2 + 1) % 3))) ↔
      Cyclic 3 (-2)) ∧
    ∀ line, (∃ p side, sideLineIntersect pairs [(0, 0), (4, 0), (0, 3)] (-2) line
          = some (p, ((-2) % 3, (-2 + 1) % 3), side) ∧
        ∀ used ∈ side, used = ((-2) % 3, (-2 + 1) % 3)) ↔
      CyclicLine 3 (-2) (SeparatesSide pairs [(0, 0), (4, 0), (0, 3)] (-2) line) :=
  sides_cyclic_iff pairs [(0, 0), (4, 0), (0, 3)] (-2) (by decide) (by decide) (by decide)

/-- Side `-1` of a triangle is drawn through the vertices `1` and `2`. -/
theorem sides_cyclic_counterexample :
    ¬ ∀ (vertices : List (ℤ × ℤ)) (index : ℤ), vertices ≠ [] → -2 ^ 31 ≤ index →
      index + 1 ≤ 2 ^ 31 - 1 →
      ∃ l, getSide pairs vertices index
        = some (l, (index % vertices.length, (index + 1) % vertices.length)) := by
  intro h
  obtain ⟨l, hl⟩ := h [(0, 0), (4, 0), (0, 3)] (-1) (by decide) (by decide) (by decide)
  have hrun : getSide pairs [(0, 0), (4, 0), (0, 3)] (-1) = some (((4, 0), (0, 3)), (1, 2)) := by
    decide
  rw [hrun] at hl
  simp at hl

end Triangles
