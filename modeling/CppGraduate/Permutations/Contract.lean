import CppGraduate.Permutations.Perms

/-!
# What permutations guarantee

Three results about whole `Permutation` objects. Constructing one from a
sequence of loops keeps the meaning of the sequence, exactly where the
computation of the table size and the counting in it stay in the range of
the base type. Every object that constructors, products and inverses can
produce is in canonical form, and two of them are equal as stored objects
only if they act alike. And products and inverses satisfy the laws of a
group, again as equalities of stored objects, exactly where the table size
is in range.
-/

namespace Permutations

open Cxx Dom Cycles Equiv Equiv.Perm

variable {D : Dom}

/-! ## Where the size of the table is out of range -/

/-- A signed table size out of range leaves nothing to simplify. -/
theorem simplifyLoops_signed (h : ¬ D.CountFits) (hs : D.base.promote.signed = true)
    (loops : List (PermLoop D)) : simplifyLoops loops = .error .undefined := by
  unfold simplifyLoops
  rw [Idom.extent_signed h hs, error_bind]

/-- An unsigned table size out of range makes the table empty. -/
theorem simplifyLoops_unsigned (h : ¬ D.CountFits) (hu : D.base.promote.signed = false)
    (hlt : D.start < D.fin) (loops : List (PermLoop D)) :
    simplifyLoops loops = applyAll loops.reverse [] >>= createLoops := by
  unfold simplifyLoops
  rw [Idom.extent_unsigned h hu, ok_bind,
    Idom.ofBase_val (⟨D.start, le_rfl, hlt.le⟩ : Idom D)]
  rfl

/-- **An empty table has no entry to shift**: the first loop applied to it
reads outside. -/
theorem applyTable_nil (h : ¬ D.CountFits) (hu : D.base.promote.signed = false)
    (hlt : D.start < D.fin) (l : PermLoop D) : l.applyTable [] = .error .undefined := by
  obtain ⟨n, hn⟩ : ∃ n, (l.loop.head l.ne).offset = .ok n := by
    unfold Idom.offset
    rw [IntType.arith_unsigned hu]
    exact ⟨_, rfl⟩
  unfold PermLoop.applyTable
  rw [assert_of_true (decide_eq_true hlt),
    assert_of_true (decide_eq_true (l.loop.head l.ne).property.1),
    assert_of_true (decide_eq_true (l.loop.getLast l.ne).property.2), Idom.extent_unsigned h hu]
  simp only [ok_bind, List.length_nil, Nat.cast_zero]
  rw [assert_of_true (decide_eq_true trivial), ok_bind, hn, ok_bind, readAt_nil, error_bind]

/-- So a sequence with a loop in it cannot be simplified there. -/
theorem simplifyLoops_wrapped (h : ¬ D.CountFits) (hu : D.base.promote.signed = false)
    (hlt : D.start < D.fin) {loops : List (PermLoop D)} (hne : loops ≠ []) :
    simplifyLoops loops = .error .undefined := by
  rw [simplifyLoops_unsigned h hu hlt]
  obtain ⟨l, ls, hl⟩ := List.exists_cons_of_ne_nil (mt List.reverse_eq_nil_iff.mp hne)
  unfold applyAll
  rw [hl, List.foldlM_cons, applyTable_nil h hu hlt, error_bind, error_bind]

/-- Where counting past the last element is undefined, the table cannot be
filled in. -/
theorem simplifyLoops_incr (hfits : D.CountFits) (h : ¬ D.IncrFits) (hle : D.start ≤ D.fin)
    (loops : List (PermLoop D)) : simplifyLoops loops = .error .undefined := by
  have hpos : 0 < D.card := by
    unfold card
    omega
  have hiota := iotaFrom_of_not_fits h
    (List.replicate D.card (⟨D.start, le_rfl, hle⟩ : Idom D)) (i := 0) (by simp)
    (by simpa using hpos.ne')
  rw [Nat.cast_zero, add_zero] at hiota
  rw [simplifyLoops_of_fits hfits hle, hiota, error_bind]

/-! ## Constructing from loops -/

/-- Constructing from loops keeps their meaning: there is a permutation, and
it sends every element where the loops, one after another, send it. -/
def KeepsMeaning (loops : List (PermLoop D)) : Prop :=
  ∃ p, Permutation.ofLoops loops = .ok p
    ∧ ∀ x, p.apply x = loops.foldl (fun y l => l.apply y) x

/-- The arithmetic of the construction stays in range: the number of
elements fits the promoted base type, and a signed type of the width of
`int` or more has a value after the last element. Without loops an unsigned
base type needs neither. -/
def ArithmeticFits (loops : List (PermLoop D)) : Prop :=
  (D.CountFits ∧ D.IncrFits) ∨ (D.base.promote.signed = false ∧ loops = [])

/-- A type of the base of which unsigned arithmetic is done never
overflows. -/
theorem incrFits_of_unsigned (hu : D.base.promote.signed = false) : D.IncrFits := by
  intro _ hover
  rw [IntType.promote_of_overflows hover, hover.1] at hu
  cases hu

/-- **Simplifying loops preserves their meaning, exactly where the
arithmetic stays in range.** The sequence may hold any loops with distinct
elements, overlapping in any way. -/
theorem keepsMeaning_iff (hlt : D.start < D.fin) {loops : List (PermLoop D)}
    (h : ∀ l ∈ loops, l.loop.Nodup) : KeepsMeaning loops ↔ ArithmeticFits loops := by
  constructor
  · rintro ⟨p, hp, -⟩
    have hfail : simplifyLoops loops ≠ .error .undefined := by
      intro he
      unfold Permutation.ofLoops at hp
      rw [he, error_bind] at hp
      cases hp
    by_cases hfits : D.CountFits
    · by_cases hincr : D.IncrFits
      · exact Or.inl ⟨hfits, hincr⟩
      · exact absurd (simplifyLoops_incr hfits hincr hlt.le loops) hfail
    · cases hs : D.base.promote.signed with
      | true => exact absurd (simplifyLoops_signed hfits hs loops) hfail
      | false =>
        refine Or.inr ⟨hs, ?_⟩
        by_contra hne
        exact hfail (simplifyLoops_wrapped hfits hs hlt hne)
  · intro hok
    by_cases hfits : D.CountFits ∧ D.IncrFits
    · refine ⟨_, Permutation.ofLoops_eq hfits.1 hfits.2 hlt h, fun x => ?_⟩
      rw [Permutation.canon_apply, foldl_apply_eq h]
    · obtain ⟨hu, rfl⟩ := hok.resolve_left hfits
      have hcount : ¬ D.CountFits := fun hc => hfits ⟨hc, incrFits_of_unsigned hu⟩
      have hnil : applyAll ([] : List (PermLoop D)).reverse [] >>= createLoops = .ok [] := rfl
      refine ⟨⟨[]⟩, ?_, fun x => rfl⟩
      unfold Permutation.ofLoops Permutation.sortloops
      rw [simplifyLoops_unsigned hcount hu hlt, hnil, ok_bind, List.mergeSort_nil]
      rfl

/-- `Idom<unsigned, 0, 4294967295>`, all values of `unsigned`. -/
def allUnsigned : Dom := ⟨.unsigned, 0, 2 ^ 32 - 1, by decide, by decide⟩

/-- The loop `(0 1)` over all values of `unsigned`. -/
def swapZeroOne : PermLoop allUnsigned :=
  PermLoop.ofList [⟨0, by decide⟩, ⟨1, by decide⟩] (List.cons_ne_nil _ _)

/-- The number of all values of `unsigned` wraps around to zero, the table
is empty, and the loop `(0 1)` is applied outside of it. -/
theorem not_keepsMeaning_swapZeroOne :
    allUnsigned.start < allUnsigned.fin ∧ (∀ l ∈ [swapZeroOne], l.loop.Nodup)
      ∧ ¬ KeepsMeaning [swapZeroOne] := by
  refine ⟨by decide, by decide, ?_⟩
  rintro ⟨p, hp, -⟩
  unfold Permutation.ofLoops at hp
  rw [simplifyLoops_wrapped (by decide) (by decide) (by decide) (List.cons_ne_nil _ _),
    error_bind] at hp
  cases hp

/-- `Idom<unsigned, 1, 4>`, the domain of the tests. -/
def oneToFour : Dom := ⟨.unsigned, 1, 4, by decide, by decide⟩

/-- The loops `(1 3 2)` and `(1 2 4)` of the tests share two elements. -/
def testLoops : List (PermLoop oneToFour) :=
  [PermLoop.ofList [⟨1, by decide⟩, ⟨3, by decide⟩, ⟨2, by decide⟩] (List.cons_ne_nil _ _),
   PermLoop.ofList [⟨1, by decide⟩, ⟨2, by decide⟩, ⟨4, by decide⟩] (List.cons_ne_nil _ _)]

/-- The loops `(1 2 3 4)` and `(1 2)`, which the tests generate their group
with. -/
def testGens : List (PermLoop oneToFour) :=
  [PermLoop.ofList [⟨1, by decide⟩, ⟨2, by decide⟩, ⟨3, by decide⟩, ⟨4, by decide⟩]
    (List.cons_ne_nil _ _),
   PermLoop.ofList [⟨1, by decide⟩, ⟨2, by decide⟩] (List.cons_ne_nil _ _)]

/-- The permutation of the test's loops acts as the loops do. -/
theorem keepsMeaning_testLoops : KeepsMeaning testLoops :=
  (keepsMeaning_iff (by decide) (by decide)).mpr (Or.inl (by decide))

/-! ## The canonical form of every reachable permutation -/

/-- **The objects a program can come to have**: results of the constructors,
of products and of inverses. The loops a constructor is given have distinct
elements. -/
inductive Reachable : Permutation D → Prop
  /-- `Permutation()` -/
  | default {p : Permutation D} (h : Permutation.default D = .ok p) : Reachable p
  /-- `Permutation(ibeg, ifin)` -/
  | ofLoops {p : Permutation D} {loops : List (PermLoop D)} (hd : ∀ l ∈ loops, l.loop.Nodup)
    (h : Permutation.ofLoops loops = .ok p) : Reachable p
  /-- `p.lmul(q)` -/
  | lmul {p q r : Permutation D} (hp : Reachable p) (hq : Reachable q) (h : p.lmul q = .ok r) :
    Reachable r
  /-- `p.rmul(q)` -/
  | rmul {p q r : Permutation D} (hp : Reachable p) (hq : Reachable q) (h : p.rmul q = .ok r) :
    Reachable r
  /-- `p.inverse()` -/
  | inverse {p : Permutation D} (hp : Reachable p) : Reachable p.inverse
  /-- `product(p, q)` -/
  | product {p q r : Permutation D} (hp : Reachable p) (hq : Reachable q)
    (h : p.product q = .ok r) : Reachable r
  /-- `invert(p)` -/
  | invert {p : Permutation D} (hp : Reachable p) : Reachable p.invert

/-- Each of the loops of the tests makes a generator. -/
theorem exists_testGens :
    ∃ gen gen' : Permutation oneToFour, Permutation.ofLoops (testGens.take 1) = .ok gen
      ∧ Permutation.ofLoops (testGens.drop 1) = .ok gen' ∧ ∀ g ∈ [gen, gen'], Reachable g := by
  have hnodup : ∀ l ∈ testGens.take 1, l.loop.Nodup := by decide
  have hnodup' : ∀ l ∈ testGens.drop 1, l.loop.Nodup := by decide
  have h := Permutation.ofLoops_eq (by decide) (by decide) (by decide) hnodup
  have h' := Permutation.ofLoops_eq (by decide) (by decide) (by decide) hnodup'
  exact ⟨_, _, h, h', List.forall_mem_cons.mpr ⟨.ofLoops hnodup h,
    List.forall_mem_singleton.mpr (.ofLoops hnodup' h')⟩⟩

/-- A simplification that returned had a table size in range. -/
theorem countFits_of_simplifyLoops (hhi : D.fin < D.base.hi) {loops out : List (PermLoop D)}
    (h : simplifyLoops loops = .ok out) : D.CountFits := by
  by_contra hfits
  have hover : D.base.OverflowsAtHi := by
    by_contra hnot
    exact hfits (countFits_of_lt hnot hhi)
  rw [simplifyLoops_signed hfits (by rw [IntType.promote_of_overflows hover]; exact hover.1)] at h
  cases h

/-- Constructing from distinct loops yields a canonical form, if
anything. -/
theorem canon_of_ofLoops (hlt : D.start < D.fin) (hhi : D.fin < D.base.hi)
    {loops : List (PermLoop D)} {p : Permutation D} (hd : ∀ l ∈ loops, l.loop.Nodup)
    (h : Permutation.ofLoops loops = .ok p) : p = canon (composed loops) := by
  obtain ⟨out, hout, -⟩ := bind_eq_ok.mp h
  have hfits := countFits_of_simplifyLoops hhi hout
  rw [Permutation.ofLoops_eq hfits (incrFits_of_lt hhi) hlt hd] at h
  exact (Except.ok.inj h).symm

/-- **Every reachable permutation is in canonical form.** -/
theorem Reachable.exists_canon (hlt : D.start < D.fin) (hhi : D.fin < D.base.hi)
    {p : Permutation D} (h : Reachable p) : ∃ σ, p = canon σ := by
  have hmul : ∀ {p q r : Permutation D}, (∃ σ, p = canon σ) → (∃ σ, q = canon σ) →
      p.rmul q = .ok r → ∃ σ, r = canon σ := by
    rintro p q r ⟨σ, rfl⟩ ⟨τ, rfl⟩ h
    refine ⟨_, canon_of_ofLoops hlt hhi (fun l hl => ?_) h⟩
    exact (List.mem_append.mp hl).elim (nodup_of_mem_canon σ l) (nodup_of_mem_canon τ l)
  induction h with
  | default h =>
    rw [Permutation.default_eq hhi] at h
    exact ⟨1, (Except.ok.inj h).symm⟩
  | ofLoops hd h => exact ⟨_, canon_of_ofLoops hlt hhi hd h⟩
  | lmul _ _ h ihp ihq => exact hmul ihq ihp h
  | rmul _ _ h ihp ihq => exact hmul ihp ihq h
  | inverse _ ih =>
    obtain ⟨σ, rfl⟩ := ih
    exact ⟨σ⁻¹, Permutation.inverse_canon σ⟩
  | product _ _ h ihp ihq => exact hmul ihp ihq h
  | invert _ ih =>
    obtain ⟨σ, rfl⟩ := ih
    exact ⟨σ⁻¹, Permutation.inverse_canon σ⟩

/-- Reachable permutations have a product where the table size is in
range. -/
theorem Reachable.exists_product (hlt : D.start < D.fin) (hhi : D.fin < D.base.hi)
    (hfits : D.CountFits) {p q : Permutation D} (hp : Reachable p) (hq : Reachable q) :
    ∃ r, p.product q = .ok r := by
  obtain ⟨σ, rfl⟩ := hp.exists_canon hlt hhi
  obtain ⟨τ, rfl⟩ := hq.exists_canon hlt hhi
  exact ⟨_, Permutation.rmul_canon hfits (incrFits_of_lt hhi) hlt σ τ⟩

/-- **Canonical form**, as the loops show it. -/
structure IsCanonical (p : Permutation D) : Prop where
  /-- Every element occurs in exactly one loop, and there once. -/
  once : ∀ x, (p.loops.flatMap PermLoop.loop).count x = 1
  /-- Every loop begins with its smallest element. -/
  smallest_le : ∀ l ∈ p.loops, ∀ x ∈ l.loop, l.smallest ≤ x
  /-- The smallest elements decrease strictly. -/
  decreasing : p.loops.Pairwise (fun l m => m.smallest < l.smallest)

/-- Canonical forms are canonical. -/
theorem isCanonical_canon (σ : Perm (Idom D)) : IsCanonical (canon σ) where
  once x := by
    have hnodup : ((canon σ).loops.flatMap PermLoop.loop).Nodup := by
      refine List.nodup_flatMap.mpr ⟨nodup_of_mem_canon σ, ?_⟩
      refine List.pairwise_map.mpr ((pairwise_leaders_reverse σ).imp (fun hst x hs ht => hst ?_))
      exact (mem_cycle.mp hs).trans (mem_cycle.mp ht).symm
    obtain ⟨t, ht, htx⟩ := exists_leader σ x
    exact List.count_eq_one_of_mem hnodup
      (List.mem_flatMap.mpr ⟨loopAt σ t, List.mem_map_of_mem ht, mem_cycle.mpr htx⟩)
  smallest_le l hl x hx := by
    obtain ⟨t, ht, rfl⟩ := List.mem_map.mp hl
    rw [smallest_loopAt]
    exact (mem_leaders.mp (List.mem_reverse.mp ht)).2 x (mem_cycle.mp hx)
  decreasing := by
    refine List.pairwise_map.mpr ((sorted_leaders_reverse σ).imp (fun h => ?_))
    rwa [smallest_loopAt, smallest_loopAt]

namespace Permutation

/-- Strictly decreasing loops pass the comparison of neighbours. -/
theorem checkOrder_of_decreasing {loops : List (PermLoop D)}
    (h : loops.Pairwise (fun l m => m.smallest < l.smallest)) : checkOrder loops = .ok () := by
  induction loops with
  | nil => rfl
  | cons l ls ih =>
    cases ls with
    | nil => rfl
    | cons m rest =>
      obtain ⟨hl, hls⟩ := List.pairwise_cons.mp h
      have hlt := hl m List.mem_cons_self
      rw [checkOrder, if_neg hlt.ne', if_neg hlt.not_gt]
      exact ih hls

/-- A canonical permutation contains every element. -/
theorem contains_of_isCanonical {p : Permutation D} (h : IsCanonical p) (x : Idom D) :
    p.contains x = true := by
  have hmem : x ∈ p.loops.flatMap PermLoop.loop :=
    List.count_pos_iff.mp (by rw [h.once x]; exact Nat.one_pos)
  obtain ⟨l, hl, hx⟩ := List.mem_flatMap.mp hmem
  exact List.any_eq_true.mpr ⟨l, hl, List.contains_iff_mem.mpr hx⟩

/-- **`check` accepts canonical permutations**: none of its exceptions is
thrown. -/
theorem check_of_isCanonical (hlt : D.start < D.fin) (hhi : D.fin < D.base.hi)
    {p : Permutation D} (h : IsCanonical p) : p.check = .ok () := by
  have hloops : p.loops.isEmpty = false := by
    have hcontains := contains_of_isCanonical h ⟨D.start, le_rfl, hlt.le⟩
    cases hp : p.loops with
    | nil =>
      unfold contains at hcontains
      rw [hp] at hcontains
      cases hcontains
    | cons l ls => rfl
  have hloop := forDomain_eq hhi (fun (_ : Unit) x => do
      let x ← Idom.ofBase D x
      if p.contains x then return ()
      else .error (.runtimeError "Every domain element shall be covered"))
    (fun _ _ => ())
    (fun _ x => by rw [Idom.ofBase_val, ok_bind, if_pos (contains_of_isCanonical h x)]; rfl)
    (D.card + 1) 0 () (Nat.zero_le _) (by simp)
  rw [Nat.cast_zero, add_zero] at hloop
  unfold check
  rw [if_neg (not_le.mpr hlt), hloops, if_neg Bool.false_ne_true, hloop, ok_bind]
  exact checkOrder_of_decreasing h.decreasing

end Permutation

/-- **Canonical form is an invariant, and it is unique.** Every reachable
permutation is canonical and passes `check`; two of them are equal as stored
objects exactly if they act alike on every element. -/
theorem reachable_canonical (hlt : D.start < D.fin) (hhi : D.fin < D.base.hi)
    {p : Permutation D} (hp : Reachable p) :
    IsCanonical p ∧ p.check = .ok ()
      ∧ ∀ q, Reachable q → (p.equals q = true ↔ ∀ x, p.apply x = q.apply x) := by
  obtain ⟨σ, rfl⟩ := hp.exists_canon hlt hhi
  have hcanon := isCanonical_canon σ
  refine ⟨hcanon, Permutation.check_of_isCanonical hlt hhi hcanon, fun q hq => ?_⟩
  obtain ⟨τ, rfl⟩ := hq.exists_canon hlt hhi
  rw [Permutation.equals_iff]
  constructor
  · intro h x
    rw [h]
  · intro h
    congr 1
    ext1 x
    rw [← Permutation.canon_apply σ, ← Permutation.canon_apply τ, h x]

/-- The two generators of the tests have a product, and do not commute. -/
theorem exists_testGens_product :
    ∃ gen gen' p : Permutation oneToFour, Permutation.ofLoops (testGens.take 1) = .ok gen
      ∧ Permutation.ofLoops (testGens.drop 1) = .ok gen' ∧ gen.product gen' = .ok p
      ∧ (∀ g ∈ [gen, gen', p], Reachable g)
      ∧ gen.apply (gen'.apply ⟨1, by decide⟩) ≠ gen'.apply (gen.apply ⟨1, by decide⟩) := by
  obtain ⟨gen, gen', h, h', hgens⟩ := exists_testGens
  have hgen := hgens gen (by simp)
  have hgen' := hgens gen' (by simp)
  obtain ⟨p, hp⟩ := hgen.exists_product (by decide) (by decide) (by decide) hgen'
  refine ⟨gen, gen', p, h, h', hp, ?_, ?_⟩
  · simp only [List.forall_mem_cons]
    exact ⟨hgen, hgen', .product hgen hgen' hp, List.forall_mem_nil _⟩
  · rw [canon_of_ofLoops (by decide) (by decide) (by decide) h,
      canon_of_ofLoops (by decide) (by decide) (by decide) h']
    simp only [Permutation.canon_apply]
    decide

/-- The product of the generators of the tests is such an object. -/
theorem reachable_canonical_product :
    ∃ gen gen' p : Permutation oneToFour, Permutation.ofLoops (testGens.take 1) = .ok gen
      ∧ Permutation.ofLoops (testGens.drop 1) = .ok gen' ∧ gen.product gen' = .ok p
      ∧ IsCanonical p ∧ p.check = .ok ()
      ∧ ∀ q, Reachable q → (p.equals q = true ↔ ∀ x, p.apply x = q.apply x) := by
  obtain ⟨gen, gen', p, h, h', hp, hreach, -⟩ := exists_testGens_product
  exact ⟨gen, gen', p, h, h', hp,
    reachable_canonical (by decide) (by decide) (hreach p (by simp))⟩

/-! ## The laws of a group -/

/-- **The laws of a group**, between stored objects: what products and
inverses of the three permutations are, and that the calls producing them
return. -/
structure GroupLaws (a b c : Permutation D) : Prop where
  /-- A product applies its first factor first. -/
  product_apply : ∃ ab, a.product b = .ok ab ∧ ∀ x, ab.apply x = b.apply (a.apply x)
  /-- Left multiplication yields the product the other way round. -/
  lmul_eq : ∃ ba, a.lmul b = .ok ba ∧ b.product a = .ok ba
  /-- The product is associative. -/
  assoc : ∃ ab bc l r, a.product b = .ok ab ∧ b.product c = .ok bc ∧ ab.product c = .ok l
    ∧ a.product bc = .ok r ∧ l.equals r = true
  /-- The default permutation is neutral on both sides. -/
  unit : ∃ e ae ea, Permutation.default D = .ok e ∧ a.product e = .ok ae ∧ e.product a = .ok ea
    ∧ ae.equals a = true ∧ a.equals ea = true
  /-- `invert` yields the inverse on both sides. -/
  inv : ∃ e l r, Permutation.default D = .ok e ∧ a.product a.invert = .ok l
    ∧ a.invert.product a = .ok r ∧ l.equals e = true ∧ e.equals r = true

/-- Canonical forms satisfy the laws where the table size is in range. -/
theorem groupLaws_canon (hlt : D.start < D.fin) (hhi : D.fin < D.base.hi) (hfits : D.CountFits)
    (σ τ υ : Perm (Idom D)) : GroupLaws (canon σ) (canon τ) (canon υ) := by
  have hmul : ∀ σ τ : Perm (Idom D), (canon σ).product (canon τ) = .ok (canon (τ * σ)) :=
    Permutation.rmul_canon hfits (incrFits_of_lt hhi) hlt
  have hone := Permutation.default_eq hhi
  have hinv : (canon σ).invert = canon σ⁻¹ := Permutation.inverse_canon σ
  constructor
  · refine ⟨_, hmul σ τ, fun x => ?_⟩
    rw [Permutation.canon_apply, Permutation.canon_apply, Permutation.canon_apply,
      Perm.mul_apply]
  · exact ⟨_, hmul τ σ, hmul τ σ⟩
  · refine ⟨_, _, _, _, hmul σ τ, hmul τ υ, hmul (τ * σ) υ, hmul σ (υ * τ), ?_⟩
    rw [Permutation.equals_iff, mul_assoc]
  · refine ⟨_, _, _, hone, hmul σ 1, hmul 1 σ, ?_, ?_⟩
    · rw [Permutation.equals_iff, one_mul]
    · rw [Permutation.equals_iff, mul_one]
  · rw [hinv]
    refine ⟨_, _, _, hone, hmul σ σ⁻¹, hmul σ⁻¹ σ, ?_, ?_⟩
    · rw [Permutation.equals_iff, inv_mul_cancel]
    · rw [Permutation.equals_iff, mul_inv_cancel]

/-- Where the table size is out of range no product of any two permutations
is defined. -/
theorem countFits_of_product (hhi : D.fin < D.base.hi) {p q r : Permutation D}
    (h : p.product q = .ok r) : D.CountFits := by
  obtain ⟨out, hout, -⟩ := bind_eq_ok.mp h
  exact countFits_of_simplifyLoops hhi hout

/-- **Permutations form a group under `product`**, as equalities of stored
objects, exactly where the number of elements fits the promoted base
type. -/
theorem groupLaws_iff (hlt : D.start < D.fin) (hhi : D.fin < D.base.hi) {a b c : Permutation D}
    (ha : Reachable a) (hb : Reachable b) (hc : Reachable c) :
    GroupLaws a b c ↔ D.CountFits := by
  constructor
  · intro h
    obtain ⟨ab, hab, -⟩ := h.product_apply
    exact countFits_of_product hhi hab
  · intro hfits
    obtain ⟨σ, rfl⟩ := ha.exists_canon hlt hhi
    obtain ⟨τ, rfl⟩ := hb.exists_canon hlt hhi
    obtain ⟨υ, rfl⟩ := hc.exists_canon hlt hhi
    exact groupLaws_canon hlt hhi hfits σ τ υ

/-- The generators of the tests, which do not commute, and their product
satisfy the laws. -/
theorem groupLaws_testGens :
    ∃ gen gen' p : Permutation oneToFour, Permutation.ofLoops (testGens.take 1) = .ok gen
      ∧ Permutation.ofLoops (testGens.drop 1) = .ok gen' ∧ gen.product gen' = .ok p
      ∧ gen.apply (gen'.apply ⟨1, by decide⟩) ≠ gen'.apply (gen.apply ⟨1, by decide⟩)
      ∧ GroupLaws gen gen' p := by
  obtain ⟨gen, gen', p, h, h', hp, hreach, hcomm⟩ := exists_testGens_product
  exact ⟨gen, gen', p, h, h', hp, hcomm, (groupLaws_iff (by decide) (by decide)
    (hreach gen (by simp)) (hreach gen' (by simp)) (hreach p (by simp))).mpr (by decide)⟩

/-- `Idom<int, -2147483648, 0>` -/
def nonPositiveInts : Dom := ⟨.int, -2 ^ 31, 0, by decide, by decide⟩

/-- One value more than `int` can count: over the non-positive values of
`int` not even the identity can be multiplied with itself. -/
theorem not_groupLaws_nonPositiveInts :
    nonPositiveInts.start < nonPositiveInts.fin ∧ nonPositiveInts.fin < nonPositiveInts.base.hi
      ∧ ∃ e : Permutation nonPositiveInts, Reachable e ∧ e.product e = .error .undefined
        ∧ ¬ GroupLaws e e e := by
  have h := Permutation.default_eq (D := nonPositiveInts) (by decide)
  have hprod : (canon 1 : Permutation nonPositiveInts).product (canon 1) = .error .undefined := by
    unfold Permutation.product Permutation.rmul
    rw [simplifyLoops_signed (by decide) (by decide), error_bind]
  refine ⟨by decide, by decide, canon 1, .default h, hprod, fun hlaws => ?_⟩
  obtain ⟨ab, hab, -⟩ := hlaws.product_apply
  rw [hprod] at hab
  cases hab

end Permutations
