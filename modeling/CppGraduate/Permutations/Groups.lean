import CppGraduate.Lib.Closure
import CppGraduate.Permutations.Identity
import CppGraduate.Permutations.NormalForm
import Mathlib.Data.Finmap

/-!
# Orbits

`orbit` collects where generators send an element, what they send the results
to, and so on; `orbit_reps` keeps for each element it comes upon a product of
generators that sends the first one there. Both go on in rounds over an
unordered container, in whatever order it has at that time.

The set that `orbit` returns does not depend on that order; which products
`orbit_reps` keeps does.

**Main results**: `orbit_classes`, `orbitReps_transversal`.
-/

namespace Permutations

open Cxx Dom Cycles Equiv Equiv.Perm Relation Closure

variable {D : Dom} {gens : List (Permutation D)} {num x y : Idom D}

/-! ## orbit -/

/-- The two inner loops of `orbit`: the set `tmp` after them. -/
def newElems (gens : List (Permutation D)) (orbit : Finset (Idom D)) (next : List (Idom D)) :
    Finset (Idom D) :=
  next.foldl (fun tmp elem => gens.foldl (fun tmp gen =>
    let newelem := gen.apply elem
    if newelem ∈ orbit then tmp else insert newelem tmp) tmp) ∅

/-- The loop of `orbit`, with a bound on the number of rounds and the number
of the next one. -/
def orbitFrom (it : IterOrder (Idom D)) (gens : List (Permutation D)) :
    ℕ → ℕ → Finset (Idom D) → Finset (Idom D) → Except Fault (Finset (Idom D))
  | 0, _, _, _ => .error .outOfFuel
  | fuel + 1, n, orbit, next =>
    if next = ∅ then .ok orbit
    else
      let orbit := orbit ∪ next
      let tmp := newElems gens orbit (it.order n next.val)
      orbitFrom it gens fuel (n + 1) orbit tmp

/-- `orbit(num, gensbeg, gensend)` -/
def orbit (it : IterOrder (Idom D)) (num : Idom D) (gens : List (Permutation D)) :
    Except Fault (Finset (Idom D)) :=
  orbitFrom it gens (D.card + 1) 0 ∅ {num}

/-! ## orbit_reps -/

/-- `std::unordered_map<T, Permutation<T>>` -/
abbrev Reps (D : Dom) := Finmap fun _ : Idom D => Permutation D

/-- `tmp.try_emplace(elem, rep)` -/
def tryEmplace (tmp : Reps D) (elem : Idom D) (rep : Permutation D) : Reps D :=
  if elem ∈ tmp then tmp else tmp.insert elem rep

/-- The loop over the generators in `orbit_reps`, for one element. -/
def emplaceReps (orbit : Reps D) (elem : Idom D) (curgen : Permutation D)
    (gens : List (Permutation D)) (tmp : Reps D) : Except Fault (Reps D) :=
  gens.foldlM (fun tmp gen =>
    let newelem := gen.apply elem
    if newelem ∈ orbit then return tmp
    else do
      let rep ← curgen.product gen
      return tryEmplace tmp newelem rep) tmp

/-- The two inner loops of `orbit_reps`: the map `tmp` after them. -/
def newReps (gens : List (Permutation D)) (orbit : Reps D)
    (next : List ((_ : Idom D) × Permutation D)) : Except Fault (Reps D) :=
  next.foldlM (fun tmp entry => emplaceReps orbit entry.1 entry.2 gens tmp) ∅

/-- The loop of `orbit_reps`, with a bound on the number of rounds and the
number of the next one. Inserting a range keeps the entries that are
there. -/
def orbitRepsFrom (it : IterOrder ((_ : Idom D) × Permutation D)) (gens : List (Permutation D)) :
    ℕ → ℕ → Reps D → Reps D → Except Fault (Reps D)
  | 0, _, _, _ => .error .outOfFuel
  | fuel + 1, n, orbit, next =>
    if next.keys = ∅ then .ok orbit
    else do
      let orbit := orbit ∪ next
      let tmp ← newReps gens orbit (it.order n next.entries)
      orbitRepsFrom it gens fuel (n + 1) orbit tmp

/-- `orbit_reps(num, gensbeg, gensend)` -/
def orbitReps (it : IterOrder ((_ : Idom D) × Permutation D)) (num : Idom D)
    (gens : List (Permutation D)) : Except Fault (Reps D) := do
  let id ← Permutation.default D
  orbitRepsFrom it gens (D.card + 1) 0 ∅ (Finmap.singleton num id)

/-! ## Words of generators -/

/-- A word of generators, applied one after another. -/
def applyWord (w : List (Permutation D)) (x : Idom D) : Idom D :=
  w.foldl (fun y gen => gen.apply y) x

/-- The product of a word of generators, from the identity on. -/
def wordProduct (w : List (Permutation D)) : Except Fault (Permutation D) := do
  let id ← Permutation.default D
  w.foldlM (fun p gen => p.product gen) id

/-- A generator sends the one element to the other. -/
def Leads (gens : List (Permutation D)) (x y : Idom D) : Prop := ∃ gen ∈ gens, gen.apply x = y

/-- The first generator does not lead there. -/
theorem leads_cons_of_ne {gen : Permutation D} {P : Prop} (h : P → gen.apply x ≠ y) :
    Leads (gen :: gens) x y ∧ P ↔ Leads gens x y ∧ P := by
  unfold Leads
  rw [List.exists_mem_cons_iff, or_and_right]
  exact or_iff_right fun hP => h hP.2 hP.1

/-- The first generator leads there, among others. -/
theorem leads_cons_of_imp {gen : Permutation D} {P : Prop} (h : gen.apply x = y → P) :
    Leads (gen :: gens) x y ∧ P ↔ y = gen.apply x ∨ Leads gens x y ∧ P := by
  unfold Leads
  rw [List.exists_mem_cons_iff, or_and_right, and_iff_left_of_imp h, eq_comm]

/-- **Words reach what generators lead to.** -/
theorem reflTransGen_leads :
    ReflTransGen (Leads gens) x y ↔ ∃ w, w ⊆ gens ∧ applyWord w x = y := by
  constructor
  · intro h
    induction h with
    | refl => exact ⟨[], List.nil_subset _, rfl⟩
    | tail _ hyz ih =>
      obtain ⟨gen, hgen, rfl⟩ := hyz
      obtain ⟨w, hw, rfl⟩ := ih
      refine ⟨w ++ [gen], List.append_subset.mpr ⟨hw, by simpa using hgen⟩, ?_⟩
      unfold applyWord
      rw [List.foldl_append, List.foldl_cons, List.foldl_nil]
  · rintro ⟨w, hw, rfl⟩
    induction w generalizing x with
    | nil => exact .refl
    | cons gen w ih =>
      obtain ⟨hgen, hw⟩ := List.cons_subset.mp hw
      exact (ih hw).head ⟨gen, hgen, rfl⟩

/-! ## The rounds of orbit -/

/-- **What a round of `orbit` puts into `tmp`**: where the generators send
the elements of `next`, as far as it is not in `orbit`. -/
theorem mem_newElems {orbit : Finset (Idom D)} {next : List (Idom D)} :
    y ∈ newElems gens orbit next ↔ (∃ x ∈ next, Leads gens x y) ∧ y ∉ orbit := by
  have hgens : ∀ (gs : List (Permutation D)) (elem : Idom D) (tmp : Finset (Idom D)),
      y ∈ gs.foldl (fun tmp gen =>
          let newelem := gen.apply elem
          if newelem ∈ orbit then tmp else insert newelem tmp) tmp
        ↔ y ∈ tmp ∨ Leads gs elem y ∧ y ∉ orbit := by
    intro gs elem
    induction gs with
    | nil => simp [Leads]
    | cons gen gs ih =>
      intro tmp
      rw [List.foldl_cons, ih]
      by_cases hmem : gen.apply elem ∈ orbit
      · rw [if_pos hmem, leads_cons_of_ne fun hy he => hy (he ▸ hmem)]
      · rw [if_neg hmem, leads_cons_of_imp fun he => he ▸ hmem, Finset.mem_insert, or_assoc,
          or_left_comm]
  have hnext : ∀ (next : List (Idom D)) (tmp : Finset (Idom D)),
      y ∈ next.foldl (fun tmp elem => gens.foldl (fun tmp gen =>
          let newelem := gen.apply elem
          if newelem ∈ orbit then tmp else insert newelem tmp) tmp) tmp
        ↔ y ∈ tmp ∨ (∃ x ∈ next, Leads gens x y) ∧ y ∉ orbit := by
    intro next
    induction next with
    | nil => simp
    | cons elem next ih =>
      intro tmp
      rw [List.foldl_cons, ih, hgens, List.exists_mem_cons_iff, or_and_right, or_assoc]
  unfold newElems
  rw [hnext]
  simp

/-- A set of elements is no larger than the domain. -/
theorem card_le_card (s : Finset (Idom D)) : s.card ≤ D.card := by
  have hsub : s ⊆ D.elems.toFinset := fun x _ => List.mem_toFinset.mpr (mem_elems x)
  have := (Finset.card_le_card hsub).trans (List.toFinset_card_le _)
  rwa [length_elems] at this

/-- **The loop of `orbit`** ends with the elements that can be reached. Each
round but the last finds an element. -/
theorem orbitFrom_eq (it : IterOrder (Idom D)) (fuel n : ℕ) {orbit next : Finset (Idom D)}
    (h : Frontier (Leads gens) num (orbit : Set (Idom D)) (next : Set (Idom D)))
    (hfuel : D.card < fuel + orbit.card) :
    ∃ s, orbitFrom it gens fuel n orbit next = .ok s
      ∧ ∀ x, x ∈ s ↔ ReflTransGen (Leads gens) num x := by
  induction fuel generalizing n orbit next with
  | zero => exact absurd (card_le_card orbit) (by omega)
  | succ fuel ih =>
    by_cases hne : next = ∅
    · refine ⟨orbit, by rw [orbitFrom, if_pos hne], fun x => ?_⟩
      rw [hne, Finset.coe_empty] at h
      exact h.done x
    · have hcard := h.card_lt hne
      have hround : Frontier (Leads gens) num (orbit ∪ next : Finset (Idom D))
          (newElems gens (orbit ∪ next) (it.order n next.val)) := by
        rw [Finset.coe_union]
        refine h.round fun y => ?_
        simp only [Finset.mem_coe, mem_newElems, it.mem_order, Finset.mem_val, ← Finset.coe_union]
      obtain ⟨s, hs, hmem⟩ := ih (n + 1) hround (by omega)
      refine ⟨s, ?_, hmem⟩
      rw [orbitFrom, if_neg hne]
      exact hs

/-- **`orbit` returns the elements that can be reached**, in whatever order
it goes through them. -/
theorem orbit_eq (it : IterOrder (Idom D)) (num : Idom D) (gens : List (Permutation D)) :
    ∃ s, orbit it num gens = .ok s ∧ ∀ x, x ∈ s ↔ ReflTransGen (Leads gens) num x := by
  refine orbitFrom_eq it _ 0 ?_ (by simp)
  rw [Finset.coe_empty, Finset.coe_singleton]
  exact Frontier.init _ _

/-! ## Generators over every domain -/

/-- The loops that are read off the table of a permutation consist of
distinct elements. -/
theorem nodup_of_mem_leaders (σ : Perm (Idom D)) :
    ∀ l ∈ (leaders σ D.elems).map (loopAt σ), l.loop.Nodup := by
  intro l hl
  obtain ⟨t, -, rfl⟩ := List.mem_map.mp hl
  exact nodup_loopAt σ t

/-- Over a domain of one element only the empty sequence can be simplified:
the first assertion of applying a loop fails. -/
theorem nodup_of_simplifyLoops_single (heq : D.start = D.fin) {loops out : List (PermLoop D)}
    (h : simplifyLoops loops = .ok out) : ∀ l ∈ out, l.loop.Nodup := by
  have hfits : D.CountFits := by
    have := D.base.promote.hi_pos
    unfold CountFits
    omega
  by_cases hincr : D.IncrFits
  · have hiota := iotaFrom_of_fits hincr
      (List.replicate D.card (⟨D.start, le_rfl, heq.le⟩ : Idom D)) (i := 0) (by simp)
    rw [Nat.cast_zero, add_zero, List.drop_zero] at hiota
    rw [simplifyLoops_of_fits hfits heq.le, hiota, ok_bind] at h
    obtain ⟨table, htable, h⟩ := bind_eq_ok.mp h
    cases hloops : loops.reverse with
    | nil =>
      rw [hloops] at htable
      have he : D.elems = tableOf (1 : Perm (Idom D)) := tableOf_id.symm
      rw [← Except.ok.inj htable, he, createLoops_tableOf hfits.offsetsFit] at h
      exact Except.ok.inj h ▸ nodup_of_mem_leaders _
    | cons l ls =>
      rw [hloops] at htable
      obtain ⟨table', htable', -⟩ := bind_eq_ok.mp htable
      exact absurd heq (PermLoop.of_applyTable htable').1.ne
  · rw [simplifyLoops_incr hfits hincr heq.le] at h
    cases h

/-- **Simplifying yields loops of distinct elements**, over every domain. -/
theorem nodup_of_simplifyLoops {loops out : List (PermLoop D)}
    (hnodup : ∀ l ∈ loops, l.loop.Nodup) (h : simplifyLoops loops = .ok out) :
    ∀ l ∈ out, l.loop.Nodup := by
  rcases lt_trichotomy D.start D.fin with hlt | heq | hgt
  · by_cases hfits : D.CountFits
    · by_cases hincr : D.IncrFits
      · rw [simplifyLoops_eq hfits hincr hlt hnodup] at h
        exact Except.ok.inj h ▸ nodup_of_mem_leaders _
      · rw [simplifyLoops_incr hfits hincr hlt.le] at h
        cases h
    · cases hs : D.base.promote.signed with
      | true =>
        rw [simplifyLoops_signed hfits hs] at h
        cases h
      | false =>
        by_cases hloops : loops = []
        · subst hloops
          rw [simplifyLoops_unsigned hfits hs hlt] at h
          exact Except.ok.inj h ▸ nofun
        · rw [simplifyLoops_wrapped hfits hs hlt hloops] at h
          cases h
  · exact nodup_of_simplifyLoops_single heq h
  · -- there is no element to put into a loop
    intro l
    have hl := (l.loop.head l.ne).property
    exact absurd (hl.1.trans hl.2) (not_le.mpr hgt)

/-- **The loops of a permutation that a program can come to have** consist
of distinct elements, over every domain. -/
theorem Reachable.nodup {p : Permutation D} (h : Reachable p) : ∀ l ∈ p.loops, l.loop.Nodup := by
  have hsimplify : ∀ {loops : List (PermLoop D)} {p : Permutation D},
      (∀ l ∈ loops, l.loop.Nodup) → Permutation.ofLoops loops = .ok p →
      ∀ l ∈ p.loops, l.loop.Nodup := by
    intro loops p hnodup hp l hl
    obtain ⟨out, hout, hp⟩ := bind_eq_ok.mp hp
    refine nodup_of_simplifyLoops hnodup hout l ?_
    rw [← Except.ok.inj hp] at hl
    exact (List.mergeSort_perm _ _).mem_iff.mp hl
  have happend : ∀ {loops loops' : List (PermLoop D)}, (∀ l ∈ loops, l.loop.Nodup) →
      (∀ l ∈ loops', l.loop.Nodup) → ∀ l ∈ loops ++ loops', l.loop.Nodup :=
    fun h h' l hl => (List.mem_append.mp hl).elim (h l) (h' l)
  have hinverse : ∀ {p : Permutation D}, (∀ l ∈ p.loops, l.loop.Nodup) →
      ∀ l ∈ p.inverse.loops, l.loop.Nodup := by
    intro p hp l hl
    obtain ⟨m, hm, rfl⟩ := List.mem_map.mp hl
    exact m.perm_loop_inverse.nodup_iff.mpr (hp m hm)
  induction h with
  | default h =>
    rw [Permutation.default_eq (lt_hi_of_default h)] at h
    rw [← Except.ok.inj h]
    exact nodup_of_mem_canon 1
  | ofLoops hnodup h => exact hsimplify hnodup h
  | lmul _ _ h ihp ihq => exact hsimplify (happend ihq ihp) h
  | rmul _ _ h ihp ihq => exact hsimplify (happend ihp ihq) h
  | inverse _ ih => exact hinverse ih
  | product _ _ h ihp ihq => exact hsimplify (happend ihp ihq) h
  | invert _ ih => exact hinverse ih

/-- A generator acts as a permutation of the domain. -/
theorem Reachable.apply_eq {p : Permutation D} (h : Reachable p) (x : Idom D) :
    p.apply x = composed p.loops x :=
  foldl_apply_eq h.nodup x

/-- **Orbits.** For every order of iteration `orbit` returns the elements
that words of generators reach, and the orbits of two elements are equal or
disjoint. -/
theorem orbit_classes (hgens : ∀ gen ∈ gens, Reachable gen) (it : IterOrder (Idom D))
    (num : Idom D) :
    ∃ s, orbit it num gens = .ok s
      ∧ (∀ x, x ∈ s ↔ ∃ w, w ⊆ gens ∧ applyWord w num = x)
      ∧ ∀ (it' : IterOrder (Idom D)) (num' : Idom D) (t : Finset (Idom D)),
        orbit it' num' gens = .ok t → s = t ∨ Disjoint s t := by
  obtain ⟨s, hs, hmem⟩ := orbit_eq it num gens
  refine ⟨s, hs, fun x => (hmem x).trans reflTransGen_leads, fun it' num' t ht => ?_⟩
  obtain ⟨t', ht', hmem'⟩ := orbit_eq it' num' gens
  rw [ht'] at ht
  obtain rfl := Except.ok.inj ht
  have hperm : ∀ x y, Leads gens x y →
      ∃ σ : Perm (Idom D), σ x = y ∧ ∀ z, Leads gens z (σ z) := by
    rintro x y ⟨gen, hgen, rfl⟩
    have happly := (hgens gen hgen).apply_eq
    exact ⟨composed gen.loops, (happly x).symm, fun z => ⟨gen, hgen, happly z⟩⟩
  rcases reflTransGen_eq_or_disjoint hperm num num' with h | h
  · refine Or.inl (Finset.ext fun z => ?_)
    rw [hmem, hmem', h]
  · refine Or.inr (Finset.disjoint_left.mpr fun z hz hz' => ?_)
    exact h z ⟨(hmem z).mp hz, (hmem' z).mp hz'⟩

/-- The orbit of three in the group of the tests. -/
theorem orbit_classes_testGens :
    ∃ gen gen' : Permutation oneToFour, ∃ s, Permutation.ofLoops (testGens.take 1) = .ok gen
      ∧ Permutation.ofLoops (testGens.drop 1) = .ok gen'
      ∧ orbit default ⟨3, by decide⟩ [gen, gen'] = .ok s
      ∧ ∀ x, x ∈ s ↔ ∃ w, w ⊆ [gen, gen'] ∧ applyWord w ⟨3, by decide⟩ = x := by
  obtain ⟨gen, gen', hgen, hgen', hgens⟩ := exists_testGens
  obtain ⟨s, hs, hmem, -⟩ := orbit_classes hgens default ⟨3, by decide⟩
  exact ⟨gen, gen', s, hgen, hgen', hs, hmem⟩

/-! ## The representatives -/

/-- A permutation represents an element: it is a product of generators, in
canonical form, and sends the first element there. -/
structure Represents (gens : List (Permutation D)) (num : Idom D) (elem : Idom D)
    (p : Permutation D) : Prop where
  /-- It is a product of generators. -/
  word : ∃ w, w ⊆ gens ∧ wordProduct w = .ok p
  /-- It is in canonical form. -/
  canonical : IsCanonical p
  /-- It sends the first element to the one represented. -/
  apply_num : p.apply num = elem

/-- **A permutation over a domain without room for a table** is the
identity. -/
theorem Reachable.countFits_or_one (hhi : D.fin < D.base.hi) {p : Permutation D}
    (h : Reachable p) : D.CountFits ∨ p = canon 1 := by
  have hfits : ∀ {loops : List (PermLoop D)} {p : Permutation D},
      Permutation.ofLoops loops = .ok p → D.CountFits := by
    intro loops p hp
    obtain ⟨out, hout, -⟩ := bind_eq_ok.mp hp
    exact countFits_of_simplifyLoops hhi hout
  have hinv : ∀ {p : Permutation D}, D.CountFits ∨ p = canon 1 →
      D.CountFits ∨ p.inverse = canon 1 := by
    rintro p (h | rfl)
    · exact Or.inl h
    · refine Or.inr ?_
      rw [Permutation.inverse_canon, inv_one]
  induction h with
  | default h =>
    rw [Permutation.default_eq hhi] at h
    exact Or.inr (Except.ok.inj h).symm
  | ofLoops _ h => exact Or.inl (hfits h)
  | lmul _ _ h => exact Or.inl (hfits h)
  | rmul _ _ h => exact Or.inl (hfits h)
  | inverse _ ih => exact hinv ih
  | product _ _ h => exact Or.inl (hfits h)
  | invert _ ih => exact hinv ih

/-- A product of generators is one of the permutations a program can come to
have. -/
theorem reachable_wordProduct (hgens : ∀ gen ∈ gens, Reachable gen) {w : List (Permutation D)}
    (hw : w ⊆ gens) {p : Permutation D} (h : wordProduct w = .ok p) : Reachable p := by
  have hfrom : ∀ q : Permutation D, Reachable q →
      w.foldlM (fun p gen => p.product gen) q = .ok p → Reachable p := by
    clear h
    induction w with
    | nil =>
      intro q hq h
      exact Except.ok.inj h ▸ hq
    | cons gen w ih =>
      intro q hq h
      obtain ⟨hgen, hw⟩ := List.cons_subset.mp hw
      rw [List.foldlM_cons] at h
      obtain ⟨r, hr, h⟩ := bind_eq_ok.mp h
      exact ih hw r (.product hq (hgens gen hgen) hr) h
  obtain ⟨id, hid, h⟩ := bind_eq_ok.mp h
  exact hfrom id (.default hid) h

/-- **The identity represents the first element.** -/
theorem represents_one (hhi : D.fin < D.base.hi) (gens : List (Permutation D)) (num : Idom D) :
    Represents gens num num (canon 1) where
  word := ⟨[], List.nil_subset _, by
    unfold wordProduct
    rw [Permutation.default_eq hhi]
    rfl⟩
  canonical := isCanonical_canon 1
  apply_num := Permutation.canon_apply 1 num

/-- **Multiplying a representative with a generator** yields one of the
element that the generator sends the represented one to. -/
theorem Represents.product (hlt : D.start < D.fin) (hhi : D.fin < D.base.hi)
    (hfits : D.CountFits) (hgens : ∀ gen ∈ gens, Reachable gen) {elem : Idom D}
    {p gen : Permutation D} (h : Represents gens num elem p) (hgen : gen ∈ gens) :
    ∃ r, p.product gen = .ok r ∧ Represents gens num (gen.apply elem) r := by
  obtain ⟨w, hw, hp⟩ := h.word
  obtain ⟨σ, rfl⟩ := (reachable_wordProduct hgens hw hp).exists_canon hlt hhi
  obtain ⟨τ, hτ⟩ := (hgens gen hgen).exists_canon hlt hhi
  have hprod : (canon σ).product gen = .ok (canon (τ * σ)) := by
    rw [hτ]
    exact Permutation.rmul_canon hfits (incrFits_of_lt hhi) hlt σ τ
  refine ⟨_, hprod, ⟨w ++ [gen], List.append_subset.mpr ⟨hw, by simpa using hgen⟩, ?_⟩,
    isCanonical_canon _, ?_⟩
  · obtain ⟨id, hid, hp⟩ := bind_eq_ok.mp hp
    unfold wordProduct
    rw [hid, ok_bind, List.foldlM_append, hp, ok_bind, List.foldlM_cons, hprod]
    rfl
  · rw [hτ, ← h.apply_num, Permutation.canon_apply, Permutation.canon_apply,
      Permutation.canon_apply, Perm.mul_apply]

/-! ## The rounds of orbit_reps -/

/-- A map holds representatives. -/
def Holds (gens : List (Permutation D)) (num : Idom D) (reps : Reps D) : Prop :=
  ∀ elem p, reps.lookup elem = some p → Represents gens num elem p

/-- A new entry is emplaced, a key that is there keeps its entry. -/
theorem mem_tryEmplace {tmp : Reps D} {elem : Idom D} {rep : Permutation D} :
    y ∈ tryEmplace tmp elem rep ↔ y ∈ tmp ∨ y = elem := by
  unfold tryEmplace
  split
  · rename_i hmem
    exact ⟨Or.inl, fun h => h.elim id fun he => he ▸ hmem⟩
  · rw [Finmap.mem_insert, or_comm]

/-- Emplacing a representative keeps the representatives. -/
theorem Holds.tryEmplace {tmp : Reps D} (h : Holds gens num tmp) {elem : Idom D}
    {rep : Permutation D} (hrep : Represents gens num elem rep) :
    Holds gens num (tryEmplace tmp elem rep) := by
  intro x p hp
  unfold Permutations.tryEmplace at hp
  split at hp
  · exact h x p hp
  · by_cases hx : x = elem
    · subst hx
      rw [Finmap.lookup_insert] at hp
      exact Option.some_inj.mp hp ▸ hrep
    · rw [Finmap.lookup_insert_of_ne _ hx] at hp
      exact h x p hp

/-- **One element of a round of `orbit_reps`.** Where the generators lead
to something new, they are no identities, so that there is room for a
table. -/
theorem emplaceReps_eq (hlt : D.start < D.fin) (hhi : D.fin < D.base.hi)
    (hgens : ∀ gen ∈ gens, Reachable gen) {orbit tmp : Reps D} {elem : Idom D}
    {curgen : Permutation D} (helem : elem ∈ orbit) (hcur : Represents gens num elem curgen)
    {gs : List (Permutation D)} (hgs : gs ⊆ gens) (htmp : Holds gens num tmp) :
    ∃ tmp', emplaceReps orbit elem curgen gs tmp = .ok tmp' ∧ Holds gens num tmp'
      ∧ ∀ y, y ∈ tmp' ↔ y ∈ tmp ∨ Leads gs elem y ∧ y ∉ orbit := by
  unfold emplaceReps
  induction gs generalizing tmp with
  | nil => exact ⟨tmp, rfl, htmp, by simp [Leads]⟩
  | cons gen gs ih =>
    obtain ⟨hgen, hgs⟩ := List.cons_subset.mp hgs
    by_cases hmem : gen.apply elem ∈ orbit
    · obtain ⟨tmp', hok, hholds, hkeys⟩ := ih hgs htmp
      refine ⟨tmp', ?_, hholds, fun y => ?_⟩
      · rw [List.foldlM_cons, if_pos hmem]
        exact hok
      · rw [hkeys, leads_cons_of_ne fun hy he => hy (he ▸ hmem)]
    · have hfits : D.CountFits := by
        refine ((hgens gen hgen).countFits_or_one hhi).resolve_right ?_
        rintro rfl
        rw [Permutation.canon_apply] at hmem
        exact hmem helem
      obtain ⟨rep, hprod, hrep⟩ := hcur.product hlt hhi hfits hgens hgen
      obtain ⟨tmp', hok, hholds, hkeys⟩ := ih hgs (htmp.tryEmplace hrep)
      refine ⟨tmp', ?_, hholds, fun y => ?_⟩
      · rw [List.foldlM_cons, if_neg hmem, hprod]
        exact hok
      · rw [hkeys, mem_tryEmplace, leads_cons_of_imp fun he => he ▸ hmem, or_assoc]

/-- **A round of `orbit_reps`** emplaces representatives where the generators
lead from the elements of `next`, as far as it is not in `orbit`. -/
theorem newReps_eq (hlt : D.start < D.fin) (hhi : D.fin < D.base.hi)
    (hgens : ∀ gen ∈ gens, Reachable gen) {orbit : Reps D}
    {next : List ((_ : Idom D) × Permutation D)} (hmem : ∀ entry ∈ next, entry.1 ∈ orbit)
    (hnext : ∀ entry ∈ next, Represents gens num entry.1 entry.2) :
    ∃ tmp, newReps gens orbit next = .ok tmp ∧ Holds gens num tmp
      ∧ ∀ y, y ∈ tmp ↔ (∃ entry ∈ next, Leads gens entry.1 y) ∧ y ∉ orbit := by
  have hfrom : ∀ tmp : Reps D, Holds gens num tmp →
      ∃ tmp', next.foldlM (fun tmp entry => emplaceReps orbit entry.1 entry.2 gens tmp) tmp
          = .ok tmp' ∧ Holds gens num tmp'
        ∧ ∀ y, y ∈ tmp' ↔ y ∈ tmp ∨ (∃ entry ∈ next, Leads gens entry.1 y) ∧ y ∉ orbit := by
    induction next with
    | nil => exact fun tmp htmp => ⟨tmp, rfl, htmp, by simp⟩
    | cons entry next ih =>
      intro tmp htmp
      obtain ⟨hentry, hmem⟩ := List.forall_mem_cons.mp hmem
      obtain ⟨hrep, hnext⟩ := List.forall_mem_cons.mp hnext
      obtain ⟨tmp', hok, hholds, hkeys⟩ :=
        emplaceReps_eq hlt hhi hgens hentry hrep (List.Subset.refl gens) htmp
      obtain ⟨tmp'', hok', hholds', hkeys'⟩ := ih hmem hnext tmp' hholds
      refine ⟨tmp'', ?_, hholds', fun y => ?_⟩
      · rw [List.foldlM_cons, hok]
        exact hok'
      · rw [hkeys', hkeys, List.exists_mem_cons_iff, or_and_right, or_assoc]
  obtain ⟨tmp, hok, hholds, hkeys⟩ := hfrom ∅ fun elem p hp => by simp at hp
  refine ⟨tmp, hok, hholds, fun y => ?_⟩
  rw [hkeys]
  exact or_iff_right Finmap.notMem_empty

/-- **The loop of `orbit_reps`** ends with representatives of the elements
that can be reached; the first element keeps its entry. -/
theorem orbitRepsFrom_eq (hlt : D.start < D.fin) (hhi : D.fin < D.base.hi)
    (hgens : ∀ gen ∈ gens, Reachable gen) (it : IterOrder ((_ : Idom D) × Permutation D))
    (fuel n : ℕ) {orbit next : Reps D}
    (h : Frontier (Leads gens) num (orbit.keys : Set (Idom D)) (next.keys : Set (Idom D)))
    (horbit : Holds gens num orbit) (hnext : Holds gens num next) {id : Permutation D}
    (hid : (orbit ∪ next).lookup num = some id) (hfuel : D.card < fuel + orbit.keys.card) :
    ∃ reps, orbitRepsFrom it gens fuel n orbit next = .ok reps
      ∧ (∀ x, x ∈ reps.keys ↔ ReflTransGen (Leads gens) num x)
      ∧ Holds gens num reps ∧ reps.lookup num = some id := by
  induction fuel generalizing n orbit next with
  | zero => exact absurd (card_le_card orbit.keys) (by omega)
  | succ fuel ih =>
    by_cases hne : next.keys = ∅
    · have hnone : num ∉ next := by
        rw [← Finmap.mem_keys, hne]
        exact Finset.notMem_empty num
      rw [hne, Finset.coe_empty] at h
      rw [Finmap.lookup_union_left_of_not_in hnone] at hid
      exact ⟨orbit, by rw [orbitRepsFrom, if_pos hne], h.done, horbit, hid⟩
    · have hentries : ∀ entry ∈ it.order n next.entries, next.lookup entry.1 = some entry.2 :=
        fun entry hentry => Finmap.lookup_eq_some_iff.mpr ((it.mem_order n _).mp hentry)
      have hunion : Holds gens num (orbit ∪ next) := by
        intro elem p hp
        rcases Finmap.mem_lookup_union.mp hp with hp | ⟨-, hp⟩
        · exact horbit elem p hp
        · exact hnext elem p hp
      have hmem : ∀ entry ∈ it.order n next.entries, entry.1 ∈ orbit ∪ next := fun entry hentry =>
        Finmap.mem_union.mpr (Or.inr (Finmap.mem_of_lookup_eq_some (hentries entry hentry)))
      obtain ⟨tmp, hok, hholds, hkeys⟩ := newReps_eq hlt hhi hgens hmem
        fun entry hentry => hnext _ _ (hentries entry hentry)
      have hround : Frontier (Leads gens) num ((orbit ∪ next).keys : Set (Idom D)) tmp.keys := by
        rw [Finmap.keys_union, Finset.coe_union]
        refine h.round fun y => ?_
        have hex : (∃ entry ∈ it.order n next.entries, Leads gens entry.1 y)
            ↔ ∃ x ∈ (next.keys : Set (Idom D)), Leads gens x y := by
          constructor
          · rintro ⟨entry, hentry, hy⟩
            exact ⟨entry.1, Finmap.mem_keys.mpr
              (Finmap.mem_of_lookup_eq_some (hentries entry hentry)), hy⟩
          · rintro ⟨x, hx, hy⟩
            obtain ⟨p, hp⟩ := Finmap.mem_iff.mp (Finmap.mem_keys.mp hx)
            exact ⟨⟨x, p⟩, (it.mem_order n _).mpr (Finmap.lookup_eq_some_iff.mp hp), hy⟩
        rw [← hex, ← Finset.coe_union, ← Finmap.keys_union, Finset.mem_coe, Finset.mem_coe,
          Finmap.mem_keys, Finmap.mem_keys]
        exact hkeys y
      have hcard := h.card_lt hne
      rw [← Finmap.keys_union] at hcard
      obtain ⟨reps, hreps, hresult⟩ := ih (n + 1) hround hunion hholds
        ((Finmap.lookup_union_left (Finmap.mem_of_lookup_eq_some hid)).trans hid) (by omega)
      refine ⟨reps, ?_, hresult⟩
      rw [orbitRepsFrom, if_neg hne]
      show (newReps gens (orbit ∪ next) _ >>= _) = _
      rw [hok]
      exact hreps

/-- **Representatives.** For every order of iteration `orbit_reps` returns a
map whose keys are the orbit; it maps each of them to a product of
generators in canonical form that sends the first element there, and the
first element itself to the identity. -/
theorem orbitReps_transversal (hlt : D.start < D.fin) (hhi : D.fin < D.base.hi)
    (hgens : ∀ gen ∈ gens, Reachable gen) (it : IterOrder ((_ : Idom D) × Permutation D))
    (it' : IterOrder (Idom D)) (num : Idom D) :
    ∃ reps, orbitReps it num gens = .ok reps ∧ orbit it' num gens = .ok reps.keys
      ∧ (∀ elem g, reps.lookup elem = some g →
        (∃ w, w ⊆ gens ∧ wordProduct w = .ok g) ∧ IsCanonical g ∧ g.apply num = elem)
      ∧ ∃ id, reps.lookup num = some id ∧ Permutation.default D = .ok id := by
  have hone := Permutation.default_eq hhi
  obtain ⟨s, hs, hmem⟩ := orbit_eq it' num gens
  have hinit : Frontier (Leads gens) num ((∅ : Reps D).keys : Set (Idom D))
      ((Finmap.singleton num (canon 1) : Reps D).keys : Set (Idom D)) := by
    rw [Finmap.keys_empty, Finmap.keys_singleton, Finset.coe_empty, Finset.coe_singleton]
    exact Frontier.init _ _
  have hsingle : Holds gens num (Finmap.singleton num (canon 1)) := by
    intro elem p hp
    obtain rfl := (Finmap.mem_singleton elem num _).mp (Finmap.mem_of_lookup_eq_some hp)
    rw [Finmap.lookup_singleton_eq] at hp
    exact Option.some_inj.mp hp ▸ represents_one hhi gens _
  have hlookup : (∅ ∪ Finmap.singleton num (canon 1) : Reps D).lookup num = some (canon 1) := by
    rw [Finmap.empty_union, Finmap.lookup_singleton_eq]
  obtain ⟨reps, hreps, hkeys, hholds, hid⟩ := orbitRepsFrom_eq hlt hhi hgens it (D.card + 1) 0
    hinit (fun elem p hp => by simp at hp) hsingle hlookup (by simp)
  refine ⟨reps, ?_, ?_, fun elem g hg => ?_, canon 1, hid, hone⟩
  · unfold orbitReps
    rw [hone, ok_bind]
    exact hreps
  · have heq : s = reps.keys := Finset.ext fun x => (hmem x).trans (hkeys x).symm
    rw [hs, heq]
  · obtain ⟨hword, hcanonical, happly⟩ := hholds elem g hg
    exact ⟨hword, hcanonical, happly⟩

/-- Representatives of the orbit of three in the group of the tests. -/
theorem orbitReps_transversal_testGens :
    ∃ gen gen' : Permutation oneToFour, ∃ reps, Permutation.ofLoops (testGens.take 1) = .ok gen
      ∧ Permutation.ofLoops (testGens.drop 1) = .ok gen'
      ∧ orbitReps default ⟨3, by decide⟩ [gen, gen'] = .ok reps
      ∧ orbit default ⟨3, by decide⟩ [gen, gen'] = .ok reps.keys := by
  obtain ⟨gen, gen', hgen, hgen', hgens⟩ := exists_testGens
  obtain ⟨reps, hreps, hkeys, -⟩ :=
    orbitReps_transversal (by decide) (by decide) hgens default default ⟨3, by decide⟩
  exact ⟨gen, gen', reps, hgen, hgen', hreps, hkeys⟩

end Permutations
