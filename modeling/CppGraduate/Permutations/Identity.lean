import CppGraduate.Permutations.Contract

/-!
# The identity permutation

`Permutation()` and `check()` count through the domain with a variable of the
base type, up to the last element. Where that is the largest value of the
type, the count has no end: the variable wraps around, which leaves the
domain or starts it again, or the increment is undefined.

**Main result**: `identityExists_iff`.
-/

namespace Permutations

open Cxx Dom Cycles Equiv Equiv.Perm

variable {D : Dom}

/-- **A loop over a domain that ends with the largest value of the base type
does not end**, however many passes it is given. -/
theorem forDomain_ne_ok {β : Type} (hhi : D.base.hi ≤ D.fin) (body : β → ℤ → Except Fault β)
    (fuel : ℕ) {x : ℤ} (hx : x ≤ D.base.hi) (b out : β) : forDomain D body fuel x b ≠ .ok out := by
  induction fuel generalizing x b with
  | zero => exact nofun
  | succ fuel ih =>
    intro h
    rw [forDomain, if_pos (hx.trans hhi)] at h
    obtain ⟨b', -, h⟩ := bind_eq_ok.mp h
    obtain ⟨x', hx', h⟩ := bind_eq_ok.mp h
    have hincr : D.base.incr x = some x' := by
      unfold defined at hx'
      split at hx'
      · rename_i hsome
        rw [hsome, Except.ok.inj hx']
      · cases hx'
    exact ih (IntType.incr_le_hi hincr) b' h

/-- Where there is a default permutation, a value lies beyond the domain. -/
theorem lt_hi_of_default {p : Permutation D} (h : Permutation.default D = .ok p) :
    D.fin < D.base.hi := by
  obtain ⟨loops, hloops, -⟩ := bind_eq_ok.mp h
  exact not_le.mp fun hle => forDomain_ne_ok hle _ _ D.start_mem.2 _ _ hloops

/-- **The identity permutation**: `Permutation()` yields one, and it passes
`check()`; it has a loop for each element, of that element alone, in
decreasing order; and every sequence of loops that leaves all elements where
they are makes an equal one. -/
def IdentityExists (D : Dom) : Prop :=
  ∃ p, Permutation.default D = .ok p ∧ p.check = .ok ()
    ∧ (p.loops.length : ℤ) = D.fin - D.start + 1
    ∧ (∀ l ∈ p.loops, l.loop.length = 1)
    ∧ p.loops.Pairwise (fun l m => m.smallest < l.smallest)
    ∧ ∀ loops : List (PermLoop D), (∀ l ∈ loops, l.loop.Nodup) →
      (∀ x, loops.foldl (fun y l => l.apply y) x = x) →
      ∃ q, Permutation.ofLoops loops = .ok q ∧ p.equals q = true

/-- The loops of the identity are those of the elements in decreasing
order. -/
theorem loops_canon_one (D : Dom) :
    (canon 1 : Permutation D).loops = D.elems.reverse.map (loopAt 1) := by
  unfold canon
  rw [leaders_one]

/-- **The identity permutation exists** exactly where the domain ends below
the largest value of the base type and the number of its elements fits. -/
theorem identityExists_iff (hlt : D.start < D.fin) :
    IdentityExists D ↔ D.fin < D.base.hi ∧ D.CountFits := by
  constructor
  · rintro ⟨p, hp, -, -, -, -, hsame⟩
    have hhi := lt_hi_of_default hp
    refine ⟨hhi, ?_⟩
    obtain ⟨q, hq, -⟩ := hsame [] nofun fun _ => rfl
    obtain ⟨out, hout, -⟩ := bind_eq_ok.mp hq
    exact countFits_of_simplifyLoops hhi hout
  · rintro ⟨hhi, hfits⟩
    have hcanon := isCanonical_canon (1 : Perm (Idom D))
    refine ⟨_, Permutation.default_eq hhi, Permutation.check_of_isCanonical hlt hhi hcanon,
      ?_, ?_, hcanon.decreasing, ?_⟩
    · rw [loops_canon_one, List.length_map, List.length_reverse, length_elems, card]
      omega
    · intro l hl
      rw [loops_canon_one] at hl
      obtain ⟨t, -, rfl⟩ := List.mem_map.mp hl
      exact congrArg List.length (cycle_one t)
    · intro loops hnodup hid
      refine ⟨_, Permutation.ofLoops_eq hfits (incrFits_of_lt hhi) hlt hnodup, ?_⟩
      have hone : composed loops = 1 := by
        ext1 x
        rw [← foldl_apply_eq hnodup, hid]
        rfl
      rw [hone, Permutation.equals_iff]

/-- The tests' domain has an identity permutation. -/
theorem identityExists_oneToFour : IdentityExists oneToFour :=
  (identityExists_iff (by decide)).mpr (by decide)

/-- `Idom<char, 126, 127>` -/
def lastChars : Dom := ⟨.char, 126, 127, by decide, by decide⟩

/-- After 127 the variable is -128, which is not in the domain. -/
theorem not_identityExists_lastChars :
    lastChars.start < lastChars.fin
      ∧ Permutation.default lastChars = .error (.outOfRange "value too small for domain")
      ∧ ¬ IdentityExists lastChars := by
  have hthrow : Permutation.default lastChars
      = .error (.outOfRange "value too small for domain") := by decide
  refine ⟨by decide, hthrow, ?_⟩
  rintro ⟨p, hp, -⟩
  rw [hthrow] at hp
  cases hp

end Permutations
