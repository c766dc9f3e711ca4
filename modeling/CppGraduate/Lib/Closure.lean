import Mathlib.GroupTheory.Perm.Cycle.Basic
import Mathlib.Logic.Relation

/-!
# What can be reached, round by round

A search from one element goes on in rounds. What earlier rounds have dealt
with is *found*, what they have come upon besides is *next*; a round makes
all of it found, and what it leads to and is not found yet is next. When
nothing is next, the found elements are those that can be reached.

If every step is what some permutation of a finite set does, and this
permutation's other steps are there, too, the elements that can be reached
from each other fall into classes: a power of the permutation leads back.

The containers such a search goes through may be unordered: an `IterOrder`
says in which order the elements of each of them come.
-/

namespace Closure

open Relation

variable {α : Type*} {step : α → α → Prop} {start : α} {found next : Set α}

/-! ## The rounds of a search -/

/-- **The invariant of the search**, between two rounds. -/
structure Frontier (step : α → α → Prop) (start : α) (found next : Set α) : Prop where
  /-- The search has come upon the element it starts from. -/
  start_mem : start ∈ found ∪ next
  /-- Everything it has come upon can be reached. -/
  reached : ∀ x ∈ found ∪ next, ReflTransGen step start x
  /-- A found element leads nowhere else. -/
  closed : ∀ x ∈ found, ∀ y, step x y → y ∈ found ∪ next
  /-- What is next has not been found yet. -/
  fresh : ∀ x ∈ next, x ∉ found

/-- At first only the start is next. -/
theorem Frontier.init (step : α → α → Prop) (start : α) : Frontier step start ∅ {start} where
  start_mem := Or.inr rfl
  reached := by
    rintro x (hx | rfl)
    · exact hx.elim
    · exact .refl
  closed _ hx := hx.elim
  fresh _ _ hx := hx

/-- **One round**: what was next is found, and where it leads is next, as
far as it has not been found. -/
theorem Frontier.round (h : Frontier step start found next) {tmp : Set α}
    (htmp : ∀ y, y ∈ tmp ↔ (∃ x ∈ next, step x y) ∧ y ∉ found ∪ next) :
    Frontier step start (found ∪ next) tmp where
  start_mem := Or.inl h.start_mem
  reached := by
    rintro y (hy | hy)
    · exact h.reached y hy
    · obtain ⟨⟨x, hx, hxy⟩, -⟩ := (htmp y).mp hy
      exact (h.reached x (Or.inr hx)).tail hxy
  closed := by
    rintro x (hx | hx) y hxy
    · exact Or.inl (h.closed x hx y hxy)
    · by_cases hy : y ∈ found ∪ next
      · exact Or.inl hy
      · exact Or.inr ((htmp y).mpr ⟨⟨x, hx, hxy⟩, hy⟩)
  fresh y hy := ((htmp y).mp hy).2

/-- **The end of the search**: the found elements are those that can be
reached. -/
theorem Frontier.done (h : Frontier step start found ∅) (x : α) :
    x ∈ found ↔ ReflTransGen step start x := by
  have hclosed : ∀ y ∈ found, ∀ z, step y z → z ∈ found := fun y hy z hyz =>
    (h.closed y hy z hyz).elim id fun hz => hz.elim
  constructor
  · intro hx
    exact h.reached x (Or.inl hx)
  · intro hx
    induction hx with
    | refl => exact h.start_mem.elim id fun hs => hs.elim
    | tail _ hyz ih => exact hclosed _ ih _ hyz

/-- **A round finds something new.** -/
theorem Frontier.card_lt [DecidableEq α] {found next : Finset α}
    (h : Frontier step start (found : Set α) (next : Set α)) (hne : next ≠ ∅) :
    found.card < (found ∪ next).card := by
  obtain ⟨x, hx⟩ := Finset.nonempty_iff_ne_empty.mpr hne
  refine Finset.card_lt_card (Finset.ssubset_iff_subset_ne.mpr ⟨Finset.subset_union_left, ?_⟩)
  intro he
  refine h.fresh x hx ?_
  rw [he]
  exact Finset.mem_union_right _ hx

/-! ## Steps of permutations -/

/-- **What permutations of a finite set lead to leads back.** -/
theorem reflTransGen_symm [Finite α]
    (hstep : ∀ x y, step x y → ∃ σ : Equiv.Perm α, σ x = y ∧ ∀ z, step z (σ z)) {x y : α}
    (h : ReflTransGen step x y) : ReflTransGen step y x := by
  induction h with
  | refl => exact .refl
  | @tail y z _ hyz ih =>
    obtain ⟨σ, rfl, hσ⟩ := hstep y z hyz
    have hpow : ∀ (n : ℕ) (u : α), ReflTransGen step u ((σ ^ n) u) := by
      intro n
      induction n with
      | zero => exact fun u => .refl
      | succ n ihn =>
        intro u
        rw [pow_succ', Equiv.Perm.mul_apply]
        exact (ihn u).tail (hσ _)
    -- a power of the permutation is its inverse
    obtain ⟨n, hn⟩ := (Equiv.Perm.SameCycle.refl σ y).apply_left.exists_nat_pow_eq
    have hback := hpow n (σ y)
    rw [hn] at hback
    exact hback.trans ih

/-- **Classes**: two elements lead to the same elements, or to no common
one. -/
theorem reflTransGen_eq_or_disjoint [Finite α]
    (hstep : ∀ x y, step x y → ∃ σ : Equiv.Perm α, σ x = y ∧ ∀ z, step z (σ z)) (x y : α) :
    (∀ z, ReflTransGen step x z ↔ ReflTransGen step y z)
      ∨ ∀ z, ¬ (ReflTransGen step x z ∧ ReflTransGen step y z) := by
  by_cases hxy : ReflTransGen step x y
  · exact Or.inl fun z => ⟨(reflTransGen_symm hstep hxy).trans, hxy.trans⟩
  · exact Or.inr fun z hz => hxy (hz.1.trans (reflTransGen_symm hstep hz.2))

/-! ## Unordered containers -/

/-- **An order of iteration**: for each round and each content of the
container, its elements in some order. -/
structure IterOrder (α : Type*) where
  /-- The elements in order. -/
  order : ℕ → Multiset α → List α
  /-- They are the elements. -/
  order_eq : ∀ n m, (order n m : Multiset α) = m

noncomputable instance : Inhabited (IterOrder α) :=
  ⟨⟨fun _ m => m.toList, fun _ m => m.coe_toList⟩⟩

/-- The order lists the elements. -/
theorem IterOrder.mem_order (it : IterOrder α) (n : ℕ) (m : Multiset α) {x : α} :
    x ∈ it.order n m ↔ x ∈ m := by
  rw [← Multiset.mem_coe, it.order_eq]

end Closure
