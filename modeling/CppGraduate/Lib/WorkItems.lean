import Mathlib.Algebra.BigOperators.Group.Finset.Basic
import Mathlib.Algebra.Order.BigOperators.Group.Finset
import Mathlib.Data.Fintype.BigOperators
import Mathlib.Data.Set.Finite.Lemmas
import Mathlib.Logic.Function.Basic
import Mathlib.Logic.Relation
import Mathlib.Tactic.Common

/-!
# Work-items, work-groups and barriers

A data-parallel kernel is run by many work-items at once. They fall into
work-groups; the items of a group share a local memory, all items share the
global one, and each has a private state of its own. One step is one action
of one item on the memory it sees, and the items take their steps in any
order. What an item cannot do is pass a barrier that another item of its
group has not reached.

The scheduler is a relation, so a statement about all runs is a statement
about every interleaving. An action that is not defined – an index out of
range, an arithmetic overflow – is a fault, and a run is safe when no item
of it is ever about to fault.

**What is shown once for all kernels**: a barrier keeps the items of a group
together (`passed_le_reached`), what an item's own steps keep holds of it in
every run (`Reaches.private_state`), a kernel whose items all pass the same
number of barriers does not get stuck (`exists_step`), and one whose items
count down ends (`ends_of_rank`).
-/

namespace WorkItems

/-- What a work-item does next in a private state of type `σ`, with a memory
of type `μ` to act on. -/
inductive Next (σ μ : Type) where
  /-- An action on the memory; `none` is a fault. -/
  | act (f : μ → Option (σ × μ))
  /-- A barrier, and the private state after it. -/
  | barrier (p : σ)
  /-- The end of the kernel. -/
  | done

/-- The number of barriers an item is waiting at. -/
def Next.waiting {σ μ : Type} : Next σ μ → ℕ
  | .barrier _ => 1
  | _ => 0

/-- **A kernel over its work-items** `ι` in groups `κ`: the private state
each item begins in, and what it does next. -/
structure Kernel (ι κ σ l g : Type) where
  /-- The group of an item. -/
  group : ι → κ
  /-- The private state an item begins in. -/
  init : ι → σ
  /-- What an item does next, on its group's local memory and on the global
  one. -/
  next : ι → σ → Next σ (l × g)

/-- A state of a run. -/
structure State (ι κ σ l g : Type) where
  /-- The private state of each item. -/
  priv : ι → σ
  /-- How many barriers each item has passed. -/
  passed : ι → ℕ
  /-- The local memory of each group. -/
  loc : κ → l
  /-- The global memory. -/
  glob : g

variable {ι κ σ l g : Type}

namespace Kernel

/-- The state a run begins in, local memories being whatever they are. -/
def start (K : Kernel ι κ σ l g) (loc : κ → l) (glob : g) : State ι κ σ l g :=
  ⟨K.init, fun _ => 0, loc, glob⟩

/-- How many barriers an item has reached: those it has passed, and the one
it is waiting at. -/
def reached (K : Kernel ι κ σ l g) (s : State ι κ σ l g) (i : ι) : ℕ :=
  s.passed i + (K.next i (s.priv i)).waiting

/-- **No item is about to fault**. -/
def Safe (K : Kernel ι κ σ l g) (s : State ι κ σ l g) : Prop :=
  ∀ i f, K.next i (s.priv i) = .act f → (f (s.loc (K.group i), s.glob)).isSome

/-- **Every item is at its end**. -/
def Finished (K : Kernel ι κ σ l g) (s : State ι κ σ l g) : Prop :=
  ∀ i, K.next i (s.priv i) = .done

section

variable {K : Kernel ι κ σ l g} {s : State ι κ σ l g}

/-- An item that is about to act waits at no barrier. -/
theorem reached_of_act {i : ι} {f : l × g → Option (σ × l × g)}
    (hn : K.next i (s.priv i) = .act f) : K.reached s i = s.passed i := by
  rw [reached, hn]
  rfl

/-- An item at a barrier has reached one more than it has passed. -/
theorem reached_of_barrier {i : ι} {p : σ} (hn : K.next i (s.priv i) = .barrier p) :
    K.reached s i = s.passed i + 1 := by
  rw [reached, hn]
  rfl

/-- What an item has passed it has reached. -/
theorem passed_le_reached_self (K : Kernel ι κ σ l g) (s : State ι κ σ l g) (i : ι) :
    s.passed i ≤ K.reached s i :=
  Nat.le_add_right _ _

end

variable [DecidableEq ι] [DecidableEq κ]

/-- The state after item `i` has acted. -/
def acted (K : Kernel ι κ σ l g) (s : State ι κ σ l g) (i : ι) (p : σ) (m : l × g) :
    State ι κ σ l g :=
  { s with
    priv := Function.update s.priv i p
    loc := Function.update s.loc (K.group i) m.1
    glob := m.2 }

omit [DecidableEq κ] in
/-- The state after item `i` has passed a barrier. -/
def released (s : State ι κ σ l g) (i : ι) (p : σ) : State ι κ σ l g :=
  { s with
    priv := Function.update s.priv i p
    passed := Function.update s.passed i (s.passed i + 1) }

/-- **A step of some work-item**. -/
inductive Step (K : Kernel ι κ σ l g) : State ι κ σ l g → State ι κ σ l g → Prop
  /-- An item acts on its group's local memory and the global one. -/
  | act {s : State ι κ σ l g} {i : ι} {f : l × g → Option (σ × l × g)} {p : σ} {m : l × g}
      (hn : K.next i (s.priv i) = .act f) (hf : f (s.loc (K.group i), s.glob) = some (p, m)) :
      Step K s (K.acted s i p m)
  /-- An item passes a barrier that every item of its group has reached. -/
  | pass {s : State ι κ σ l g} {i : ι} {p : σ} (hn : K.next i (s.priv i) = .barrier p)
      (hall : ∀ j, K.group j = K.group i → s.passed i < K.reached s j) :
      Step K s (released s i p)

/-- The states a run from `s₀` comes through. -/
def Reaches (K : Kernel ι κ σ l g) : State ι κ σ l g → State ι κ σ l g → Prop :=
  Relation.ReflTransGen K.Step

/-- **Every run from `s₀` is as it should be**: no item faults, `P` holds all
along, the items never block each other, the run ends, and `Q` holds when it
has ended. -/
structure EveryRun (K : Kernel ι κ σ l g) (s₀ : State ι κ σ l g)
    (P Q : State ι κ σ l g → Prop) : Prop where
  /-- No item faults. -/
  safe : ∀ s, K.Reaches s₀ s → K.Safe s
  /-- What holds all along. -/
  always : ∀ s, K.Reaches s₀ s → P s
  /-- The items never block each other. -/
  unblocked : ∀ s, K.Reaches s₀ s → K.Finished s ∨ ∃ s', K.Step s s'
  /-- No schedule goes on for ever. -/
  ends : Acc (fun s' s => K.Step s s') s₀
  /-- What holds at the end. -/
  finished : ∀ s, K.Reaches s₀ s → K.Finished s → Q s

variable {K : Kernel ι κ σ l g} {s₀ s s' : State ι κ σ l g}

/-! ## Invariants -/

/-- **What a step keeps holds in every state a run comes through**. The step
may be assumed to be taken in a reachable state. -/
theorem Reaches.invariant {P : State ι κ σ l g → Prop} (h : K.Reaches s₀ s) (h₀ : P s₀)
    (hstep : ∀ s s', K.Reaches s₀ s → P s → K.Step s s' → P s') : P s := by
  induction h with
  | refl => exact h₀
  | tail hr hs ih => exact hstep _ _ hr ih hs

/-- **What an item's own steps keep of its private state and of the number
of barriers it has passed holds in every run**, whatever the others do. -/
theorem Reaches.private_state {I : ι → σ → ℕ → Prop} {loc : κ → l} {glob : g}
    (h : K.Reaches (K.start loc glob) s) (hinit : ∀ i, I i (K.init i) 0)
    (hact : ∀ i p n f m p' m', K.next i p = .act f → f m = some (p', m') → I i p n → I i p' n)
    (hbarrier : ∀ i p n p', K.next i p = .barrier p' → I i p n → I i p' (n + 1)) (i : ι) :
    I i (s.priv i) (s.passed i) := by
  refine h.invariant (P := fun s => ∀ i, I i (s.priv i) (s.passed i)) hinit ?_ i
  intro s s' _ ih hs j
  cases hs with
  | @act i f p m hn hf =>
    show I j (Function.update s.priv i p j) (s.passed j)
    by_cases hj : j = i
    · subst hj
      rw [Function.update_self]
      exact hact _ _ _ _ _ _ _ hn hf (ih j)
    · rw [Function.update_of_ne hj]
      exact ih j
  | @pass i p hn hall =>
    show I j (Function.update s.priv i p j) (Function.update s.passed i (s.passed i + 1) j)
    by_cases hj : j = i
    · subst hj
      rw [Function.update_self, Function.update_self]
      exact hbarrier _ _ _ _ hn (ih j)
    · rw [Function.update_of_ne hj, Function.update_of_ne hj]
      exact ih j

/-- Another item's step changes nothing an item has reached. -/
theorem reached_acted_of_ne {i j : ι} (hj : j ≠ i) (p : σ) (m : l × g) :
    K.reached (K.acted s i p m) j = K.reached s j := by
  show s.passed j + (K.next j (Function.update s.priv i p j)).waiting = _
  rw [Function.update_of_ne hj]
  rfl

omit [DecidableEq κ] in
/-- Another item's barrier changes nothing an item has reached. -/
theorem reached_released_of_ne {i j : ι} (hj : j ≠ i) (p : σ) :
    K.reached (released s i p) j = K.reached s j := by
  show Function.update s.passed i (s.passed i + 1) j
    + (K.next j (Function.update s.priv i p j)).waiting = _
  rw [Function.update_of_ne hj, Function.update_of_ne hj]
  rfl

/-- **The items of a group stay together**: none has passed a barrier that
another has not reached. -/
theorem passed_le_reached {loc : κ → l} {glob : g} (h : K.Reaches (K.start loc glob) s) {i j : ι}
    (hij : K.group i = K.group j) : s.passed i ≤ K.reached s j := by
  refine h.invariant (P := fun s => ∀ i j, K.group i = K.group j → s.passed i ≤ K.reached s j)
    (fun i j _ => Nat.zero_le _) ?_ i j hij
  intro s s' _ ih hs a b hab
  cases hs with
  | @act i f p m hn hf =>
    show s.passed a ≤ _
    by_cases hb : b = i
    · subst hb
      calc s.passed a ≤ K.reached s b := ih a b hab
        _ = s.passed b := reached_of_act hn
        _ ≤ K.reached (K.acted s b p m) b := passed_le_reached_self K (K.acted s b p m) b
    · rw [reached_acted_of_ne hb]
      exact ih a b hab
  | @pass i p hn hall =>
    have hself : (released s i p).passed i = s.passed i + 1 := Function.update_self ..
    -- the barrier that item `i` passes is one every item has reached
    have hbound : (released s i p).passed a ≤ s.passed i + 1 ∨ a ≠ i := by
      by_cases ha : a = i
      · exact Or.inl (by rw [ha, hself])
      · exact Or.inr ha
    by_cases ha : a = i
    · subst ha
      rw [hself]
      by_cases hb : b = a
      · subst hb
        have := passed_le_reached_self K (released s b p) b
        omega
      · rw [reached_released_of_ne hb]
        exact hall b hab.symm
    · have hpa : (released s i p).passed a = s.passed a := Function.update_of_ne ha ..
      rw [hpa]
      by_cases hb : b = i
      · subst hb
        have h₁ := ih a b hab
        have h₂ := passed_le_reached_self K (released s b p) b
        rw [reached_of_barrier hn] at h₁
        omega
      · rw [reached_released_of_ne hb]
        exact ih a b hab

/-! ## Ends of runs -/

/-- **Items that all pass the same barriers do not block each other**: of
those that have not ended, one that has passed the fewest can go on. -/
theorem exists_step [Finite ι] {N : ℕ} (hsafe : K.Safe s)
    (hdone : ∀ i, K.next i (s.priv i) = .done → N ≤ s.passed i)
    (hbarrier : ∀ i p, K.next i (s.priv i) = .barrier p → s.passed i < N) :
    K.Finished s ∨ ∃ s', K.Step s s' := by
  by_cases hact : ∃ i f, K.next i (s.priv i) = .act f
  · obtain ⟨i, f, hn⟩ := hact
    obtain ⟨⟨p, m⟩, hf⟩ := Option.isSome_iff_exists.mp (hsafe i f hn)
    exact Or.inr ⟨_, .act hn hf⟩
  by_cases hfin : K.Finished s
  · exact Or.inl hfin
  right
  -- all items that have not ended are at barriers
  have hwait : ∀ j, K.next j (s.priv j) ≠ .done → ∃ p, K.next j (s.priv j) = .barrier p := by
    intro j hj
    cases hn : K.next j (s.priv j) with
    | act f => exact absurd ⟨j, f, hn⟩ hact
    | barrier p => exact ⟨p, rfl⟩
    | done => exact absurd hn hj
  obtain ⟨i, hi, hmin⟩ : ∃ i, K.next i (s.priv i) ≠ .done
      ∧ ∀ j, K.next j (s.priv j) ≠ .done → s.passed i ≤ s.passed j := by
    have hne : {j | K.next j (s.priv j) ≠ .done}.Nonempty := by
      simpa [Finished, Set.Nonempty] using hfin
    exact Set.exists_min_image _ s.passed (Set.toFinite _) hne
  obtain ⟨p, hp⟩ := hwait i hi
  refine ⟨_, .pass hp ?_⟩
  intro j _
  by_cases hj : K.next j (s.priv j) = .done
  · exact ((hbarrier i p hp).trans_le (hdone j hj)).trans_le (passed_le_reached_self K s j)
  · obtain ⟨q, hq⟩ := hwait j hj
    rw [reached_of_barrier hq]
    exact Nat.lt_succ_of_le (hmin j hj)

omit [DecidableEq κ] in
/-- What a change of one item leaves as it is, it leaves so for all. -/
theorem apply_update_of_eq {α : Type} (f : σ → α) {p : ι → σ} {i : ι} {x : σ} (h : f x = f (p i))
    (j : ι) : f (Function.update p i x j) = f (p j) := by
  by_cases hj : j = i
  · rw [hj, Function.update_self, h]
  · rw [Function.update_of_ne hj]

omit [DecidableEq κ] in
/-- A sum over the items after one of them has changed. -/
theorem sum_update {M : Type} [AddCommMonoid M] (t : Finset ι) (h : ι → σ → M) (p : ι → σ) {i : ι}
    (hi : i ∈ t) (x : σ) :
    ∑ j ∈ t, h j (Function.update p i x j) + h i (p i) = ∑ j ∈ t, h j (p j) + h i x := by
  rw [← Finset.add_sum_erase t _ hi, ← Finset.add_sum_erase t (fun j => h j (p j)) hi]
  have hrest : ∑ j ∈ t.erase i, h j (Function.update p i x j) = ∑ j ∈ t.erase i, h j (p j) :=
    Finset.sum_congr rfl fun j hj => by rw [Function.update_of_ne (Finset.ne_of_mem_erase hj)]
  rw [hrest, Function.update_self]
  ac_rfl

/-- **Items that count down end**, under every schedule. What the items know
in their private states may be used for it. -/
theorem ends_of_rank [Fintype ι] (rank : ι → σ → ℕ) {I : ι → σ → Prop}
    (hact : ∀ i p f m p' m', K.next i p = .act f → f m = some (p', m') → I i p →
      I i p' ∧ rank i p' < rank i p)
    (hbarrier : ∀ i p p', K.next i p = .barrier p' → I i p → I i p' ∧ rank i p' < rank i p)
    (hs : ∀ i, I i (s.priv i)) : Acc (fun s' s => K.Step s s') s := by
  induction hn : ∑ i, rank i (s.priv i) using Nat.strong_induction_on generalizing s with
  | _ n ih =>
    subst hn
    -- a step changes the private state of one item, and counts it down
    have hnext : ∀ (s' : State ι κ σ l g) (i : ι) (p : σ), s'.priv = Function.update s.priv i p →
        I i p → rank i p < rank i (s.priv i) → Acc (fun s' s => K.Step s s') s' := by
      intro s' i p hp hI hlt
      have hsum := sum_update Finset.univ rank s.priv (Finset.mem_univ i) p
      refine ih _ ?_ ?_ rfl
      · rw [hp]
        omega
      · intro j
        rw [hp]
        by_cases hj : j = i
        · subst hj
          rwa [Function.update_self]
        · rw [Function.update_of_ne hj]
          exact hs j
    refine Acc.intro s fun s' hstep => ?_
    cases hstep with
    | @act i f p m hn hf =>
      obtain ⟨hI, hlt⟩ := hact i _ f _ p m hn hf (hs i)
      exact hnext _ i p rfl hI hlt
    | @pass i p hn hall =>
      obtain ⟨hI, hlt⟩ := hbarrier i _ p hn (hs i)
      exact hnext _ i p rfl hI hlt

/-- What every run shows may be said in other words. -/
theorem EveryRun.mono {P P' Q Q' : State ι κ σ l g → Prop} (h : K.EveryRun s₀ P Q)
    (hP : ∀ s, P s → P' s) (hQ : ∀ s, K.Reaches s₀ s → Q s → Q' s) : K.EveryRun s₀ P' Q' :=
  ⟨h.safe, fun s hs => hP s (h.always s hs), h.unblocked, h.ends, fun s hs hfin =>
    hQ s hs (h.finished s hs hfin)⟩

/-- **A launch whose runs are all as they should be comes to its end**. -/
theorem EveryRun.exists_finished {P Q : State ι κ σ l g → Prop} (h : K.EveryRun s₀ P Q) :
    ∃ s, K.Reaches s₀ s ∧ K.Finished s ∧ Q s := by
  suffices h' : ∀ s, Acc (fun s' s => K.Step s s') s → K.Reaches s₀ s →
      ∃ s', K.Reaches s₀ s' ∧ K.Finished s' by
    obtain ⟨s, hs, hfin⟩ := h' s₀ h.ends .refl
    exact ⟨s, hs, hfin, h.finished s hs hfin⟩
  intro s hacc
  induction hacc with
  | intro s _ ih =>
    intro hs
    rcases h.unblocked s hs with hfin | ⟨s', hstep⟩
    · exact ⟨s, hs, hfin⟩
    · exact ih s' hstep (hs.tail hstep)

end Kernel

end WorkItems
