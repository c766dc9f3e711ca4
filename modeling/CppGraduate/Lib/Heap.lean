import Mathlib.Data.Nat.Notation
import Mathlib.Data.Option.Basic
import Mathlib.Logic.Function.Basic

/-!
# Typed heaps

A heap of one type of block: an address holds a block or nothing. An
address is handed out once – a block that is freed leaves a hole no later
allocation fills – so a pointer that outlives its block reads nothing, and
a program that reads through one is stuck rather than lucky.

Reading through an address that holds nothing has no result. The
operations that change a block are partial for the same reason; `mapAt`
and `erase` are their total forms, and the lemmas below trade the partial
form for the total one as soon as the block is known to be there.
-/

/-- **A heap of blocks of type `α`.** Every address from `bound` on is
unused, which is what makes `bound` the next address to hand out. -/
structure Heap (α : Type) where
  /-- What an address holds. -/
  cells : ℕ → Option α
  /-- The next address an allocation returns. -/
  bound : ℕ
  /-- No address from `bound` on holds a block. -/
  fresh : ∀ a, bound ≤ a → cells a = none

namespace Heap

variable {α : Type}

/-- The heap no block has been allocated in. -/
def empty : Heap α := ⟨fun _ => none, 0, fun _ _ => rfl⟩

/-- The block at an address. -/
def read (h : Heap α) (a : ℕ) : Option α := h.cells a

/-- Allocate a block: its address, and the heap that holds it. -/
def alloc (h : Heap α) (v : α) : ℕ × Heap α :=
  (h.bound, ⟨fun b => if b = h.bound then some v else h.cells b, h.bound + 1,
    fun b hb => by
      rw [if_neg (by omega)]
      exact h.fresh b (by omega)⟩)

/-- Rewrite the block at an address, if there is one. -/
def mapAt (h : Heap α) (a : ℕ) (f : α → α) : Heap α :=
  ⟨fun b => if b = a then (h.cells b).map f else h.cells b, h.bound,
    fun b hb => by rw [h.fresh b hb]; simp⟩

/-- Write through a pointer: defined where the pointer points at a
block. -/
def modify (h : Heap α) (a : ℕ) (f : α → α) : Option (Heap α) :=
  if (h.read a).isSome then some (h.mapAt a f) else none

/-- Empty an address. -/
def erase (h : Heap α) (a : ℕ) : Heap α :=
  ⟨fun b => if b = a then none else h.cells b, h.bound,
    fun b hb => by rw [h.fresh b hb]; simp⟩

/-- Free a block: defined where there is one. -/
def free (h : Heap α) (a : ℕ) : Option (Heap α) :=
  if (h.read a).isSome then some (h.erase a) else none

/-! ## What each operation reads back -/

@[simp] theorem alloc_fst (h : Heap α) (v : α) : (h.alloc v).1 = h.bound := rfl

@[simp] theorem read_bound (h : Heap α) : h.read h.bound = none :=
  h.fresh _ (Nat.le_refl _)

theorem read_alloc (h : Heap α) (v : α) (b : ℕ) :
    (h.alloc v).2.read b = if b = h.bound then some v else h.read b := rfl

theorem read_mapAt (h : Heap α) (a : ℕ) (f : α → α) (b : ℕ) :
    (h.mapAt a f).read b = if b = a then (h.read b).map f else h.read b := rfl

/-- A block that is there and is replaced. -/
theorem read_mapAt_const {h : Heap α} {a : ℕ} {v : α} (hr : h.read a = some v) (w : α) (b : ℕ) :
    (h.mapAt a fun _ => w).read b = if b = a then some w else h.read b := by
  rw [read_mapAt]
  by_cases hb : b = a
  · rw [if_pos hb, if_pos hb, hb, hr, Option.map_some]
  · rw [if_neg hb, if_neg hb]

@[simp] theorem isSome_read_mapAt (h : Heap α) (a : ℕ) (f : α → α) (b : ℕ) :
    ((h.mapAt a f).read b).isSome = (h.read b).isSome := by
  rw [read_mapAt]
  split <;> simp

theorem read_erase (h : Heap α) (a b : ℕ) :
    (h.erase a).read b = if b = a then none else h.read b := rfl

/-- Writing through a pointer to a block. -/
theorem modify_of_isSome {h : Heap α} {a : ℕ} (hr : (h.read a).isSome)
    (f : α → α) : h.modify a f = some (h.mapAt a f) := if_pos hr

/-- Freeing a block. -/
theorem free_of_isSome {h : Heap α} {a : ℕ} (hr : (h.read a).isSome) :
    h.free a = some (h.erase a) := if_pos hr

/-- An address that holds a block was handed out. -/
theorem ne_bound_of_read {h : Heap α} {a : ℕ} {v : α}
    (hr : h.read a = some v) : a ≠ h.bound := by
  rintro rfl
  exact absurd hr (by simp)

end Heap
