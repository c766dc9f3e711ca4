import Mathlib.Data.List.Nodup
import Mathlib.Data.List.Perm.Subperm
import Mathlib.Data.Set.Insert
import Mathlib.Logic.Function.Basic

/-!
# Collision chains

A table of null-terminated chains, as a hash table with separate chaining
has one for each of its buckets. A chain hangs in a *cell*, a place that
holds a pointer to a node or the null pointer: the first cell of a chain is
its bucket, and every node has a cell of its own for what follows it. A
pointer to a pointer is a cell.

Cells are read through a partial function, so the lemmas know nothing about
how nodes are stored. As for rings, an operation is stated by what the cells
it writes hold afterwards and by which cells hold what they held before.
-/

namespace Chains

variable {α : Type}

/-- A place for a pointer to a node. -/
inductive Cell (α : Type)
  | bucket (b : ℕ)
  | next (x : α)
  deriving DecidableEq

/-- **The chain `xs` hangs in the cell `c`.** -/
def Chain (read : Cell α → Option (Option α)) : Cell α → List α → Prop
  | c, [] => read c = some none
  | c, x :: xs => read c = some (some x) ∧ Chain read (.next x) xs

/-- **Back pointers**: every node of a chain knows the cell that points at
it. -/
def Backed (back : α → Option (Cell α)) : Cell α → List α → Prop
  | _, [] => True
  | c, x :: xs => back x = some c ∧ Backed back (.next x) xs

/-- The cell after the nodes `xs` of a chain that hangs in `c`. -/
def cellAfter : Cell α → List α → Cell α
  | c, [] => c
  | _, x :: xs => cellAfter (.next x) xs

variable {read read' : Cell α → Option (Option α)} {back back' : α → Option (Cell α)} {c : Cell α}
  {x : α} {xs l r : List α}

/-! ## One chain -/

/-- The cell a chain hangs in points at its first node. -/
theorem Chain.read_head (h : Chain read c xs) : read c = some xs.head? := by
  cases xs with
  | nil => exact h
  | cons x xs => exact h.1

/-- The rest of a chain hangs in the cell after its beginning. -/
theorem Chain.drop (h : Chain read c (l ++ r)) : Chain read (cellAfter c l) r := by
  induction l generalizing c with
  | nil => exact h
  | cons x l ih => exact ih h.2

/-- A chain depends on its own cells only, and hangs in any cell that
points at its first node. -/
theorem Chain.congr {c' : Cell α} (h : Chain read c xs) (hc : read' c' = read c)
    (hn : ∀ x ∈ xs, read' (.next x) = read (.next x)) : Chain read' c' xs := by
  induction xs generalizing c c' with
  | nil => exact hc.trans h
  | cons x xs ih =>
    exact ⟨hc.trans h.1, ih h.2 (hn x List.mem_cons_self) fun y hy =>
      hn y (List.mem_cons_of_mem x hy)⟩

/-- The cells of the nodes of a chain are there. -/
theorem Chain.isSome_next (h : Chain read c xs) (hx : x ∈ xs) : (read (.next x)).isSome := by
  obtain ⟨l, r, rfl⟩ := List.append_of_mem hx
  rw [h.drop.2.read_head, Option.isSome_some]

/-- So is the cell after any beginning. -/
theorem Chain.isSome_cellAfter (h : Chain read c (l ++ r)) : (read (cellAfter c l)).isSome := by
  rw [h.drop.read_head, Option.isSome_some]

/-- The cell after a beginning is the first one or that of a node in it. -/
theorem cellAfter_eq (c : Cell α) (l : List α) :
    cellAfter c l = c ∨ ∃ x ∈ l, cellAfter c l = .next x := by
  induction l generalizing c with
  | nil => exact Or.inl rfl
  | cons x l ih =>
    right
    rcases ih (.next x) with h | ⟨y, hy, h⟩
    · exact ⟨x, List.mem_cons_self, h⟩
    · exact ⟨y, List.mem_cons_of_mem x hy, h⟩

/-- The cell after the beginning is no cell of the rest. -/
theorem cellAfter_ne (hc : ∀ y ∈ r, c ≠ .next y) (hnd : (l ++ r).Nodup) :
    ∀ y ∈ r, cellAfter c l ≠ .next y := by
  intro y hy he
  rcases cellAfter_eq c l with h | ⟨x, hx, h⟩
  · exact hc y hy (h ▸ he)
  · obtain rfl := Cell.next.inj (h ▸ he)
    exact (List.disjoint_of_nodup_append hnd) hx hy

/-- **A node taken out of a chain**: the cell that pointed at it points at
what followed it. -/
theorem Chain.remove (h : Chain read c (l ++ x :: r)) (hc : ∀ y ∈ l ++ x :: r, c ≠ .next y)
    (hnd : (l ++ x :: r).Nodup) (hread : read' (cellAfter c l) = read (.next x))
    (hsame : ∀ c', c' ≠ cellAfter c l → c' ≠ .next x → read' c' = read c') :
    Chain read' c (l ++ r) := by
  induction l generalizing c with
  | nil =>
    obtain ⟨hx, hnr⟩ := List.nodup_cons.mp hnd
    have hr := h.2
    rw [List.nil_append]
    cases r with
    | nil => exact hread.trans hr
    | cons y r =>
      refine ⟨hread.trans hr.1, hr.2.congr (hsame _ ?_ ?_) fun z hz => hsame _ ?_ ?_⟩
      · exact Ne.symm (hc y (by simp))
      · exact fun he => hx (Cell.next.inj he ▸ List.mem_cons_self)
      · exact Ne.symm (hc z (by simp [hz]))
      · exact fun he => hx (Cell.next.inj he ▸ List.mem_cons_of_mem y hz)
  | cons z l ih =>
    obtain ⟨hz, hnl⟩ := List.nodup_cons.mp hnd
    have hne : ∀ y ∈ l ++ x :: r, Cell.next z ≠ .next y := fun y hy he =>
      hz (Cell.next.inj he ▸ hy)
    refine ⟨(hsame c ?_ (hc x (by simp))).trans h.1, ih h.2 hne hnl hread hsame⟩
    rcases cellAfter_eq (.next z) l with he | ⟨y, hy, he⟩
    · rw [cellAfter, he]
      exact hc z (by simp)
    · rw [cellAfter, he]
      exact hc y (by simp [hy])

/-! ## Back pointers -/

/-- A node knows the cell after the nodes before it. -/
theorem Backed.back_mem (h : Backed back c (l ++ x :: r)) : back x = some (cellAfter c l) := by
  induction l generalizing c with
  | nil => exact h.1
  | cons y l ih => exact ih h.2

/-- Back pointers are those of the nodes of the chain only. -/
theorem Backed.congr (h : Backed back c xs) (hb : ∀ x ∈ xs, back' x = back x) :
    Backed back' c xs := by
  induction xs generalizing c with
  | nil => trivial
  | cons x xs ih =>
    exact ⟨(hb x List.mem_cons_self).trans h.1, ih h.2 fun y hy =>
      hb y (List.mem_cons_of_mem x hy)⟩

/-- **A node put in front** takes over the cell, and the node after it
learns of the new one. -/
theorem Backed.push (h : Backed back c xs) (hnd : xs.Nodup) (hx : back' x = some c)
    (hhead : ∀ y ∈ xs.head?, back' y = some (.next x))
    (hsame : ∀ y ∈ xs, xs.head? ≠ some y → back' y = back y) : Backed back' c (x :: xs) := by
  refine ⟨hx, ?_⟩
  cases xs with
  | nil => trivial
  | cons y xs =>
    refine ⟨hhead y rfl, h.2.congr fun z hz => hsame z (List.mem_cons_of_mem y hz) fun he => ?_⟩
    exact (List.nodup_cons.mp hnd).1 (Option.some.inj he ▸ hz)

/-- **A node taken out**: the one after it learns of the cell that pointed
at it. -/
theorem Backed.remove (h : Backed back c (l ++ x :: r)) (hnd : (l ++ x :: r).Nodup)
    (hhead : ∀ y ∈ r.head?, back' y = some (cellAfter c l))
    (hsame : ∀ y ∈ l ++ r, r.head? ≠ some y → back' y = back y) : Backed back' c (l ++ r) := by
  induction l generalizing c with
  | nil =>
    cases r with
    | nil => trivial
    | cons y r =>
      have hy := (List.nodup_cons.mp (List.nodup_cons.mp hnd).2).1
      refine ⟨hhead y rfl, h.2.2.congr fun z hz => hsame z (by simp [hz]) fun he => ?_⟩
      exact hy (Option.some.inj he ▸ hz)
  | cons z l ih =>
    obtain ⟨hz, hnl⟩ := List.nodup_cons.mp hnd
    refine ⟨(hsame z (by simp) fun he => hz ?_).trans h.1,
      ih h.2 hnl hhead fun y hy => hsame y (List.mem_cons_of_mem z hy)⟩
    exact List.mem_append_right l (List.mem_cons_of_mem x (List.mem_of_mem_head? he))

/-! ## The table -/

/-- **A table of chains**: the nodes of `nodes`, each in the chain of its
own bucket. -/
structure Table (read : Cell α → Option (Option α)) (n : ℕ) (hash : α → ℕ) (nodes : Set α)
    (chain : ℕ → List α) : Prop where
  /-- Every bucket has its chain. -/
  chained : ∀ b < n, Chain read (.bucket b) (chain b)
  /-- No node is twice in a chain. -/
  nodup : ∀ b < n, (chain b).Nodup
  /-- A chain has the nodes of its bucket. -/
  mem_iff : ∀ b < n, ∀ x, x ∈ chain b ↔ x ∈ nodes ∧ hash x = b

variable {n : ℕ} {hash hash' : α → ℕ} {nodes : Set α} {chain : ℕ → List α}

/-- A table without nodes. -/
theorem Table.empty (hread : ∀ b < n, read (.bucket b) = some none) (hash : α → ℕ) :
    Table read n hash ∅ fun _ => [] :=
  ⟨hread, fun _ _ => List.nodup_nil, fun _ _ x => by simp⟩

/-- A table depends on the cells, and the buckets of the nodes, only. -/
theorem Table.congr (h : Table read n hash nodes chain) (hread : read' = read)
    (hhash : ∀ x ∈ nodes, hash' x = hash x) : Table read' n hash' nodes chain := by
  refine ⟨fun b hb => hread ▸ h.chained b hb, h.nodup, fun b hb x => ?_⟩
  rw [h.mem_iff b hb]
  exact and_congr_right fun hx => by rw [hhash x hx]

/-- A node is in one chain only. -/
theorem Table.ne_of_mem (h : Table read n hash nodes chain) {b b' : ℕ} (hb : b < n) (hb' : b' < n)
    (hne : b' ≠ b) {y : α} (hx : x ∈ chain b) (hy : y ∈ chain b') : y ≠ x := by
  rintro rfl
  exact hne (((h.mem_iff b' hb' y).mp hy).2.symm.trans ((h.mem_iff b hb y).mp hx).2)

/-- **A new node** goes in front of the chain of its bucket. -/
theorem Table.insert (h : Table read n hash nodes chain) (hx : x ∉ nodes) (hlt : hash' x < n)
    (hhash : ∀ y ∈ nodes, hash' y = hash y) (hbucket : read' (.bucket (hash' x)) = some (some x))
    (hnext : read' (.next x) = read (.bucket (hash' x)))
    (hsame : ∀ c, c ≠ .bucket (hash' x) → c ≠ .next x → read' c = read c) :
    Table read' n hash' (insert x nodes)
      (Function.update chain (hash' x) (x :: chain (hash' x))) := by
  have hmem : ∀ b < n, x ∉ chain b := fun b hb hm => hx ((h.mem_iff b hb x).mp hm).1
  have hrest : ∀ b < n, ∀ y ∈ chain b, read' (.next y) = read (.next y) := fun b hb y hy =>
    hsame _ (by simp) fun he => hmem b hb (Cell.next.inj he ▸ hy)
  refine ⟨fun b hb => ?_, fun b hb => ?_, fun b hb y => ?_⟩
  · by_cases hb' : b = hash' x
    · subst hb'
      rw [Function.update_self]
      exact ⟨hbucket, (h.chained _ hb).congr hnext (hrest _ hb)⟩
    · rw [Function.update_of_ne hb']
      exact (h.chained b hb).congr (hsame _ (by simpa using hb') (by simp)) (hrest b hb)
  · by_cases hb' : b = hash' x
    · subst hb'
      rw [Function.update_self]
      exact List.nodup_cons.mpr ⟨hmem _ hb, h.nodup _ hb⟩
    · rw [Function.update_of_ne hb']
      exact h.nodup b hb
  · rw [Set.mem_insert_iff]
    by_cases hb' : b = hash' x
    · subst hb'
      rw [Function.update_self, List.mem_cons, h.mem_iff _ hb, or_and_right]
      refine or_congr ⟨fun he => ⟨he, congrArg hash' he⟩, And.left⟩ (and_congr_right fun hy => ?_)
      rw [hhash y hy]
    · rw [Function.update_of_ne hb', h.mem_iff b hb, or_and_right, or_iff_right]
      · exact and_congr_right fun hy => by rw [hhash y hy]
      · rintro ⟨rfl, he⟩
        exact hb' he.symm

/-- **A node taken out** of the chain of its bucket. -/
theorem Table.remove (h : Table read n hash nodes chain) (hlt : hash x < n)
    (hchain : chain (hash x) = l ++ x :: r)
    (hread : read' (cellAfter (.bucket (hash x)) l) = read (.next x))
    (hsame : ∀ c, c ≠ cellAfter (.bucket (hash x)) l → c ≠ .next x → read' c = read c) :
    Table read' n hash (nodes \ {x}) (Function.update chain (hash x) (l ++ r)) := by
  have hnd := h.nodup _ hlt
  rw [hchain] at hnd
  have hx : x ∈ chain (hash x) := hchain ▸ List.mem_append_right l List.mem_cons_self
  have hlr : ∀ y, y ∈ l ++ r ↔ y ∈ chain (hash x) ∧ y ≠ x := by
    have hmid : (l ++ x :: r).Perm (x :: (l ++ r)) := List.perm_middle
    have hnot := (List.nodup_cons.mp (hmid.nodup_iff.mp hnd)).1
    intro y
    rw [hchain, hmid.mem_iff, List.mem_cons]
    constructor
    · exact fun hy => ⟨Or.inr hy, fun he => hnot (he ▸ hy)⟩
    · exact fun hy => hy.1.resolve_left hy.2
  refine ⟨fun b hb => ?_, fun b hb => ?_, fun b hb y => ?_⟩
  · by_cases hb' : b = hash x
    · subst hb'
      rw [Function.update_self]
      have hold := h.chained _ hb
      rw [hchain] at hold
      exact hold.remove (by simp) hnd hread hsame
    · rw [Function.update_of_ne hb']
      -- no cell of another bucket was written
      have hne : ∀ y ∈ chain b, y ∉ l ++ x :: r := fun y hy hm =>
        h.ne_of_mem hlt hb hb' (hchain ▸ hm) hy rfl
      refine (h.chained b hb).congr (hsame _ ?_ (by simp)) fun y hy => hsame _ ?_ ?_
      · rcases cellAfter_eq (.bucket (hash x)) l with he | ⟨z, -, he⟩
        · rw [he]
          simpa using hb'
        · rw [he]
          simp
      · rcases cellAfter_eq (.bucket (hash x)) l with he | ⟨z, hz, he⟩
        · rw [he]
          simp
        · rw [he]
          exact fun he => hne y hy (by simp [Cell.next.inj he, hz])
      · exact fun he => hne y hy (by simp [Cell.next.inj he])
  · by_cases hb' : b = hash x
    · subst hb'
      rw [Function.update_self]
      exact hnd.sublist (by simp)
    · rw [Function.update_of_ne hb']
      exact h.nodup b hb
  · rw [Set.mem_sdiff, Set.mem_singleton_iff, and_right_comm, ← h.mem_iff b hb]
    by_cases hb' : b = hash x
    · subst hb'
      rw [Function.update_self]
      exact hlr y
    · rw [Function.update_of_ne hb']
      exact ⟨fun hy => ⟨hy, h.ne_of_mem hlt hb hb' hx hy⟩, And.left⟩

/-- The back pointers of a table. -/
def BackedTable (back : α → Option (Cell α)) (n : ℕ) (chain : ℕ → List α) : Prop :=
  ∀ b < n, Backed back (.bucket b) (chain b)

/-- Back pointers after a new node was put in front of a chain. -/
theorem BackedTable.insert (hb : BackedTable back n chain) (h : Table read n hash nodes chain)
    {b : ℕ} (hlt : b < n) (hx : x ∉ nodes) (hback : back' x = some (.bucket b))
    (hhead : ∀ y ∈ (chain b).head?, back' y = some (.next x))
    (hsame : ∀ y, y ≠ x → (chain b).head? ≠ some y → back' y = back y) :
    BackedTable back' n (Function.update chain b (x :: chain b)) := by
  have hne : ∀ b < n, ∀ y ∈ chain b, y ≠ x := fun b hb y hy he =>
    hx (he ▸ ((h.mem_iff b hb y).mp hy).1)
  intro b' hb'
  by_cases he : b' = b
  · subst he
    rw [Function.update_self]
    exact (hb b' hb').push (h.nodup b' hb') hback hhead fun y hy => hsame y (hne b' hb' y hy)
  · rw [Function.update_of_ne he]
    refine (hb b' hb').congr fun y hy => hsame y (hne b' hb' y hy) fun hhd => ?_
    exact h.ne_of_mem hlt hb' he (List.mem_of_mem_head? hhd) hy rfl

/-- Back pointers after a node was taken out of a chain. -/
theorem BackedTable.remove (hb : BackedTable back n chain) (h : Table read n hash nodes chain)
    {b : ℕ} (hlt : b < n) (hchain : chain b = l ++ x :: r)
    (hhead : ∀ y ∈ r.head?, back' y = some (cellAfter (.bucket b) l))
    (hsame : ∀ y, y ≠ x → r.head? ≠ some y → back' y = back y) :
    BackedTable back' n (Function.update chain b (l ++ r)) := by
  have hnd := h.nodup b hlt
  have hback := hb b hlt
  rw [hchain] at hnd hback
  have hx : ∀ y ∈ l ++ r, y ≠ x := fun y hy he =>
    (List.nodup_cons.mp ((List.perm_middle).nodup_iff.mp hnd)).1 (he ▸ hy)
  intro b' hb'
  by_cases he : b' = b
  · subst he
    rw [Function.update_self]
    exact hback.remove hnd hhead fun y hy => hsame y (hx y hy)
  · rw [Function.update_of_ne he]
    have hne : ∀ y ∈ chain b', ∀ z ∈ l ++ x :: r, y ≠ z := fun y hy z hz =>
      h.ne_of_mem hlt hb' he (hchain ▸ hz) hy
    refine (hb b' hb').congr fun y hy => hsame y (hne y hy x (by simp)) fun hhd => ?_
    exact hne y hy y (by simp [List.mem_of_mem_head? hhd]) rfl

/-! ## How long a chain is -/

/-- A list of different numbers below `n` has no more than `n`. -/
theorem length_le_of_lt {xs : List ℕ} (hnd : xs.Nodup) (hlt : ∀ x ∈ xs, x < n) :
    xs.length ≤ n := by
  have hsub : xs ⊆ List.range n := fun x hx => List.mem_range.mpr (hlt x hx)
  have hlen := (List.subperm_of_subset hnd hsub).length_le
  rwa [List.length_range] at hlen

end Chains
