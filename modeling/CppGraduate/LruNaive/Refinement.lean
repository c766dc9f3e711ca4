import CppGraduate.Lib.Circular
import CppGraduate.Lib.Lru
import CppGraduate.LruInC.Inclusion
import CppGraduate.LruNaive.Main

/-!
# lru-in-c-naive computes the hits of the textbook list

A list that ends in null pointers and has a head and a tail is a ring
through the null pointer: the `next` of null is the head, its `prev` the
tail. With that reading `unlink_node` and `prepend` are the removal and the
insertion of a ring, and their case distinctions on null pointers disappear.

The nodes in use are in that ring, in the order of the reference, and each
is in the chain of the bucket of its value and in no other. A node that is
reused leaves the chain of its old value before it is given the new one;
that the two may be the same chain makes no difference.
-/

namespace LruNaive

open Chains (Cell Chain Table cellAfter)
open State

/-! ## Reading the pointers -/

/-- The `next` pointer of a node, or the head. -/
def nextOf (s : State) : Option ℕ → Option (Option ℕ)
  | none => some s.cache.head
  | some i => s.nodes[i]?.map Node.next

/-- The `prev` pointer of a node, or the tail. -/
def prevOf (s : State) : Option ℕ → Option (Option ℕ)
  | none => some s.cache.tail
  | some i => s.nodes[i]?.map Node.prev

/-- The value of a node. -/
def valueOf (s : State) (i : ℕ) : Int64 := s.nodes[i]?.elim 0 Node.value

/-- The bucket of a node: that of its current value. -/
def bucketOf (s : State) (i : ℕ) : ℕ := bucketFor (valueOf s i) s.cache.capacity

/-- **The list from head to tail**, and back. -/
abbrev IsList (s : State) (nodes : List ℕ) : Prop :=
  Circular.IsRing (nextOf s) (prevOf s) none (nodes.map some)

/-- The set of the nodes in a list. -/
abbrev nodeSet (nodes : List ℕ) : Set ℕ := {i | i ∈ nodes}

/-- What no write through a pointer changes. -/
def frame (s : State) : ℕ × ℕ × ℕ × ℕ × Int64 :=
  (s.nodes.size, s.cache.buckets.size, s.cache.capacity, s.used, s.hits)

theorem frame_eq {s s' : State} (h : frame s' = frame s) :
    s'.nodes.size = s.nodes.size ∧ s'.cache.buckets.size = s.cache.buckets.size
      ∧ s'.cache.capacity = s.cache.capacity ∧ s'.used = s.used ∧ s'.hits = s.hits := by
  simpa [frame] using h

/-- **Only the list changed.** -/
structure SameChains (s s' : State) : Prop where
  cell : ∀ c, s'.cell c = s.cell c
  value : ∀ i, valueOf s' i = valueOf s i
  frame : frame s' = frame s

/-- **Only the chains, and values, changed.** -/
structure SameList (s s' : State) : Prop where
  next : ∀ a, nextOf s' a = nextOf s a
  prev : ∀ a, prevOf s' a = prevOf s a
  frame : frame s' = frame s

theorem SameChains.trans {s s' s'' : State} (h : SameChains s s') (h' : SameChains s' s'') :
    SameChains s s'' :=
  ⟨fun c => (h'.cell c).trans (h.cell c), fun i => (h'.value i).trans (h.value i),
    h'.frame.trans h.frame⟩

/-- A list does not depend on the chains. -/
theorem IsList.sameList {s s' : State} {nodes : List ℕ} (h : IsList s nodes)
    (hs : SameList s s') : IsList s' nodes := by
  rw [IsList, funext hs.next, funext hs.prev]
  exact h

/-! ## What a write reads back -/

section Writes

variable (s : State) (f : Node → Node) (p : Option ℕ) (a b : Option ℕ) (c c' : Cell ℕ) (i j : ℕ)

theorem getElem?_mapNode :
    (s.mapNode f i).nodes[j]? = if j = i then s.nodes[j]?.map f else s.nodes[j]? := by
  rw [mapNode, Array.getElem?_modify]
  simp only [eq_comm]

@[simp] theorem frame_mapNode : frame (s.mapNode f i) = frame s := by
  simp only [frame, mapNode, Array.size_modify]

/-- A field of a node that no cell is. -/
theorem cell_mapNode {f : Node → Node} (hf : ∀ x, (f x).hashNext = x.hashNext) :
    (s.mapNode f i).cell c = s.cell c := by
  cases c with
  | bucket b => rfl
  | next j =>
    rw [cell, getElem?_mapNode, cell]
    split_ifs
    · rw [Option.map_map]
      exact congrArg (Option.map · _) (funext hf)
    · rfl

/-- A field of a node other than its value. -/
theorem valueOf_mapNode {f : Node → Node} (hf : ∀ x, (f x).value = x.value) :
    valueOf (s.mapNode f i) j = valueOf s j := by
  rw [valueOf, getElem?_mapNode, valueOf]
  split_ifs
  · cases s.nodes[j]? with
    | none => rfl
    | some x => exact hf x
  · rfl

/-- Write the `next` pointer of a node, or the head. -/
def setNext : Option ℕ → State
  | none => { s with cache.head := p }
  | some i => s.mapNode (fun x => { x with next := p }) i

/-- Write the `prev` pointer of a node, or the tail. -/
def setPrev : Option ℕ → State
  | none => { s with cache.tail := p }
  | some i => s.mapNode (fun x => { x with prev := p }) i

theorem writeNext_of_isSome (h : (nextOf s a).isSome) : s.writeNext p a = some (setNext s p a) := by
  cases a with
  | none => rfl
  | some i =>
    rw [nextOf, Option.isSome_map] at h
    exact if_pos (Array.getElem?_eq_some_iff.mp (Option.eq_some_of_isSome h)).1

theorem writePrev_of_isSome (h : (prevOf s a).isSome) : s.writePrev p a = some (setPrev s p a) := by
  cases a with
  | none => rfl
  | some i =>
    rw [prevOf, Option.isSome_map] at h
    exact if_pos (Array.getElem?_eq_some_iff.mp (Option.eq_some_of_isSome h)).1

variable {s a} in
theorem nextOf_setNext (h : (nextOf s a).isSome) :
    nextOf (setNext s p a) b = if b = a then some p else nextOf s b := by
  cases a <;> cases b <;> simp only [setNext, nextOf, reduceCtorEq, if_false, if_true]
  case some.none => rfl
  case some.some i j =>
    rw [getElem?_mapNode]
    by_cases hij : j = i
    · subst hij
      obtain ⟨x, hx⟩ := Option.isSome_iff_exists.mp ((Option.isSome_map ..).symm.trans h)
      rw [if_pos rfl, if_pos rfl, hx]
      rfl
    · rw [if_neg hij, if_neg (by simpa using hij)]

variable {s a} in
theorem prevOf_setPrev (h : (prevOf s a).isSome) :
    prevOf (setPrev s p a) b = if b = a then some p else prevOf s b := by
  cases a <;> cases b <;> simp only [setPrev, prevOf, reduceCtorEq, if_false, if_true]
  case some.none => rfl
  case some.some i j =>
    rw [getElem?_mapNode]
    by_cases hij : j = i
    · subst hij
      obtain ⟨x, hx⟩ := Option.isSome_iff_exists.mp ((Option.isSome_map ..).symm.trans h)
      rw [if_pos rfl, if_pos rfl, hx]
      rfl
    · rw [if_neg hij, if_neg (by simpa using hij)]

@[simp] theorem prevOf_setNext : prevOf (setNext s p a) b = prevOf s b := by
  cases a <;> cases b <;> simp only [setNext, prevOf, getElem?_mapNode] <;> try rfl
  split_ifs
  · rw [Option.map_map]
    rfl
  · rfl

@[simp] theorem nextOf_setPrev : nextOf (setPrev s p a) b = nextOf s b := by
  cases a <;> cases b <;> simp only [setPrev, nextOf, getElem?_mapNode] <;> try rfl
  split_ifs
  · rw [Option.map_map]
    rfl
  · rfl

/-- Writing at another place leaves a node alone. -/
theorem getElem?_setNext (h : some i ≠ a) : (setNext s p a).nodes[i]? = s.nodes[i]? := by
  cases a with
  | none => rfl
  | some j => rw [setNext, getElem?_mapNode, if_neg (by simpa using h)]

theorem sameChains_setNext : SameChains s (setNext s p a) := by
  cases a with
  | none => exact ⟨fun c => by cases c <;> rfl, fun _ => rfl, rfl⟩
  | some i =>
    exact ⟨fun c => cell_mapNode s c i fun _ => rfl, fun j => valueOf_mapNode s i j fun _ => rfl,
      frame_mapNode ..⟩

theorem sameChains_setPrev : SameChains s (setPrev s p a) := by
  cases a with
  | none => exact ⟨fun c => by cases c <;> rfl, fun _ => rfl, rfl⟩
  | some i =>
    exact ⟨fun c => cell_mapNode s c i fun _ => rfl, fun j => valueOf_mapNode s i j fun _ => rfl,
      frame_mapNode ..⟩

/-- A field of a node that is no pointer of the list. -/
theorem sameList_mapNode {f : Node → Node} (hn : ∀ x, (f x).next = x.next)
    (hp : ∀ x, (f x).prev = x.prev) : SameList s (s.mapNode f i) := by
  refine ⟨fun a => ?_, fun a => ?_, frame_mapNode ..⟩
  · cases a with
    | none => rfl
    | some j =>
      rw [nextOf, getElem?_mapNode, nextOf]
      split_ifs
      · rw [Option.map_map]
        exact congrArg (Option.map · _) (funext hn)
      · rfl
  · cases a with
    | none => rfl
    | some j =>
      rw [prevOf, getElem?_mapNode, prevOf]
      split_ifs
      · rw [Option.map_map]
        exact congrArg (Option.map · _) (funext hp)
      · rfl

theorem cell_setCell :
    (s.setCell p c).cell c' = if c' = c then (s.cell c').map fun _ => p else s.cell c' := by
  cases c <;> cases c' <;>
    simp only [setCell, State.cell, mapNode, reduceCtorEq, if_false, Array.getElem?_modify]
  case bucket.bucket b b' =>
    by_cases hb : b = b'
    · rw [if_pos hb, if_pos (by rw [hb])]
    · rw [if_neg hb, if_neg (by simpa using Ne.symm hb)]
  case next.next i j =>
    by_cases hij : i = j
    · rw [if_pos hij, if_pos (by rw [hij]), Option.map_map, Option.map_map]
      rfl
    · rw [if_neg hij, if_neg (by simpa using Ne.symm hij)]

theorem sameList_setCell : SameList s (s.setCell p c) := by
  cases c with
  | bucket b =>
    exact ⟨fun a => by cases a <;> rfl, fun a => by cases a <;> rfl,
      by simp only [frame, setCell, Array.size_modify]⟩
  | next i =>
    exact sameList_mapNode s i (f := fun x => { x with hashNext := p }) (fun _ => rfl) fun _ => rfl

theorem valueOf_setCell : valueOf (s.setCell p c) i = valueOf s i := by
  cases c with
  | bucket b => rfl
  | next j => exact valueOf_mapNode s j i (f := fun x => { x with hashNext := p }) fun _ => rfl

end Writes

/-! ## The list -/

section List

variable {s : State} {nodes : List ℕ}

/-- **`unlink_node`** takes a node out of the list. -/
theorem unlinkNode_spec {l r : List ℕ} {i : ℕ} (hl : IsList s (l ++ i :: r)) :
    ∃ s', unlinkNode i s = some s' ∧ IsList s' (l ++ r) ∧ SameChains s s' := by
  rw [IsList, List.map_append, List.map_cons] at hl
  obtain ⟨hpm, hsm, hnot⟩ := hl.neighbours
  set pred := (l.map some).getLastD none with hpred
  set succ := (r.map some).headD none with hsucc
  have hmem : ∀ a ∈ none :: (l.map some ++ r.map some),
      a ∈ none :: (l.map some ++ some i :: r.map some) := fun a ha => by
    simp only [List.mem_cons, List.mem_append] at ha ⊢
    tauto
  obtain ⟨x, hx, hxn⟩ := Option.map_eq_some_iff.mp (show s.nodes[i]?.map Node.next = some succ from
    hl.next_mem)
  have hxp : x.prev = pred := by
    have hprev : s.nodes[i]?.map Node.prev = some pred := hl.prev_mem
    rw [hx] at hprev
    exact Option.some.inj hprev
  have hne : some i ≠ pred := fun he => hnot (he ▸ hpm)
  have hsp : (nextOf s pred).isSome := hl.next_isSome (hmem pred hpm)
  have hss : (prevOf s succ).isSome := by
    cases hr : r with
    | nil =>
      rw [hsucc, hr]
      rfl
    | cons j r' =>
      have hj := hl.next_isSome (hmem (some j) (by simp [hr]))
      rw [hsucc, hr]
      show (s.nodes[j]?.map Node.prev).isSome
      rwa [Option.isSome_map, ← Option.isSome_map (f := Node.next)]
  set s' := setPrev (setNext s succ pred) pred succ with hs'
  have hnext : ∀ a, nextOf s' a = if a = pred then some succ else nextOf s a := fun a => by
    rw [hs', nextOf_setPrev, nextOf_setNext _ _ hsp]
  have hprev : ∀ a, prevOf s' a = if a = succ then some pred else prevOf s a := fun a => by
    rw [hs', prevOf_setPrev _ _ (by rw [prevOf_setNext]; exact hss), prevOf_setNext]
  refine ⟨s', ?_, ?_, (sameChains_setNext ..).trans (sameChains_setPrev ..)⟩
  · have hx' : (setNext s succ pred).nodes[i]? = some x := by
      rw [getElem?_setNext s succ pred i hne, hx]
    simp only [unlinkNode, hx, hxn, hxp, writeNext_of_isSome s succ pred hsp, hx',
      Option.bind_eq_bind, Option.bind_some]
    exact writePrev_of_isSome _ pred succ (by rw [prevOf_setNext]; exact hss)
  · rw [IsList, List.map_append]
    exact hl.detach hnext hprev

/-- **`prepend`** puts a node first. -/
theorem prepend_spec (hl : IsList s nodes) {i : ℕ} (hi : i ∉ nodes) (hlt : i < s.nodes.size) :
    ∃ s', prepend i s = some s' ∧ IsList s' (i :: nodes) ∧ SameChains s s' := by
  set first := (nodes.map some).headD none with hfirst
  have hmem : first ∈ none :: nodes.map some := by
    cases nodes <;> simp [hfirst]
  have hnot : some i ∉ none :: nodes.map some := by simpa using hi
  have hnf : some i ≠ first := fun he => hnot (he ▸ hmem)
  have hhead : s.cache.head = first := Option.some.inj hl.next_head
  have hnode : ∀ a, some i = a → (nextOf s a).isSome ∧ (prevOf s a).isSome := by
    rintro a rfl
    rw [nextOf, prevOf, Option.isSome_map, Option.isSome_map, Array.getElem?_eq_getElem hlt]
    exact ⟨rfl, rfl⟩
  have hsn := hnode _ rfl
  have hsf : (prevOf s first).isSome := by
    cases hn : nodes with
    | nil =>
      rw [hfirst, hn]
      rfl
    | cons j nodes' =>
      have hj := hl.next_isSome (a := some j) (by simp [hn])
      rw [hfirst, hn]
      show (s.nodes[j]?.map Node.prev).isSome
      rwa [Option.isSome_map, ← Option.isSome_map (f := Node.next)]
  -- the four writes in the order of the source
  set s' := setNext (setPrev (setNext (setPrev s none (some i)) first (some i)) (some i) first)
    (some i) none with hs'
  have hnext : ∀ a, nextOf s' a = if a = none then some (some i)
      else if a = some i then some first else nextOf s a := fun a => by
    rw [hs', nextOf_setNext _ _ (by rw [nextOf_setPrev]; rfl), nextOf_setPrev,
      nextOf_setNext _ _ (by rw [nextOf_setPrev]; exact hsn.1), nextOf_setPrev]
  have hprev : ∀ a, prevOf s' a = if a = first then some (some i)
      else if a = some i then some none else prevOf s a := fun a => by
    have hsf' : (prevOf (setNext (setPrev s none (some i)) first (some i)) first).isSome := by
      rw [prevOf_setNext, prevOf_setPrev _ _ hsn.2, if_neg hnf.symm]
      exact hsf
    rw [hs', prevOf_setNext, prevOf_setPrev _ _ hsf', prevOf_setNext, prevOf_setPrev _ _ hsn.2]
  refine ⟨s', ?_, hl.prepend hnot hnext hprev, ?_⟩
  · have h₁ : s.modifyNode i (fun x => { x with prev := none }) = some (setPrev s none (some i)) :=
      if_pos hlt
    have h₂ : (setPrev s none (some i)).modifyNode i (fun x => { x with next := first })
        = some (setNext (setPrev s none (some i)) first (some i)) :=
      if_pos (by rw [(frame_eq (sameChains_setPrev s none (some i)).frame).1]; exact hlt)
    have hhead₁ : (setPrev s none (some i)).cache.head = first := hhead
    have hhead₂ : (setNext (setPrev s none (some i)) first (some i)).cache.head = first := hhead
    have hsf' : (prevOf (setNext (setPrev s none (some i)) first (some i)) first).isSome := by
      rw [prevOf_setNext, prevOf_setPrev _ _ hsn.2, if_neg hnf.symm]
      exact hsf
    simp only [prepend, h₁, hhead₁, h₂, hhead₂, writePrev_of_isSome _ _ _ hsf', Option.bind_eq_bind,
      Option.bind_some]
    rfl
  · exact ((sameChains_setPrev ..).trans (sameChains_setNext ..)).trans
      ((sameChains_setPrev ..).trans (sameChains_setNext ..))

end List

/-! ## The chains -/

section Chains

variable {s : State} {nodes : Set ℕ} {chain : ℕ → List ℕ}

/-- What is known of a cell of a node that is there. -/
theorem node_of_cell {i : ℕ} {p : Option ℕ} (h : s.cell (.next i) = some p) :
    ∃ x, s.nodes[i]? = some x ∧ x.hashNext = p :=
  Option.map_eq_some_iff.mp h

/-- **The walk along a chain** stops at the first node with the value. -/
theorem findFrom_spec {c : Cell ℕ} {xs : List ℕ} (h : Chain s.cell c xs) (value : Int64)
    {passes : ℕ} (hp : xs.length < passes) :
    findFrom value s passes xs.head? = some (xs.find? fun i => valueOf s i = value) := by
  induction xs generalizing c passes with
  | nil =>
    obtain ⟨passes, rfl⟩ := Nat.exists_eq_succ_of_ne_zero (Nat.ne_of_gt hp)
    rfl
  | cons i xs ih =>
    obtain ⟨passes, rfl⟩ := Nat.exists_eq_succ_of_ne_zero (Nat.ne_of_gt (Nat.zero_lt_of_lt hp))
    obtain ⟨x, hx, hnext⟩ := node_of_cell h.2.read_head
    have hvalue : valueOf s i = x.value := by rw [valueOf, hx, Option.elim_some]
    simp only [List.head?_cons, findFrom, hx, Option.bind_eq_bind, Option.bind_some]
    by_cases he : x.value = value
    · rw [if_pos he, List.find?_cons_of_pos (by simpa [hvalue] using he)]
      rfl
    · rw [if_neg he, List.find?_cons_of_neg (by simpa [hvalue] using he), hnext]
      exact ih h.2 (Nat.lt_of_succ_lt_succ hp)

/-- **The walk to a node** ends at the cell that points at it, and follows
no null pointer. -/
theorem linkFrom_spec {c : Cell ℕ} {l r : List ℕ} {i : ℕ} (h : Chain s.cell c (l ++ i :: r))
    (hi : i ∉ l) {passes : ℕ} (hp : l.length < passes) :
    linkFrom i s passes c = some (cellAfter c l) := by
  induction l generalizing c passes with
  | nil =>
    obtain ⟨passes, rfl⟩ := Nat.exists_eq_succ_of_ne_zero (Nat.ne_of_gt hp)
    rw [linkFrom, h.1]
    exact if_pos rfl
  | cons j l ih =>
    obtain ⟨passes, rfl⟩ := Nat.exists_eq_succ_of_ne_zero (Nat.ne_of_gt (Nat.zero_lt_of_lt hp))
    obtain ⟨hij, hil⟩ := not_or.mp (List.mem_cons.not.mp hi)
    rw [linkFrom, h.1, Option.bind_eq_bind, Option.bind_some,
      if_neg fun he => hij (Option.some.inj he).symm]
    exact ih h.2 hil (Nat.lt_of_succ_lt_succ hp)

/-- A node of the table is in the array. -/
theorem lt_size_of_table (h : Table s.cell s.cache.capacity (bucketOf s) nodes chain)
    (hc : 0 < s.cache.capacity) {i : ℕ} (hi : i ∈ nodes) : i < s.nodes.size := by
  have hlt : bucketOf s i < s.cache.capacity := Nat.mod_lt _ hc
  have hcell := (h.chained _ hlt).isSome_next ((h.mem_iff _ hlt i).mpr ⟨hi, rfl⟩)
  rw [State.cell, Option.isSome_map] at hcell
  exact (Array.getElem?_eq_some_iff.mp (Option.eq_some_of_isSome hcell)).1

/-- No chain is longer than the array. -/
theorem length_chain_le (h : Table s.cell s.cache.capacity (bucketOf s) nodes chain)
    {b : ℕ} (hb : b < s.cache.capacity) : (chain b).length ≤ s.nodes.size :=
  Chains.length_le_of_lt (h.nodup b hb) fun i hi =>
    lt_size_of_table h (Nat.zero_lt_of_lt hb) ((h.mem_iff b hb i).mp hi).1

/-- Values and cells that are the same make the same table. -/
theorem SameChains.table {s' : State} (hs : SameChains s s')
    (h : Table s.cell s.cache.capacity (bucketOf s) nodes chain) :
    Table s'.cell s'.cache.capacity (bucketOf s') nodes chain := by
  rw [(frame_eq hs.frame).2.2.1]
  refine h.congr (funext hs.cell) fun i _ => ?_
  rw [bucketOf, bucketOf, hs.value, (frame_eq hs.frame).2.2.1]

/-- **A node with a new value** goes into the chain of that value. -/
theorem chainNode_spec (h : Table s.cell s.cache.capacity (bucketOf s) nodes chain)
    (hc : 0 < s.cache.capacity) {i : ℕ} (hi : i ∉ nodes) (hlt : i < s.nodes.size) (value : Int64) :
    ∃ s' chain', chainNode value (bucketFor value s.cache.capacity) i s = some s'
      ∧ Table s'.cell s'.cache.capacity (bucketOf s') (insert i nodes) chain' ∧ SameList s s'
      ∧ ∀ j, valueOf s' j = if j = i then value else valueOf s j := by
  obtain ⟨b, hb⟩ : ∃ b, bucketFor value s.cache.capacity = b := ⟨_, rfl⟩
  have hbl : b < s.cache.capacity := hb ▸ Nat.mod_lt _ hc
  set first := (chain b).head? with hfirst
  have hread : s.cell (.bucket b) = some first := (h.chained b hbl).read_head
  -- the node is written first, then the bucket that points at it
  set s₁ := s.mapNode (fun x => { x with value := value, hashNext := first }) i with hs₁
  set s₂ := s₁.setCell (some i) (.bucket b) with hs₂
  have hcell₁ : ∀ c, s₁.cell c = if c = .next i then some first else s.cell c := by
    intro c
    cases c with
    | bucket b => rfl
    | next j =>
      rw [hs₁, State.cell, getElem?_mapNode]
      by_cases hij : j = i
      · rw [if_pos hij, if_pos (by rw [hij]), hij, Array.getElem?_eq_getElem hlt]
        rfl
      · rw [if_neg hij, if_neg (by simpa using hij), State.cell]
  have hbucket₁ : s₁.cell (.bucket b) = some first := by rw [hcell₁, if_neg (by simp), hread]
  have hvalue : ∀ j, valueOf s₂ j = if j = i then value else valueOf s j := by
    intro j
    rw [hs₂, valueOf_setCell, hs₁, valueOf, getElem?_mapNode]
    split_ifs with hij
    · rw [hij, Array.getElem?_eq_getElem hlt]
      rfl
    · rw [valueOf]
  have hsame : SameList s s₂ := by
    have h₁ := sameList_mapNode s i (f := fun x => { x with value := value, hashNext := first })
      (fun _ => rfl) fun _ => rfl
    have h₂ := sameList_setCell s₁ (some i) (.bucket b)
    exact ⟨fun a => (h₂.next a).trans (h₁.next a), fun a => (h₂.prev a).trans (h₁.prev a),
      h₂.frame.trans h₁.frame⟩
  have hcap := (frame_eq hsame.frame).2.2.1
  have hbi : bucketOf s₂ i = b := by rw [bucketOf, hvalue, if_pos rfl, hcap, hb]
  refine ⟨s₂, Function.update chain b (i :: chain b), ?_, ?_, hsame, hvalue⟩
  · rw [hb]
    have hmod : s.modifyNode i (fun x => { x with value := value, hashNext := first })
        = some s₁ := if_pos hlt
    rw [chainNode, hread, Option.bind_eq_bind, Option.bind_some, hmod, Option.bind_eq_bind,
      Option.bind_some]
    exact if_pos (by rw [hbucket₁, Option.isSome_some])
  · rw [hcap]
    have hupdate : Function.update chain b (i :: chain b)
        = Function.update chain (bucketOf s₂ i) (i :: chain (bucketOf s₂ i)) := by rw [hbi]
    rw [hupdate]
    refine h.insert hi (by rw [hbi]; exact hbl) (fun j hj => ?_) ?_ ?_ fun c hne hni => ?_
    · have hji : j ≠ i := fun he => hi (he ▸ hj)
      rw [bucketOf, bucketOf, hvalue, if_neg hji, hcap]
    · rw [hbi, hs₂, cell_setCell, if_pos rfl, hbucket₁, Option.map_some]
    · rw [hbi, hs₂, cell_setCell, if_neg (by simp), hcell₁, if_pos rfl, hread]
    · rw [hbi] at hne
      rw [hs₂, cell_setCell, if_neg hne, hcell₁, if_neg hni]

/-- **Reusing the tail**: it is not null, the walk to it ends, and the node
leaves the chain of its old value and the list. -/
theorem reuseTail_spec {l : List ℕ} {j : ℕ} (hl : IsList s (l ++ [j])) (hj : j ∉ l)
    (h : Table s.cell s.cache.capacity (bucketOf s) (nodeSet (l ++ [j])) chain)
    (hc : 0 < s.cache.capacity) :
    ∃ s' chain', reuseTail s = some (j, s') ∧ IsList s' l
      ∧ Table s'.cell s'.cache.capacity (bucketOf s') (nodeSet l) chain'
      ∧ (∀ i, valueOf s' i = valueOf s i) ∧ frame s' = frame s := by
  have hmem : j ∈ nodeSet (l ++ [j]) := List.mem_append_right l List.mem_cons_self
  have hlt : bucketOf s j < s.cache.capacity := Nat.mod_lt _ hc
  -- the tail is in the chain of the value it holds
  obtain ⟨xs, ys, hsplit⟩ := List.append_of_mem ((h.mem_iff _ hlt j).mpr ⟨hmem, rfl⟩)
  have hchain := h.chained _ hlt
  have hnd := h.nodup _ hlt
  have hlen := length_chain_le h hlt
  rw [hsplit] at hchain hnd hlen
  have hnot : j ∉ xs := fun hm => (List.disjoint_of_nodup_append hnd) hm List.mem_cons_self
  set c := cellAfter (.bucket (bucketOf s j)) xs with hcdef
  have hcell : (s.cell c).isSome := hchain.isSome_cellAfter
  obtain ⟨x, hx, hxn⟩ := node_of_cell hchain.drop.2.read_head
  have hxv : bucketFor x.value s.cache.capacity = bucketOf s j := by
    rw [bucketOf, valueOf, hx, Option.elim_some]
  have htail : s.cache.tail = some j := by
    have hprev := hl.prev_head
    rw [List.map_append, List.map_cons, List.map_nil, List.getLastD_concat] at hprev
    exact Option.some.inj hprev
  -- the walk meets the tail before its bound runs out
  have hlink : linkFrom j s (s.nodes.size + 1) (.bucket (bucketOf s j)) = some c :=
    linkFrom_spec hchain hnot (by
      rw [List.length_append, List.length_cons] at hlen
      omega)
  set s₁ := s.setCell x.hashNext c with hs₁
  have hsame₁ := sameList_setCell s x.hashNext c
  have hcap₁ := (frame_eq hsame₁.frame).2.2.1
  have hset : nodeSet l = nodeSet (l ++ [j]) \ {j} := by
    ext i
    simp only [Set.mem_ofPred_eq, Set.mem_sdiff, List.mem_append, List.mem_singleton,
      Set.mem_singleton_iff]
    exact ⟨fun hi => ⟨Or.inl hi, fun he => hj (he ▸ hi)⟩, fun hi => hi.1.resolve_right hi.2⟩
  have htable₁ : Table s₁.cell s₁.cache.capacity (bucketOf s₁) (nodeSet l)
      (Function.update chain (bucketOf s j) (xs ++ ys)) := by
    have hremoved : Table s₁.cell s.cache.capacity (bucketOf s) (nodeSet (l ++ [j]) \ {j})
        (Function.update chain (bucketOf s j) (xs ++ ys)) := by
      refine h.remove hlt hsplit ?_ fun c' hne _ => ?_
      · rw [hs₁, cell_setCell, if_pos rfl, Option.eq_some_of_isSome hcell, Option.map_some,
          State.cell, hx]
        rfl
      · rw [hs₁, cell_setCell, if_neg hne]
    rw [hcap₁, hset]
    refine hremoved.congr rfl fun i _ => ?_
    rw [bucketOf, bucketOf, hs₁, valueOf_setCell, hcap₁]
  -- out of its chain, it leaves the list
  obtain ⟨s₂, hunlink, hl₂, hsame₂⟩ := unlinkNode_spec (hl.sameList hsame₁)
  rw [List.append_nil] at hl₂
  refine ⟨s₂, _, ?_, hl₂, hsame₂.table htable₁, fun i => ?_, hsame₂.frame.trans hsame₁.frame⟩
  · have hwrite : s.writeCell c x.hashNext = some s₁ := if_pos hcell
    rw [reuseTail, htail, Option.bind_eq_bind, Option.bind_some, hx, Option.bind_eq_bind,
      Option.bind_some]
    simp only [hxv, hlink, Option.bind_eq_bind, Option.bind_some, hwrite]
    rw [show unlinkNode j s₁ = some s₂ from hunlink]
    rfl
  · rw [hsame₂.value, valueOf_setCell]

end Chains

/-! ## One request -/

/-- **The cache has `keys`, most recent first, in `nodes`.** -/
structure Represents (s : State) (nodes : List ℕ) (keys : List Int64) : Prop where
  /-- From head to tail along `next`, and back along `prev`. -/
  list : IsList s nodes
  /-- Every node of the list is in the chain of the bucket of its value, and
  the chains have no others. -/
  table : ∃ chain, Table s.cell s.cache.capacity (bucketOf s) (nodeSet nodes) chain
  /-- The values are written in the nodes. -/
  written : nodes.map (valueOf s) = keys
  /-- No value is there twice. -/
  nodup : keys.Nodup

/-- **What holds between requests**: the nodes in use are those of the
list. -/
structure Refines (limit : ℕ) (s : State) (keys : List Int64) : Prop where
  nodes : ∃ nodes, Represents s nodes keys ∧ nodes.Perm (List.range s.used)
  used : s.used ≤ limit
  sizes : s.nodes.size = limit ∧ s.cache.capacity = limit

section Request

variable {limit : ℕ} {s : State} {nodes : List ℕ} {keys : List Int64} {value : Int64}

/-- The nodes are all different. -/
theorem Represents.nodup_nodes (h : Represents s nodes keys) : nodes.Nodup :=
  .of_map _ (List.nodup_cons.mp h.list.nodup).2

/-- There are as many values as nodes in use. -/
theorem Refines.length_keys (h : Refines limit s keys) : keys.length = s.used := by
  obtain ⟨nodes, hrep, hperm⟩ := h.nodes
  rw [← hrep.written, List.length_map, hperm.length_eq, List.length_range]

/-- **What the walk finds**: the node of the value. -/
theorem Represents.find (h : Represents s nodes keys) (hc : 0 < s.cache.capacity) (value : Int64) :
    ∃ first, s.cell (.bucket (bucketFor value s.cache.capacity)) = some first
      ∧ ((∃ i ∈ nodes, valueOf s i = value ∧ value ∈ keys
          ∧ findFrom value s (s.nodes.size + 1) first = some (some i))
        ∨ value ∉ keys ∧ findFrom value s (s.nodes.size + 1) first = some none) := by
  obtain ⟨chain, htable⟩ := h.table
  obtain ⟨b, hb⟩ : ∃ b, bucketFor value s.cache.capacity = b := ⟨_, rfl⟩
  have hlt : b < s.cache.capacity := hb ▸ Nat.mod_lt _ hc
  have hfind := findFrom_spec (htable.chained b hlt) value
    (Nat.lt_succ_of_le (length_chain_le htable hlt))
  refine ⟨(chain b).head?, by rw [hb]; exact (htable.chained b hlt).read_head, ?_⟩
  rw [hfind]
  cases hx : (chain b).find? fun i => valueOf s i = value with
  | some i =>
    have hi := ((htable.mem_iff b hlt i).mp (List.mem_of_find?_eq_some hx)).1
    have hv : valueOf s i = value := by simpa using List.find?_some hx
    refine Or.inl ⟨i, hi, hv, ?_, rfl⟩
    rw [← h.written, ← hv]
    exact List.mem_map_of_mem hi
  | none =>
    refine Or.inr ⟨fun hmem => ?_, rfl⟩
    obtain ⟨i, hi, hv⟩ := List.mem_map.mp (h.written ▸ hmem)
    have hib : i ∈ chain b := (htable.mem_iff b hlt i).mpr ⟨hi, by rw [bucketOf, hv, hb]⟩
    exact absurd (List.find?_eq_none.mp hx i hib) (by simp [hv])

/-- **A hit**: the node leaves the list and comes back in front. -/
theorem Refines.hit (h : Refines limit s keys) {i : ℕ} (hnodes : Represents s nodes keys)
    (hperm : nodes.Perm (List.range s.used)) (hi : i ∈ nodes) :
    ∃ s₁ s₂, unlinkNode i { s with hits := s.hits + 1 } = some s₁ ∧ prepend i s₁ = some s₂
      ∧ Refines limit s₂ (Lru.access limit keys (valueOf s i)) ∧ s₂.hits = s.hits + 1 := by
  obtain ⟨l, r, rfl⟩ := List.append_of_mem hi
  have hlist : IsList { s with hits := s.hits + 1 } (l ++ i :: r) := hnodes.list
  obtain ⟨s₁, hunlink, hl₁, hs₁⟩ := unlinkNode_spec hlist
  have hmove : (i :: (l ++ r)).Perm (l ++ i :: r) := List.perm_middle.symm
  have hnot := (List.nodup_cons.mp (hmove.nodup_iff.mpr hnodes.nodup_nodes)).1
  have hsize := (frame_eq hs₁.frame).1
  have hused := h.used
  have hlt : i < s.used := List.mem_range.mp (hperm.mem_iff.mp hi)
  obtain ⟨s₂, hpre, hl₂, hs₂⟩ := prepend_spec hl₁ hnot (by
    rw [hsize]
    show i < s.nodes.size
    rw [h.sizes.1]
    omega)
  have hs := hs₁.trans hs₂
  have hvalue : valueOf s₂ = valueOf s := funext hs.value
  obtain ⟨hsize', -, hcap', hused', hhits'⟩ := frame_eq hs.frame
  obtain ⟨chain, htable⟩ := hnodes.table
  have hset : nodeSet (i :: (l ++ r)) = nodeSet (l ++ i :: r) := Set.ext fun j => hmove.mem_iff
  refine ⟨s₁, s₂, hunlink, hpre, ⟨⟨i :: (l ++ r), ⟨hl₂, ⟨chain, hset ▸ ?_⟩, ?_,
    Lru.nodup_access hnodes.nodup _⟩, ?_⟩, ?_, ?_⟩, hhits'⟩
  · have htable' : Table ({ s with hits := s.hits + 1 } : State).cell s.cache.capacity
        (bucketOf { s with hits := s.hits + 1 }) (nodeSet (l ++ i :: r)) chain := htable
    exact hs.table htable'
  · have hn := hnodes.nodup
    rw [← hnodes.written] at hn
    rw [hvalue, ← hnodes.written, Lru.access_map_of_mem hn]
  · rw [hused']
    exact hmove.trans hperm
  · rw [hused']
    exact hused
  · rw [hsize', hcap']
    exact h.sizes

/-- **A node that is free** takes the new value into its chain and to the
front of the list. -/
theorem Represents.insert {s₀ : State} {i : ℕ} (hfree : freeNode s₀ = some (i, s))
    (h : Represents s nodes keys) (hc : 0 < s.cache.capacity) (hi : i ∉ nodes)
    (hlt : i < s.nodes.size) (hv : value ∉ keys) :
    ∃ s₁ s₂, insertValue value (bucketFor value s.cache.capacity) s₀ = some (i, s₁)
      ∧ prepend i s₁ = some s₂ ∧ Represents s₂ (i :: nodes) (value :: keys)
      ∧ frame s₂ = frame s := by
  obtain ⟨chain, htable⟩ := h.table
  obtain ⟨s₁, chain', hchain, htable₁, hsame₁, hvalue₁⟩ := chainNode_spec htable hc hi hlt value
  obtain ⟨s₂, hpre, hl₂, hs₂⟩ := prepend_spec (h.list.sameList hsame₁) hi (by
    rw [(frame_eq hsame₁.frame).1]
    exact hlt)
  have hset : nodeSet (i :: nodes) = Insert.insert i (nodeSet nodes) :=
    Set.ext fun j => List.mem_cons
  refine ⟨s₁, s₂, ?_, hpre, ⟨hl₂, ⟨chain', hset ▸ hs₂.table htable₁⟩, ?_,
    List.nodup_cons.mpr ⟨hv, h.nodup⟩⟩, hs₂.frame.trans hsame₁.frame⟩
  · rw [insertValue, hfree, Option.bind_eq_bind, Option.bind_some]
    show (chainNode value (bucketFor value s.cache.capacity) i s).bind _ = _
    rw [hchain]
    rfl
  · rw [List.map_cons, hs₂.value, hvalue₁, if_pos rfl, ← h.written]
    refine congrArg _ (List.map_congr_left fun j hj => ?_)
    have hji : j ≠ i := fun he => hi (he ▸ hj)
    rw [hs₂.value, hvalue₁, if_neg hji]

/-- **A miss with room left** takes the next node of the array. -/
theorem Refines.insert_of_lt (h : Refines limit s keys) (hv : value ∉ keys)
    (hroom : s.used < limit) :
    ∃ i s₁ s₂, insertValue value (bucketFor value s.cache.capacity) s = some (i, s₁)
      ∧ prepend i s₁ = some s₂ ∧ Refines limit s₂ (Lru.access limit keys value)
      ∧ s₂.hits = s.hits := by
  obtain ⟨nodes, hrep, hperm⟩ := h.nodes
  obtain ⟨hsize, hcap⟩ := h.sizes
  have hnot : s.used ∉ nodes := fun hmem =>
    Nat.lt_irrefl _ (List.mem_range.mp (hperm.mem_iff.mp hmem))
  have hfree : freeNode s = some (s.used, { s with used := s.used + 1 }) :=
    if_pos (by rw [hcap]; exact hroom)
  have hrep' : Represents { s with used := s.used + 1 } nodes keys :=
    ⟨hrep.list, hrep.table, hrep.written, hrep.nodup⟩
  obtain ⟨s₁, s₂, hinsert, hpre, hrep₂, hframe⟩ := hrep'.insert hfree
    (show 0 < s.cache.capacity by rw [hcap]; exact Nat.zero_lt_of_lt hroom) hnot
    (show s.used < s.nodes.size by rw [hsize]; exact hroom) hv
  obtain ⟨hsize₂, -, hcap₂, hused₂, hhits₂⟩ := frame_eq hframe
  rw [Lru.access_of_lt hv (by rw [h.length_keys]; exact hroom)]
  refine ⟨s.used, s₁, s₂, hinsert, hpre, ⟨⟨s.used :: nodes, hrep₂, ?_⟩, ?_, hsize₂.trans hsize,
    hcap₂.trans hcap⟩, hhits₂⟩
  · rw [hused₂]
    show (s.used :: nodes).Perm (List.range (s.used + 1))
    rw [List.range_succ]
    exact (hperm.cons s.used).trans (List.perm_append_singleton _ _).symm
  · rw [hused₂]
    exact hroom

/-- **A miss in a full cache** reuses the tail. -/
theorem Refines.insert_of_full (h : Refines limit s keys) (hv : value ∉ keys) (hc : 0 < limit)
    (hfull : ¬ s.used < limit) :
    ∃ i s₁ s₂, insertValue value (bucketFor value s.cache.capacity) s = some (i, s₁)
      ∧ prepend i s₁ = some s₂ ∧ Refines limit s₂ (Lru.access limit keys value)
      ∧ s₂.hits = s.hits := by
  obtain ⟨nodes, hrep, hperm⟩ := h.nodes
  obtain ⟨hsize, hcap⟩ := h.sizes
  have hused := h.used
  have hlen : nodes.length = s.used := by rw [hperm.length_eq, List.length_range]
  -- the list is full, so there is a last node to reuse
  obtain ⟨l, j, rfl⟩ : ∃ l j, nodes = l ++ [j] := by
    rcases List.eq_nil_or_concat nodes with rfl | ⟨l, j, rfl⟩
    · rw [List.length_nil] at hlen
      omega
    · exact ⟨l, j, List.concat_eq_append⟩
  have hnot : j ∉ l := fun hmem =>
    (List.disjoint_of_nodup_append hrep.nodup_nodes) hmem List.mem_cons_self
  obtain ⟨chain, htable⟩ := hrep.table
  obtain ⟨s₀, chain', hreuse, hl₀, htable₀, hvalue₀, hframe₀⟩ :=
    reuseTail_spec hrep.list hnot htable (by rw [hcap]; exact hc)
  have hfree : freeNode s = some (j, s₀) := by
    rw [freeNode, if_neg (by rw [hcap]; exact hfull), hreuse]
  obtain ⟨hsize₀, -, hcap₀, hused₀, hhits₀⟩ := frame_eq hframe₀
  have hwritten : keys = l.map (valueOf s) ++ [valueOf s j] := by
    rw [← hrep.written, List.map_append]
    rfl
  -- what is left represents all keys but the last
  have hrep₀ : Represents s₀ l (l.map (valueOf s)) := by
    refine ⟨hl₀, ⟨chain', htable₀⟩, List.map_congr_left fun i _ => hvalue₀ i, ?_⟩
    have hnd := hrep.nodup
    rw [hwritten] at hnd
    exact (List.nodup_append.mp hnd).1
  have hjlt : j < s₀.nodes.size := by
    have hjr : j < s.used := List.mem_range.mp (hperm.mem_iff.mp (by simp))
    omega
  obtain ⟨s₁, s₂, hinsert, hpre, hrep₂, hframe⟩ := hrep₀.insert hfree
    (by rw [hcap₀, hcap]; exact hc) hnot hjlt (show value ∉ _ from fun hmem => hv (by
      rw [hwritten]
      exact List.mem_append_left _ hmem))
  obtain ⟨hsize₂, -, hcap₂, hused₂, hhits₂⟩ := frame_eq (hframe.trans hframe₀)
  have haccess : Lru.access limit keys value = value :: l.map (valueOf s) := by
    have hlength := h.length_keys
    rw [hwritten] at hv hlength ⊢
    exact Lru.access_of_full hv (by omega)
  rw [haccess]
  rw [hcap₀] at hinsert
  refine ⟨j, s₁, s₂, hinsert, hpre, ⟨⟨j :: l, hrep₂, ?_⟩, ?_, hsize₂.trans hsize,
    hcap₂.trans hcap⟩, hhits₂⟩
  · rw [hused₂]
    exact (List.perm_append_singleton j l).symm.trans hperm
  · rw [hused₂]
    exact hused

/-- **Every pass of the request loop does what the reference does**, and
counts its hits. -/
theorem request_spec (h : Refines limit s keys) (value : Int64) :
    ∃ s', request value s = some s' ∧ Refines limit s' (Lru.access limit keys value)
      ∧ s'.hits = s.hits + if value ∈ keys then 1 else 0 := by
  have hcap := h.sizes.2
  by_cases hc : limit = 0
  · subst hc
    obtain rfl : keys = [] :=
      List.eq_nil_of_length_eq_zero (h.length_keys.trans (Nat.le_zero.mp h.used))
    refine ⟨s, if_pos hcap, h, ?_⟩
    rw [if_neg List.not_mem_nil, Int64.add_zero]
  have hpos := Nat.pos_of_ne_zero hc
  obtain ⟨nodes, hrep, hperm⟩ := h.nodes
  obtain ⟨first, hfirst, hfind⟩ := hrep.find (by rwa [hcap]) value
  rw [request, if_neg (by rwa [hcap])]
  dsimp only
  rw [hfirst, Option.bind_eq_bind, Option.bind_some]
  rcases hfind with ⟨i, hi, rfl, hv, hfind⟩ | ⟨hv, hfind⟩
  · obtain ⟨s₁, s₂, hunlink, hpre, hrefines, hhits⟩ := h.hit hrep hperm hi
    refine ⟨s₂, ?_, hrefines, by rw [hhits, if_pos hv]⟩
    rw [hfind, Option.bind_eq_bind, Option.bind_some, Option.elim_some]
    simp only [hunlink, Option.bind_eq_bind, Option.bind_some]
    exact hpre
  · obtain ⟨i, s₁, s₂, hinsert, hpre, hrefines, hhits⟩ :
        ∃ i s₁ s₂, insertValue value (bucketFor value s.cache.capacity) s = some (i, s₁)
          ∧ prepend i s₁ = some s₂ ∧ Refines limit s₂ (Lru.access limit keys value)
          ∧ s₂.hits = s.hits := by
      by_cases hroom : s.used < limit
      · exact h.insert_of_lt hv hroom
      · exact h.insert_of_full hv hpos hroom
    refine ⟨s₂, ?_, hrefines, by rw [hhits, if_neg hv, Int64.add_zero]⟩
    rw [hfind, Option.bind_eq_bind, Option.bind_some, Option.elim_none, hinsert, Option.bind_some]
    exact hpre

end Request

/-! ## The request loop -/

/-- The loop starts with an empty cache. -/
theorem start_refines (limit : ℕ) : Refines limit (start limit) [] := by
  refine ⟨⟨[], ⟨⟨by simp, .cons_cons ⟨rfl, rfl⟩ (.singleton _)⟩, ⟨fun _ => [], ?_⟩, rfl,
    List.nodup_nil⟩, .nil⟩, Nat.zero_le limit, Array.size_replicate, rfl⟩
  have hset : nodeSet [] = ∅ := Set.ext fun i => by simp
  rw [hset]
  refine Table.empty (fun b hb => ?_) _
  show (Array.replicate limit (none : Option ℕ))[b]? = some none
  rw [Array.getElem?_replicate, if_pos (show b < limit from hb)]

/-- How many of the answers are hits. -/
def hitCount (hits : List Bool) : ℕ := hits.countP id

/-- **Every run of the loop does what the reference does**, and its counter
is the number of hits. -/
theorem requests_spec {limit : ℕ} (values : List Int64) {s : State} {keys : List Int64} {n : ℕ}
    (h : Refines limit s keys) (hn : s.hits.toInt = n) (hlim : n + values.length < 2 ^ 63) :
    ∃ s', requests values s = some s' ∧ Refines limit s' (Lru.accesses limit keys values).2
      ∧ s'.hits.toInt = ((n + hitCount (Lru.accesses limit keys values).1 : ℕ) : ℤ) := by
  induction values generalizing s keys n with
  | nil => exact ⟨s, rfl, h, hn⟩
  | cons value values ih =>
    obtain ⟨s₁, hrequest, h₁, hhits⟩ := request_spec h value
    rw [List.length_cons] at hlim
    have hone : (decide (value ∈ keys)).toNat ≤ 1 := Bool.toNat_le _
    have hn₁ : s₁.hits.toInt = ((n + (decide (value ∈ keys)).toNat : ℕ) : ℤ) := by
      rw [hhits, Int64.toInt_add, hn]
      by_cases hv : value ∈ keys
      · rw [if_pos hv, decide_eq_true hv]
        exact Int.bmod_eq_of_le (by rw [Int64.toInt_one]; omega) (by rw [Int64.toInt_one]; omega)
      · rw [if_neg hv, decide_eq_false hv]
        exact Int.bmod_eq_of_le (by rw [Int64.toInt_zero]; omega) (by rw [Int64.toInt_zero]; omega)
    obtain ⟨s₂, hrequests, h₂, hhits₂⟩ := ih h₁ hn₁ (by omega)
    refine ⟨s₂, ?_, h₂, ?_⟩
    · rw [requests, hrequest]
      exact hrequests
    · rw [hhits₂, Lru.accesses, hitCount, hitCount, List.countP_cons, Nat.add_assoc,
        Nat.add_comm (decide (value ∈ keys)).toNat]
      cases decide (value ∈ keys) <;> rfl

/-- The loop of `main`, where every request can be read. -/
theorem requestLoop_of_length {left i : ℕ} {values rest : List Int64} {s s' : State}
    (hlen : values.length = left) (h : requests values s = some s') :
    requestLoop left i (values ++ rest) s = some ⟨toString s'.hits.toInt ++ "\n", "", true⟩ := by
  induction left generalizing i values s with
  | zero =>
    rw [List.eq_nil_of_length_eq_zero hlen] at h
    obtain rfl := Option.some.inj h
    rw [requestLoop]
  | succ left ih =>
    obtain ⟨value, values, rfl⟩ := List.exists_cons_of_length_eq_add_one hlen
    obtain ⟨s₁, hrequest, hrequests⟩ := Option.bind_eq_some_iff.mp h
    rw [List.cons_append, requestLoop, hrequest]
    exact ih (Nat.succ.inj hlen) hrequests

/-- **What is promised between two requests**: the list from head to tail,
the same list backwards, and the chains together have exactly the nodes in
use, each once, in the recency order of `keys`; and a node is in the chain
of the bucket of its value. -/
def Consistent (s : State) (keys : List Int64) : Prop :=
  ∃ nodes chain, IsList s nodes ∧ nodes.map (valueOf s) = keys ∧ nodes.Nodup
    ∧ (∀ i, i ∈ nodes ↔ i < s.used)
    ∧ Table s.cell s.cache.capacity (bucketOf s) (nodeSet nodes) chain

/-- That is what the invariant says. -/
theorem Refines.consistent {limit : ℕ} {s : State} {keys : List Int64} (h : Refines limit s keys) :
    Consistent s keys := by
  obtain ⟨nodes, hrep, hperm⟩ := h.nodes
  obtain ⟨chain, htable⟩ := hrep.table
  exact ⟨nodes, chain, hrep.list, hrep.written, hrep.nodup_nodes,
    fun i => hperm.mem_iff.trans List.mem_range, htable⟩

/-- **lru-in-c-naive computes LRU hits safely.** For every requested
capacity and every sequence of as many requests as were announced: no pass
of the loop has an undefined step – the walk to a node finds it, and there
is a tail to reuse – the counter is the number of hits of the textbook list
of the requested capacity, list and chains are consistent after every pass,
and, if the cache is not too large and can be allocated, `main` prints the
counter. -/
theorem requests_hits {requestedCapacity count : Int64} (hcap : 0 ≤ requestedCapacity)
    (hcount : 0 ≤ count) {values : List Int64} (hlen : values.length = count.toInt.toNat) :
    (∀ done left, done ++ left = values →
      ∃ s, requests done (start (limit requestedCapacity count)) = some s
        ∧ s.hits.toInt = hitCount (Lru.accesses requestedCapacity.toInt.toNat [] done).1
        ∧ Consistent s (Lru.accesses requestedCapacity.toInt.toNat [] done).2
        ∧ s.used ≤ limit requestedCapacity count)
    ∧ ∀ rest, limit requestedCapacity count ≤ LruInC.sizeMax / sizeofNode →
      main true (requestedCapacity :: count :: (values ++ rest))
        = some ⟨toString (hitCount (Lru.accesses requestedCapacity.toInt.toNat [] values).1) ++ "\n",
            "", true⟩ := by
  have hlimit : limit requestedCapacity count
      = min requestedCapacity.toInt.toNat count.toInt.toNat := LruInC.toNat_limit hcap hcount
  have hlt := count.toInt_lt
  have hrun : ∀ done left, done ++ left = values →
      ∃ s, requests done (start (limit requestedCapacity count)) = some s
        ∧ Refines (limit requestedCapacity count) s
          (Lru.accesses requestedCapacity.toInt.toNat [] done).2
        ∧ s.hits.toInt = hitCount (Lru.accesses requestedCapacity.toInt.toNat [] done).1 := by
    intro done left hsplit
    have hdone : done.length ≤ count.toInt.toNat := by
      rw [← hlen, ← hsplit, List.length_append]
      exact Nat.le_add_right _ _
    -- the cache is no larger than the count, which no prefix exceeds
    obtain ⟨s, hrequests, hrefines, hhits⟩ := requests_spec done
      (start_refines (limit requestedCapacity count)) (n := 0) rfl (by omega)
    rw [Nat.zero_add, hlimit, Lru.accesses_min hdone] at hhits
    rw [hlimit, Lru.accesses_min hdone, ← hlimit] at hrefines
    exact ⟨s, hrequests, hrefines, hhits⟩
  refine ⟨fun done left hsplit => ?_, fun rest hfits => ?_⟩
  · obtain ⟨s, hrequests, hrefines, hhits⟩ := hrun done left hsplit
    exact ⟨s, hrequests, hhits, hrefines.consistent, hrefines.used⟩
  · obtain ⟨s, hrequests, -, hhits⟩ := hrun values [] (List.append_nil values)
    have hneg : ¬ (requestedCapacity < 0 ∨ count < 0) := by
      rw [not_or, Int64.not_lt, Int64.not_lt]
      exact ⟨hcap, hcount⟩
    have hlarge : ¬ (LruInC.sizeMax / sizeofNode < limit requestedCapacity count
        ∨ LruInC.sizeMax / LruInC.sizeofPointer < limit requestedCapacity count) := by
      rw [not_or, Nat.not_lt, Nat.not_lt]
      exact ⟨hfits, Nat.le_trans hfits (by decide)⟩
    rw [main, if_neg hneg, if_neg hlarge, if_neg (by simp), requestLoop_of_length hlen hrequests,
      hhits]
    rfl

/-- The stream 1, 2, 1, 3, 1, 2 in two slots has two hits. -/
theorem requests_hits_two :
    main true [2, 6, 1, 2, 1, 3, 1, 2] = some ⟨"2\n", "", true⟩ :=
  (requests_hits (show (0 : Int64) ≤ 2 by decide) (show (0 : Int64) ≤ 6 by decide)
    (show [1, 2, 1, 3, 1, 2].length = (6 : Int64).toInt.toNat from rfl)).2 [] (by decide)

end LruNaive
