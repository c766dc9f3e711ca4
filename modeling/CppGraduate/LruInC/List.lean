import CppGraduate.Lib.Circular
import CppGraduate.Lib.Heap

/-!
# The recency list of lru-in-c

`list.c` keeps its nodes in a circular doubly linked list through a
sentinel embedded in the `List` object. The nodes live in a heap here, the
sentinel among them, so the address of the `List` object is the address of
its sentinel. A pointer field is optional: it holds nothing until it is
first written, and following such a pointer has no result.

`IsList` reads the list off the heap: following `next` from the sentinel
visits the given addresses in order and returns, following `prev` visits
them backwards. Each operation is stated by the addresses it leaves, by
the payload pointers, which it keeps, and by the blocks it does not touch.
-/

namespace LruInC

/-- The address of a block. -/
abbrev Addr := ℕ

/-- `struct ListNode`: the payload is a pointer, which may be `NULL`. -/
structure ListNode where
  prev : Option Addr
  next : Option Addr
  value : Option Addr

/-- A `ListNode` block as `malloc` returns it: nothing written yet. -/
def ListNode.uninit : ListNode := ⟨none, none, none⟩

/-- `list_create`: the sentinel points at itself. `ok` is whether the
allocation succeeds. -/
def listCreate (ok : Bool) (h : Heap ListNode) : Option Addr × Heap ListNode :=
  if ok then
    let (list, h) := h.alloc .uninit
    (some list, h.mapAt list fun _ => ⟨some list, some list, none⟩)
  else (none, h)

/-- `list_empty`. -/
def listEmpty (list : Addr) (h : Heap ListNode) : Option Bool := do
  let head ← h.read list
  return head.next == some list

/-- `list_front`: `NULL` on the empty list. -/
def listFront (list : Addr) (h : Heap ListNode) : Option (Option Addr) := do
  if ← listEmpty list h then return none
  let head ← h.read list
  return head.next

/-- `list_back`: `NULL` on the empty list. -/
def listBack (list : Addr) (h : Heap ListNode) : Option (Option Addr) := do
  if ← listEmpty list h then return none
  let head ← h.read list
  return head.prev

/-- `list_value`. -/
def listValue (node : Addr) (h : Heap ListNode) : Option (Option Addr) := do
  let node ← h.read node
  return node.value

/-- `prepend`: the four pointer writes, in the order of the source. -/
def prepend (list node : Addr) (h : Heap ListNode) : Option (Heap ListNode) := do
  let h ← h.modify node fun x => { x with prev := some list }
  let head ← h.read list
  let h ← h.modify node fun x => { x with next := head.next }
  let next ← (← h.read node).next
  let h ← h.modify next fun x => { x with prev := some node }
  h.modify list fun x => { x with next := some node }

/-- `detach`: the neighbours point past the node. -/
def detach (node : Addr) (h : Heap ListNode) : Option (Heap ListNode) := do
  let x ← h.read node
  let h ← h.modify (← x.prev) fun y => { y with next := x.next }
  let x ← h.read node
  h.modify (← x.next) fun y => { y with prev := x.prev }

/-- `list_push_front`: `NULL`, and nothing touched, when the allocation
fails. -/
def listPushFront (ok : Bool) (list : Addr) (value : Option Addr)
    (h : Heap ListNode) : Option (Option Addr × Heap ListNode) := do
  if !ok then return (none, h)
  let (node, h) := h.alloc .uninit
  let h ← h.modify node fun x => { x with value := value }
  let h ← prepend list node h
  return (some node, h)

/-- `list_move_front`. -/
def listMoveFront (list node : Addr) (h : Heap ListNode) : Option (Heap ListNode) := do
  let h ← detach node h
  prepend list node h

/-- `list_remove`. -/
def listRemove (node : Addr) (h : Heap ListNode) : Option (Heap ListNode) := do
  let h ← detach node h
  h.free node

/-- The loop of `list_destroy`, with a bound on its passes. -/
def removeAll (list : Addr) : ℕ → Heap ListNode → Option (Heap ListNode)
  | 0, _ => none
  | passes + 1, h => do
    if ← listEmpty list h then return h
    let node ← ← listFront list h
    removeAll list passes (← listRemove node h)

/-- `list_destroy`: every pass of its loop frees a node, so it makes no
more than there ever were. -/
def listDestroy (list : Addr) (h : Heap ListNode) : Option (Heap ListNode) := do
  let h ← removeAll list (h.bound + 1) h
  h.free list

/-! ## Reading the pointers -/

/-- The `next` pointer of the node at an address. -/
def nextOf (h : Heap ListNode) (a : Addr) : Option Addr := (h.read a).bind ListNode.next

/-- The `prev` pointer of the node at an address. -/
def prevOf (h : Heap ListNode) (a : Addr) : Option Addr := (h.read a).bind ListNode.prev

/-- The payload pointer of the node at an address. -/
def valueOf (h : Heap ListNode) (a : Addr) : Option (Option Addr) :=
  (h.read a).map ListNode.value

/-- **The heap holds the list `nodes` at `list`**: a ring through the
sentinel. -/
abbrev IsList (h : Heap ListNode) (list : Addr) (nodes : List Addr) : Prop :=
  Circular.IsRing (nextOf h) (prevOf h) list nodes

/-- A node of the list is in the heap, and so is the sentinel. -/
theorem IsList.isSome_read {h : Heap ListNode} {list a : Addr} {nodes : List Addr}
    (hl : IsList h list nodes) (ha : a ∈ list :: nodes) : (h.read a).isSome := by
  have hs := hl.next_isSome ha
  rw [nextOf] at hs
  cases hr : h.read a with
  | none => rw [hr] at hs; exact absurd hs (by simp)
  | some x => rfl

/-- A pointer that reads something is read off a block. -/
theorem read_of_nextOf {h : Heap ListNode} {a p : Addr} (hn : nextOf h a = some p) :
    ∃ x, h.read a = some x ∧ x.next = some p :=
  Option.bind_eq_some_iff.mp hn

/-- The three fields of a block determine it. -/
theorem read_ext {h h' : Heap ListNode} {a : Addr} (hn : nextOf h' a = nextOf h a)
    (hp : prevOf h' a = prevOf h a) (hv : valueOf h' a = valueOf h a) :
    h'.read a = h.read a := by
  unfold nextOf prevOf valueOf at *
  cases hr : h.read a with
  | none => rw [hr] at hv; simpa using hv
  | some x =>
    rw [hr] at hn hp hv
    cases hr' : h'.read a with
    | none => rw [hr'] at hv; exact absurd hv (by simp)
    | some y =>
      rw [hr'] at hn hp hv
      obtain ⟨_, _, _⟩ := x
      obtain ⟨_, _, _⟩ := y
      simp_all

/-! ## What a pointer write reads back -/

section Writes

variable (h : Heap ListNode) (a b : Addr) (p : Option Addr)

/-- Write the `next` pointer of a node. -/
abbrev setNext : Heap ListNode := h.mapAt a fun x => { x with next := p }

/-- Write the `prev` pointer of a node. -/
abbrev setPrev : Heap ListNode := h.mapAt a fun x => { x with prev := p }

theorem nextOf_setNext :
    nextOf (setNext h a p) b
      = if b = a ∧ (h.read a).isSome then p else nextOf h b := by
  unfold nextOf
  rw [Heap.read_mapAt]
  by_cases hb : b = a
  · subst hb
    cases h.read b <;> simp
  · simp [hb]

theorem prevOf_setPrev :
    prevOf (setPrev h a p) b
      = if b = a ∧ (h.read a).isSome then p else prevOf h b := by
  unfold prevOf
  rw [Heap.read_mapAt]
  by_cases hb : b = a
  · subst hb
    cases h.read b <;> simp
  · simp [hb]

@[simp] theorem prevOf_setNext : prevOf (setNext h a p) b = prevOf h b := by
  unfold prevOf
  rw [Heap.read_mapAt]
  split <;> cases h.read b <;> rfl

@[simp] theorem nextOf_setPrev : nextOf (setPrev h a p) b = nextOf h b := by
  unfold nextOf
  rw [Heap.read_mapAt]
  split <;> cases h.read b <;> rfl

@[simp] theorem valueOf_setNext : valueOf (setNext h a p) b = valueOf h b := by
  unfold valueOf
  rw [Heap.read_mapAt]
  split <;> cases h.read b <;> rfl

@[simp] theorem valueOf_setPrev : valueOf (setPrev h a p) b = valueOf h b := by
  unfold valueOf
  rw [Heap.read_mapAt]
  split <;> cases h.read b <;> rfl

end Writes

/-! ## The two pointer surgeries -/

/-- **What `prepend` does**: the node points at the sentinel and the old
first node, both point at it, and nothing else changes. -/
theorem prepend_spec {h : Heap ListNode} {list n : Addr} {nodes : List Addr}
    (hl : IsList h list nodes) (hn : n ∉ list :: nodes) (hr : (h.read n).isSome) :
    ∃ h', prepend list n h = some h'
      ∧ (∀ a, nextOf h' a = if a = list then some n
          else if a = n then some (nodes.headD list) else nextOf h a)
      ∧ (∀ a, prevOf h' a = if a = nodes.headD list then some n
          else if a = n then some list else prevOf h a)
      ∧ ∀ a, valueOf h' a = valueOf h a := by
  set first := nodes.headD list with hfirst
  have hmem : first ∈ list :: nodes := by
    cases nodes <;> simp [hfirst]
  have hne : n ≠ list := fun he => hn (he ▸ List.mem_cons_self)
  have hnf : n ≠ first := fun he => hn (he ▸ hmem)
  obtain ⟨y, hy, hyn⟩ := read_of_nextOf hl.next_head
  obtain ⟨x, hx⟩ := Option.isSome_iff_exists.mp hr
  have hsl := hl.isSome_read List.mem_cons_self
  have hsf := hl.isSome_read hmem
  refine ⟨setNext (setPrev (setNext (setPrev h n (some list)) n (some first)) first
    (some n)) list (some n), ?_, fun a => ?_, fun a => ?_, fun a => by simp⟩
  · have hy' : (setPrev h n (some list)).read list = some y := by
      rw [Heap.read_mapAt, if_neg hne.symm, hy]
    have hx' : (setNext (setPrev h n (some list)) n (some first)).read n
        = some ⟨some list, some first, x.value⟩ := by
      rw [Heap.read_mapAt, if_pos rfl, Heap.read_mapAt, if_pos rfl, hx]
      rfl
    rw [← hfirst] at hyn
    simp only [prepend, Heap.modify_of_isSome, Heap.isSome_read_mapAt, hr, hsf, hy',
      hyn, hx', Option.isSome_some, Option.bind_eq_bind, Option.bind_some]
  · rw [nextOf_setNext, nextOf_setPrev, nextOf_setNext, nextOf_setPrev]
    simp only [Heap.isSome_read_mapAt, hsl, hr, and_true]
  · rw [prevOf_setNext, prevOf_setPrev, prevOf_setNext, prevOf_setPrev]
    simp only [Heap.isSome_read_mapAt, hsf, hr, and_true]

/-- **What `detach` does**: the neighbours point at each other, and nothing
else changes – the pointers of the node itself included. -/
theorem detach_spec {h : Heap ListNode} {list n : Addr} {l r : List Addr}
    (hl : IsList h list (l ++ n :: r)) :
    ∃ h', detach n h = some h'
      ∧ (∀ a, nextOf h' a = if a = l.getLastD list then some (r.headD list)
          else nextOf h a)
      ∧ (∀ a, prevOf h' a = if a = r.headD list then some (l.getLastD list)
          else prevOf h a)
      ∧ ∀ a, valueOf h' a = valueOf h a := by
  set pred := l.getLastD list with hpred
  set succ := r.headD list with hsucc
  have hpm : pred ∈ list :: l := by
    rw [← Circular.dropLast_append_getLastD]
    simp [hpred]
  have hne : n ≠ pred := fun he =>
    (List.disjoint_of_nodup_append (show ((list :: l) ++ n :: r).Nodup from hl.nodup))
      (he ▸ hpm) List.mem_cons_self
  obtain ⟨x, hx, hxn⟩ := read_of_nextOf hl.next_mem
  have hxp : x.prev = some pred := by
    have := hl.prev_mem
    rwa [prevOf, hx, Option.bind_some] at this
  have hsp := hl.isSome_read (a := pred) (by
    rcases List.mem_cons.mp hpm with h | h <;> simp [h])
  have hss := hl.isSome_read (a := succ) (by
    cases r <;> simp [hsucc])
  refine ⟨setPrev (setNext h pred (some succ)) succ (some pred), ?_, fun a => ?_,
    fun a => ?_, fun a => by simp⟩
  · have hx' : (setNext h pred (some succ)).read n = some x := by
      rw [Heap.read_mapAt, if_neg hne, hx]
    rw [← hsucc] at hxn
    simp only [detach, hx, hxn, hxp, Heap.modify_of_isSome, hsp, hx',
      Heap.isSome_read_mapAt, hss, Option.bind_eq_bind, Option.bind_some]
  · rw [nextOf_setPrev, nextOf_setNext]
    simp only [hsp, and_true]
  · rw [prevOf_setPrev, prevOf_setNext]
    simp only [Heap.isSome_read_mapAt, hss, and_true]

/-! ## The operations on a list in the heap -/

/-- `list_create` makes the empty list, in a block of its own. -/
theorem listCreate_spec (h : Heap ListNode) :
    ∃ h', listCreate true h = (some h.bound, h') ∧ IsList h' h.bound [] := by
  have hr : ((h.alloc .uninit).2.mapAt h.bound fun _ =>
      ⟨some h.bound, some h.bound, none⟩).read h.bound
        = some ⟨some h.bound, some h.bound, none⟩ := by
    rw [Heap.read_mapAt, if_pos rfl, Heap.read_alloc, if_pos rfl]
    rfl
  refine ⟨_, rfl, ⟨by simp, .cons_cons ⟨?_, ?_⟩ (.singleton _)⟩⟩
  · exact Option.bind_eq_some_iff.mpr ⟨_, hr, rfl⟩
  · exact Option.bind_eq_some_iff.mpr ⟨_, hr, rfl⟩

/-- `list_empty` compares the sentinel's `next` with the sentinel. -/
theorem listEmpty_spec {h : Heap ListNode} {list : Addr} {nodes : List Addr}
    (hl : IsList h list nodes) : listEmpty list h = some nodes.isEmpty := by
  obtain ⟨y, hy, hyn⟩ := read_of_nextOf hl.next_head
  simp only [listEmpty, hy, hyn, Option.bind_eq_bind, Option.bind_some]
  cases nodes with
  | nil => simp
  | cons n nodes =>
    have hne : n ≠ list := by
      rintro rfl
      exact (List.nodup_cons.mp hl.nodup).1 List.mem_cons_self
    show some (some n == some list) = some false
    simp [hne]

/-- `list_front` returns the first node. -/
theorem listFront_spec {h : Heap ListNode} {list : Addr} {nodes : List Addr}
    (hl : IsList h list nodes) : listFront list h = some nodes.head? := by
  obtain ⟨y, hy, hyn⟩ := read_of_nextOf hl.next_head
  simp only [listFront, listEmpty_spec hl, hy, hyn, Option.bind_eq_bind, Option.bind_some]
  cases nodes <;> simp

/-- `list_back` returns the last node. -/
theorem listBack_spec {h : Heap ListNode} {list : Addr} {nodes : List Addr}
    (hl : IsList h list nodes) : listBack list h = some nodes.getLast? := by
  obtain ⟨y, hy, -⟩ := read_of_nextOf hl.next_head
  have hyp : y.prev = some (nodes.getLastD list) := by
    have := hl.prev_head
    rwa [prevOf, hy, Option.bind_some] at this
  simp only [listBack, listEmpty_spec hl, hy, hyp, Option.bind_eq_bind, Option.bind_some]
  cases nodes with
  | nil => simp
  | cons n nodes =>
    rw [List.getLastD_eq_getLast?]
    simp [List.getLast?_cons]

/-- `prepend` puts a node first. -/
theorem prepend_isList {h : Heap ListNode} {list n : Addr} {nodes : List Addr}
    (hl : IsList h list nodes) (hn : n ∉ list :: nodes) (hr : (h.read n).isSome) :
    ∃ h', prepend list n h = some h' ∧ IsList h' list (n :: nodes)
      ∧ ∀ a, valueOf h' a = valueOf h a := by
  obtain ⟨h', he, hnext, hprev, hval⟩ := prepend_spec hl hn hr
  exact ⟨h', he, hl.prepend hn hnext hprev, hval⟩

/-- `detach` takes a node out of the list and leaves its block alone. -/
theorem detach_isList {h : Heap ListNode} {list n : Addr} {l r : List Addr}
    (hl : IsList h list (l ++ n :: r)) :
    ∃ h', detach n h = some h' ∧ IsList h' list (l ++ r)
      ∧ ∀ a, valueOf h' a = valueOf h a := by
  obtain ⟨h', he, hnext, hprev, hval⟩ := detach_spec hl
  exact ⟨h', he, hl.detach hnext hprev, hval⟩

/-- A block is there when its payload pointer can be read. -/
theorem isSome_read_iff {h : Heap ListNode} {a : Addr} :
    (h.read a).isSome ↔ (valueOf h a).isSome := by
  rw [valueOf, Option.isSome_map]

/-- **`list_move_front`** moves a node of the list first. -/
theorem listMoveFront_spec {h : Heap ListNode} {list n : Addr} {l r : List Addr}
    (hl : IsList h list (l ++ n :: r)) :
    ∃ h', listMoveFront list n h = some h' ∧ IsList h' list (n :: (l ++ r))
      ∧ ∀ a, valueOf h' a = valueOf h a := by
  obtain ⟨h₁, he₁, hl₁, hv₁⟩ := detach_isList hl
  have hn := hl.neighbours.2.2
  have hr : (h₁.read n).isSome := by
    rw [isSome_read_iff, hv₁, ← isSome_read_iff]
    exact hl.isSome_read (by simp)
  obtain ⟨h₂, he₂, hl₂, hv₂⟩ := prepend_isList hl₁ hn hr
  refine ⟨h₂, ?_, hl₂, fun a => (hv₂ a).trans (hv₁ a)⟩
  simp only [listMoveFront, he₁, Option.bind_eq_bind, Option.bind_some, he₂]

/-- **`list_remove`** takes a node out and frees it. -/
theorem listRemove_spec {h : Heap ListNode} {list n : Addr} {l r : List Addr}
    (hl : IsList h list (l ++ n :: r)) :
    ∃ h', listRemove n h = some h' ∧ IsList h' list (l ++ r)
      ∧ ∀ a, valueOf h' a = if a = n then none else valueOf h a := by
  obtain ⟨h₁, he₁, hl₁, hv₁⟩ := detach_isList hl
  have hn := hl.neighbours.2.2
  have hr : (h₁.read n).isSome := by
    rw [isSome_read_iff, hv₁, ← isSome_read_iff]
    exact hl.isSome_read (by simp)
  refine ⟨h₁.erase n, ?_, ?_, fun a => ?_⟩
  · simp only [listRemove, he₁, Option.bind_eq_bind, Option.bind_some, Heap.free_of_isSome hr]
  · refine ⟨hl₁.nodup, Circular.isChain_congr hl₁.linked (fun a ha => ?_) (fun a ha => ?_)⟩
    · rw [nextOf, Heap.read_erase, if_neg, nextOf]
      rintro rfl
      have := List.dropLast_subset _ ha
      simp only [List.mem_cons, List.mem_append, List.not_mem_nil, or_false] at this hn
      tauto
    · rw [prevOf, Heap.read_erase, if_neg, prevOf]
      rintro rfl
      simp only [List.tail_cons, List.mem_cons, List.mem_append, List.not_mem_nil,
        or_false] at ha hn
      tauto
  · rw [valueOf, Heap.read_erase, ← hv₁]
    split <;> rfl

/-! ## `list_push_front`, and taking it back -/

/-- The heap with the block of the new node in it, its payload written. -/
def pushed (h : Heap ListNode) (value : Option Addr) : Heap ListNode :=
  (h.alloc .uninit).2.mapAt h.bound fun x => { x with value := value }

theorem read_pushed (h : Heap ListNode) (value : Option Addr) (a : Addr) :
    (pushed h value).read a = if a = h.bound then some ⟨none, none, value⟩ else h.read a := by
  rw [pushed, Heap.read_mapAt, Heap.read_alloc]
  split <;> rfl

/-- The list is still there once the new block is. -/
theorem pushed_isList {h : Heap ListNode} {list : Addr} {nodes : List Addr}
    (hl : IsList h list nodes) (value : Option Addr) :
    h.bound ∉ list :: nodes ∧ IsList (pushed h value) list nodes := by
  have hb : h.bound ∉ list :: nodes := fun hb => by
    have := hl.isSome_read hb
    rw [Heap.read_bound] at this
    exact absurd this (by simp)
  have hmem : ∀ a ∈ list :: (nodes ++ [list]), a ≠ h.bound := fun a ha he => by
    subst he
    simp only [List.mem_cons, List.mem_append, List.not_mem_nil, or_false] at ha hb
    tauto
  refine ⟨hb, hl.nodup, Circular.isChain_congr hl.linked (fun a ha => ?_) (fun a ha => ?_)⟩
  · rw [nextOf, read_pushed, if_neg (hmem a (List.dropLast_subset _ ha)), nextOf]
  · rw [prevOf, read_pushed, if_neg (hmem a (List.mem_of_mem_tail ha)), prevOf]

/-- `list_push_front` runs as `prepend` on the heap with the new block. -/
theorem listPushFront_eq (h : Heap ListNode) (list : Addr) (value : Option Addr) :
    listPushFront true list value h
      = (prepend list h.bound (pushed h value)).map (fun h' => (some h.bound, h')) := by
  have hr : ((h.alloc .uninit).2.read h.bound).isSome := by
    rw [Heap.read_alloc, if_pos rfl, Option.isSome_some]
  simp only [listPushFront, Bool.not_true, Bool.false_eq_true, if_false, Heap.alloc_fst,
    Heap.modify_of_isSome hr, Option.bind_eq_bind, Option.bind_some]
  rw [show ((h.alloc ListNode.uninit).2.mapAt h.bound fun x => { x with value := value })
    = pushed h value from rfl]
  cases prepend list h.bound (pushed h value) <;> rfl

/-- **`list_push_front`** makes a node in a block of its own and puts it
first. -/
theorem listPushFront_spec {h : Heap ListNode} {list : Addr} {nodes : List Addr}
    (hl : IsList h list nodes) (value : Option Addr) :
    ∃ h', listPushFront true list value h = some (some h.bound, h')
      ∧ IsList h' list (h.bound :: nodes)
      ∧ ∀ a, valueOf h' a = if a = h.bound then some value else valueOf h a := by
  obtain ⟨hb, hl₁⟩ := pushed_isList hl value
  have hr : ((pushed h value).read h.bound).isSome := by
    rw [read_pushed, if_pos rfl, Option.isSome_some]
  obtain ⟨h', he, hl', hv⟩ := prepend_isList hl₁ hb hr
  refine ⟨h', by rw [listPushFront_eq, he, Option.map_some], hl', fun a => ?_⟩
  rw [hv, valueOf, read_pushed]
  split <;> rfl

/-- A failed allocation touches nothing. -/
theorem listPushFront_fail (h : Heap ListNode) (list : Addr) (value : Option Addr) :
    listPushFront false list value h = some (none, h) := rfl

/-- **Taking a pushed node back leaves every block as it was**, the
sentinel and the old first node with the pointers they had. -/
theorem listRemove_listPushFront {h h' : Heap ListNode} {list : Addr}
    {nodes : List Addr} (hl : IsList h list nodes) {value : Option Addr}
    (he : listPushFront true list value h = some (some h.bound, h')) :
    ∃ h'', listRemove h.bound h' = some h'' ∧ h''.cells = h.cells := by
  obtain ⟨hb, hl₁⟩ := pushed_isList hl value
  have hr : ((pushed h value).read h.bound).isSome := by
    rw [read_pushed, if_pos rfl, Option.isSome_some]
  obtain ⟨h₂, he₂, hnext, hprev, hval⟩ := prepend_spec hl₁ hb hr
  obtain ⟨h₃, he₃, hl₃, -⟩ := prepend_isList hl₁ hb hr
  rw [listPushFront_eq, he₂, Option.map_some] at he
  obtain rfl : h₂ = h' := by simpa using he
  obtain rfl : h₂ = h₃ := by simpa [he₂] using he₃
  obtain ⟨h₄, he₄, hnext₄, hprev₄, hval₄⟩ := detach_spec (l := []) hl₃
  have hr₄ : (h₄.read h.bound).isSome := by
    rw [isSome_read_iff, hval₄, hval, ← isSome_read_iff]
    exact hr
  refine ⟨h₄.erase h.bound, ?_, ?_⟩
  · simp only [listRemove, he₄, Option.bind_eq_bind, Option.bind_some,
      Heap.free_of_isSome hr₄]
  funext a
  show (h₄.erase h.bound).read a = h.read a
  rw [Heap.read_erase]
  by_cases ha : a = h.bound
  · rw [if_pos ha, ha, Heap.read_bound]
  rw [if_neg ha]
  have hp : (pushed h value).read a = h.read a := by rw [read_pushed, if_neg ha]
  refine read_ext ?_ ?_ ?_
  · rw [hnext₄, hnext, if_neg ha, List.getLastD_nil]
    by_cases hal : a = list
    · rw [if_pos hal, hal, hl.next_head]
    · rw [if_neg hal, if_neg hal, nextOf, hp, nextOf]
  · rw [hprev₄, hprev, if_neg ha, List.getLastD_nil]
    by_cases haf : a = nodes.headD list
    · rw [if_pos haf, haf, hl.prev_first]
    · rw [if_neg haf, if_neg haf, prevOf, hp, prevOf]
  · rw [hval₄, hval, valueOf, hp, valueOf]

end LruInC
