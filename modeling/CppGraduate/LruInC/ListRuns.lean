import CppGraduate.LruInC.List
import Mathlib.Data.List.Perm.Subperm

/-!
# Runs of the recency list

Any sequence of `list_push_front`, `list_move_front` and `list_remove` on
nodes that belong to the list, from `list_create` on, in a heap that holds
whatever else. The sequence the list stands for consists of the addresses of
its nodes and their payload pointers.

**Main result**: `listCreate_faithful`. No operation goes wrong, and after
each the pointers lead through the sequence and back, both ways; everything
outside the list is as it was before the list was created; and
`list_destroy` frees each node once.
-/

namespace LruInC

/-! ## The operations and the sequence -/

/-- A node of the sequence: its address and its payload pointer. -/
abbrev Entry := Addr × Option Addr

/-- **A call**. For `list_push_front`, `ok` is whether its allocation
succeeds. -/
inductive ListCall where
  /-- `list_push_front` -/
  | pushFront (ok : Bool) (value : Option Addr)
  /-- `list_move_front` -/
  | moveFront (node : Addr)
  /-- `list_remove` -/
  | remove (node : Addr)

/-- What the call returns, `NULL` where it returns nothing, and the heap
after it. -/
def ListCall.exec (list : Addr) : ListCall → Heap ListNode → Option (Option Addr × Heap ListNode)
  | pushFront ok value, h => listPushFront ok list value h
  | moveFront node, h => (listMoveFront list node h).map fun h => (none, h)
  | remove node, h => (listRemove node h).map fun h => (none, h)

/-- The node belongs to the list. -/
def ListCall.Allowed : ListCall → List Entry → Prop
  | pushFront _ _, _ => True
  | moveFront node, xs | remove node, xs => node ∈ xs.map Prod.fst

/-- A call returns a node only if it has made one. -/
def ListCall.Returns : ListCall → Option Addr → Prop
  | pushFront ok _, ret => ret.isSome = ok
  | moveFront _, ret | remove _, ret => ret = none

/-- **What the call makes of the sequence**, by what it has returned. -/
def ListCall.apply : ListCall → Option Addr → List Entry → List Entry
  | pushFront _ value, some node, xs => (node, value) :: xs
  | pushFront _ _, none, xs => xs
  | moveFront node, _, xs => xs.filter (fun x => x.1 = node) ++ xs.filter (fun x => x.1 ≠ node)
  | remove node, _, xs => xs.filter (fun x => x.1 ≠ node)

/-- The loop of `list_destroy`, with the nodes it has freed. -/
def removeAllLogged (list : Addr) : ℕ → Heap ListNode → Option (List Addr × Heap ListNode)
  | 0, _ => none
  | passes + 1, h => do
    if ← listEmpty list h then return ([], h)
    let node ← ← listFront list h
    let (freed, h) ← removeAllLogged list passes (← listRemove node h)
    return (node :: freed, h)

/-- `list_destroy`, with the nodes its loop has freed. -/
def listDestroyLogged (list : Addr) (h : Heap ListNode) : Option (List Addr × Heap ListNode) := do
  let (freed, h) ← removeAllLogged list (h.bound + 1) h
  return (freed, ← h.free list)

/-- **The heap holds the sequence**, and besides it what `h₀` holds. -/
structure Holds (h₀ : Heap ListNode) (list : Addr) (h : Heap ListNode) (xs : List Entry) :
    Prop where
  /-- Following `next` from the sentinel visits the nodes and returns. -/
  next : ∃ n, Circular.visits (nextOf h) list n list = some (xs.map Prod.fst)
  /-- Following `prev` visits them backwards. -/
  prev : ∃ n, Circular.visits (prevOf h) list n list = some (xs.map Prod.fst).reverse
  /-- No node is there twice, nor is the sentinel one. -/
  nodup : (list :: xs.map Prod.fst).Nodup
  /-- A node has the payload pointer it was made with. -/
  value : ∀ x ∈ xs, listValue x.1 h = some x.2
  /-- The first node. -/
  front : listFront list h = some (xs.head?.map Prod.fst)
  /-- The last node. -/
  back : listBack list h = some (xs.getLast?.map Prod.fst)
  /-- Sentinel and nodes are where there was nothing. -/
  apart : ∀ a ∈ list :: xs.map Prod.fst, h₀.read a = none
  /-- Everything else is as it was. -/
  outside : ∀ a ∉ list :: xs.map Prod.fst, h.read a = h₀.read a
  /-- `list_destroy` frees the nodes, each once, and the sentinel, and leaves
  what there was. -/
  destroy : ∃ h', listDestroyLogged list h = some (xs.map Prod.fst, h')
    ∧ listDestroy list h = some h' ∧ h'.cells = h₀.cells

/-- **Every run on nodes of the list** goes through, and all the way the heap
holds the sequence. -/
def Faithful (h₀ : Heap ListNode) (list : Addr) : List ListCall → Heap ListNode → List Entry → Prop
  | [], h, xs => Holds h₀ list h xs
  | call :: calls, h, xs => Holds h₀ list h xs ∧ (call.Allowed xs →
    ∃ ret h', call.exec list h = some (ret, h') ∧ call.Returns ret
      ∧ Faithful h₀ list calls h' (call.apply ret xs))

/-! ## Forgetting the log -/

/-- The loop without its log. -/
theorem removeAllLogged_map (list : Addr) (passes : ℕ) (h : Heap ListNode) :
    (removeAllLogged list passes h).map Prod.snd = removeAll list passes h := by
  induction passes generalizing h with
  | zero => rfl
  | succ passes ih =>
    unfold removeAllLogged removeAll
    cases listEmpty list h with
    | none => rfl
    | some e =>
      cases e with
      | true => rfl
      | false =>
        cases listFront list h with
        | none => rfl
        | some node =>
          cases node with
          | none => rfl
          | some node =>
            simp only [Option.bind_eq_bind, Option.bind_some]
            cases listRemove node h with
            | none => rfl
            | some h' =>
              have := ih h'
              simp only [Bool.false_eq_true, if_false, Option.bind_some, ← this]
              cases removeAllLogged list passes h' <;> rfl

/-- **Without the log** it is `list_destroy`. -/
theorem listDestroyLogged_map (list : Addr) (h : Heap ListNode) :
    (listDestroyLogged list h).map Prod.snd = listDestroy list h := by
  unfold listDestroyLogged listDestroy
  rw [← removeAllLogged_map]
  cases removeAllLogged list (h.bound + 1) h with
  | none => rfl
  | some s =>
    obtain ⟨freed, h'⟩ := s
    show Option.map Prod.snd ((h'.free list).bind fun h => some (freed, h)) = h'.free list
    cases h'.free list <;> rfl

/-! ## What the surgeries leave alone -/

section

variable {h h' : Heap ListNode} {list n a : Addr}

/-- `prepend` changes nothing outside. -/
theorem read_of_prepend {nodes : List Addr} (hl : IsList h list nodes) (hn : n ∉ list :: nodes)
    (he : prepend list n h = some h') (ha : a ∉ list :: n :: nodes) : h'.read a = h.read a := by
  obtain ⟨x, hx⟩ : ∃ x, h.read n = some x := by
    unfold prepend Heap.modify at he
    by_contra hr
    rw [if_neg (by rwa [Option.isSome_iff_exists])] at he
    cases he
  obtain ⟨h'', he', hnext, hprev, hval⟩ := prepend_spec hl hn (by rw [hx]; rfl)
  obtain rfl : h' = h'' := Option.some.inj (he.symm.trans he')
  have hlist : a ≠ list := (ne_of_mem_of_not_mem (by simp) ha).symm
  have hnode : a ≠ n := (ne_of_mem_of_not_mem (by simp) ha).symm
  have hfirst : a ≠ nodes.headD list := by
    rintro rfl
    cases nodes <;> simp at ha
  refine read_ext ?_ ?_ (hval a)
  · rw [hnext, if_neg hlist, if_neg hnode]
  · rw [hprev, if_neg hfirst, if_neg hnode]

/-- `detach` changes nothing outside, nor the node itself. -/
theorem read_of_detach {l r : List Addr} (hl : IsList h list (l ++ n :: r))
    (he : detach n h = some h') (ha : a ∉ list :: (l ++ r)) : h'.read a = h.read a := by
  obtain ⟨h'', he', hnext, hprev, hval⟩ := detach_spec hl
  obtain rfl : h' = h'' := Option.some.inj (he.symm.trans he')
  obtain ⟨hpred, hsucc, -⟩ := hl.neighbours
  refine read_ext ?_ ?_ (hval a)
  · rw [hnext, if_neg (ne_of_mem_of_not_mem hpred ha).symm]
  · rw [hprev, if_neg (ne_of_mem_of_not_mem hsucc ha).symm]

/-- A new node changes nothing outside. -/
theorem read_of_listPushFront {nodes : List Addr} (hl : IsList h list nodes)
    {value : Option Addr} (he : listPushFront true list value h = some (some n, h'))
    (ha : a ∉ list :: n :: nodes) : h'.read a = h.read a := by
  obtain ⟨hb, hl'⟩ := pushed_isList hl value
  rw [listPushFront_eq, Option.map_eq_some_iff] at he
  obtain ⟨h'', he, heq⟩ := he
  cases heq
  have hne : a ≠ h.bound := (ne_of_mem_of_not_mem (by simp) ha).symm
  rw [read_of_prepend hl' hb he ha, read_pushed, if_neg hne]

/-- A node that moves changes nothing outside. -/
theorem read_of_listMoveFront {l r : List Addr} (hl : IsList h list (l ++ n :: r))
    (he : listMoveFront list n h = some h') (ha : a ∉ list :: (l ++ n :: r)) :
    h'.read a = h.read a := by
  obtain ⟨h₁, he₁, he₂⟩ := Option.bind_eq_some_iff.mp he
  obtain ⟨h₂, he₂', hl₂, -⟩ := detach_isList hl
  obtain rfl : h₁ = h₂ := Option.some.inj (he₁.symm.trans he₂')
  have ha' : a ∉ list :: (l ++ r) := fun h => ha (by simp_all)
  rw [read_of_prepend hl₂ hl.neighbours.2.2 he₂ (fun h => ha (by simp_all)),
    read_of_detach hl he₁ ha']

/-- A node that is freed changes nothing outside. -/
theorem read_of_listRemove {l r : List Addr} (hl : IsList h list (l ++ n :: r))
    (he : listRemove n h = some h') (ha : a ∉ list :: (l ++ r)) :
    h'.read a = if a = n then none else h.read a := by
  obtain ⟨h₁, he₁, he₂⟩ := Option.bind_eq_some_iff.mp he
  unfold Heap.free at he₂
  split at he₂
  · cases he₂
    rw [Heap.read_erase, read_of_detach hl he₁ ha]
  · cases he₂

end

/-! ## One call -/

/-- **What every call keeps.** -/
structure Inv (h₀ : Heap ListNode) (list : Addr) (h : Heap ListNode) (xs : List Entry) :
    Prop where
  isList : IsList h list (xs.map Prod.fst)
  value : ∀ x ∈ xs, valueOf h x.1 = some x.2
  apart : ∀ a ∈ list :: xs.map Prod.fst, h₀.read a = none
  outside : ∀ a ∉ list :: xs.map Prod.fst, h.read a = h₀.read a

/-- A node of the sequence, and what is before and behind it. -/
theorem exists_split {xs : List Entry} {n : Addr} (hnd : (xs.map Prod.fst).Nodup)
    (hn : n ∈ xs.map Prod.fst) :
    ∃ l v r, xs = l ++ (n, v) :: r ∧ xs.filter (fun x => x.1 = n) = [(n, v)]
      ∧ xs.filter (fun x => x.1 ≠ n) = l ++ r := by
  obtain ⟨⟨m, v⟩, hx, hm⟩ := List.mem_map.mp hn
  obtain rfl : m = n := hm
  obtain ⟨l, r, rfl⟩ := List.append_of_mem hx
  rw [List.map_append, List.map_cons, List.nodup_middle, List.nodup_cons, ← List.map_append] at hnd
  have hne : ∀ x ∈ l ++ r, x.1 ≠ m := fun x hx he => hnd.1 (List.mem_map.mpr ⟨x, hx, he⟩)
  have hl : ∀ x ∈ l, x.1 ≠ m := fun x hx => hne x (List.mem_append_left r hx)
  have hr : ∀ x ∈ r, x.1 ≠ m := fun x hx => hne x (List.mem_append_right l hx)
  refine ⟨l, v, r, rfl, ?_, ?_⟩
  · rw [List.filter_append, List.filter_cons_of_pos (by simp),
      List.filter_eq_nil_iff.mpr (by simpa using hl),
      List.filter_eq_nil_iff.mpr (by simpa using hr)]
    rfl
  · rw [List.filter_append, List.filter_cons_of_neg (by simp),
      List.filter_eq_self.mpr (by simpa using hl), List.filter_eq_self.mpr (by simpa using hr)]

namespace Inv

variable {h₀ h : Heap ListNode} {list n : Addr} {v : Option Addr} {xs l r : List Entry}

/-- `list_push_front` makes a node where there was nothing. -/
theorem pushFront (hi : Inv h₀ list h xs) (v : Option Addr) :
    ∃ h', listPushFront true list v h = some (some h.bound, h')
      ∧ Inv h₀ list h' ((h.bound, v) :: xs) := by
  obtain ⟨h', he, hl, hv⟩ := listPushFront_spec hi.isList v
  have hfresh := (pushed_isList hi.isList v).1
  refine ⟨h', he, hl, ?_, ?_, fun a ha => ?_⟩
  · intro x hx
    rcases List.mem_cons.mp hx with rfl | hx
    · rw [hv, if_pos rfl]
    · have hne : x.1 ≠ h.bound := ne_of_mem_of_not_mem
        (List.mem_cons_of_mem list (List.mem_map_of_mem hx)) hfresh
      rw [hv, if_neg hne, hi.value x hx]
  · intro a ha
    rw [List.map_cons, List.mem_cons, List.mem_cons] at ha
    rcases ha with rfl | rfl | ha
    · exact hi.apart a List.mem_cons_self
    · rw [← hi.outside _ hfresh, Heap.read_bound]
    · exact hi.apart a (List.mem_cons_of_mem list ha)
  · rw [read_of_listPushFront hi.isList he ha]
    exact hi.outside a fun hmem => ha (by simp_all)

/-- The sequence with a node in the middle is one of the list. -/
theorem isList_middle (hi : Inv h₀ list h (l ++ (n, v) :: r)) :
    IsList h list (l.map Prod.fst ++ n :: r.map Prod.fst) := by
  have hl := hi.isList
  rwa [List.map_append, List.map_cons] at hl

/-- `list_move_front` moves a node. -/
theorem moveFront (hi : Inv h₀ list h (l ++ (n, v) :: r)) :
    ∃ h', listMoveFront list n h = some h' ∧ Inv h₀ list h' ((n, v) :: (l ++ r)) := by
  obtain ⟨h', he, hl, hv⟩ := listMoveFront_spec hi.isList_middle
  have hperm : ((n, v) :: (l ++ r)).Perm (l ++ (n, v) :: r) := List.perm_middle.symm
  have hmem : ∀ a, a ∈ list :: ((n, v) :: (l ++ r)).map Prod.fst
      ↔ a ∈ list :: (l ++ (n, v) :: r).map Prod.fst :=
    fun a => ((hperm.map Prod.fst).cons list).mem_iff
  refine ⟨h', he, by rwa [List.map_cons, List.map_append], ?_, ?_, fun a ha => ?_⟩
  · intro x hx
    rw [hv, hi.value x (hperm.mem_iff.mp hx)]
  · exact fun a ha => hi.apart a ((hmem a).mp ha)
  · rw [hmem] at ha
    rw [read_of_listMoveFront hi.isList_middle he (by simpa using ha), hi.outside a ha]

/-- `list_remove` takes a node out, and leaves nothing where it was. -/
theorem remove (hi : Inv h₀ list h (l ++ (n, v) :: r)) :
    ∃ h', listRemove n h = some h' ∧ Inv h₀ list h' (l ++ r) := by
  obtain ⟨h', he, hl, hv⟩ := listRemove_spec hi.isList_middle
  have hn := hi.isList_middle.neighbours.2.2
  rw [← List.map_append] at hn hl
  have hmem : ∀ a, a ∈ list :: (l ++ (n, v) :: r).map Prod.fst
      ↔ a = n ∨ a ∈ list :: (l ++ r).map Prod.fst := by
    intro a
    simp
    tauto
  refine ⟨h', he, hl, ?_, ?_, fun a ha => ?_⟩
  · intro x hx
    have hne : x.1 ≠ n := ne_of_mem_of_not_mem
      (List.mem_cons_of_mem list (List.mem_map_of_mem hx)) hn
    rw [hv, if_neg hne, hi.value x (by simp at hx ⊢; tauto)]
  · exact fun a ha => hi.apart a ((hmem a).mpr (Or.inr ha))
  · rw [read_of_listRemove hi.isList_middle he (by rwa [← List.map_append])]
    split
    · next hane => exact (hi.apart a ((hmem a).mpr (Or.inl hane))).symm
    · next hane => exact hi.outside a fun h => ha (((hmem a).mp h).resolve_left hane)

/-! ## `list_destroy` -/

/-- **The loop of `list_destroy`** frees the nodes from the front. -/
theorem removeAll {passes : ℕ} (hi : Inv h₀ list h xs) (hp : xs.length < passes) :
    ∃ h', removeAllLogged list passes h = some (xs.map Prod.fst, h') ∧ Inv h₀ list h' [] := by
  induction xs generalizing h passes with
  | nil =>
    obtain _ | passes := passes
    · exact absurd hp (Nat.not_lt_zero _)
    refine ⟨h, ?_, hi⟩
    rw [removeAllLogged, listEmpty_spec hi.isList]
    rfl
  | cons x xs ih =>
    obtain _ | passes := passes
    · exact absurd hp (Nat.not_lt_zero _)
    obtain ⟨h₁, he₁, hi₁⟩ := remove (l := []) hi
    obtain ⟨h₂, he₂, hi₂⟩ := ih hi₁ (Nat.lt_of_succ_lt_succ hp)
    refine ⟨h₂, ?_, hi₂⟩
    rw [removeAllLogged, listEmpty_spec hi.isList, listFront_spec hi.isList]
    show (listRemove x.1 h).bind _ = _
    rw [he₁, Option.bind_some]
    show (removeAllLogged list passes h₁).bind _ = _
    rw [he₂]
    rfl

/-- There are no more nodes than addresses handed out. -/
theorem length_le (hi : Inv h₀ list h xs) : xs.length ≤ h.bound := by
  have hsub : xs.map Prod.fst ⊆ List.range h.bound := by
    intro a ha
    have hsome := hi.isList.isSome_read (List.mem_cons_of_mem list ha)
    rw [List.mem_range]
    by_contra hle
    rw [Heap.read, h.fresh a (Nat.not_lt.mp hle)] at hsome
    cases hsome
  have hle := (List.subperm_of_subset (List.nodup_cons.mp hi.isList.nodup).2 hsub).length_le
  rwa [List.length_map, List.length_range] at hle

/-- **`list_destroy`** leaves what there was. -/
theorem listDestroy (hi : Inv h₀ list h xs) :
    ∃ h', listDestroyLogged list h = some (xs.map Prod.fst, h') ∧ h'.cells = h₀.cells := by
  obtain ⟨h₁, he₁, hi₁⟩ := hi.removeAll (Nat.lt_succ_of_le hi.length_le)
  refine ⟨h₁.erase list, ?_, funext fun a => ?_⟩
  · rw [listDestroyLogged, he₁]
    show (h₁.free list).bind _ = _
    rw [Heap.free_of_isSome (hi₁.isList.isSome_read List.mem_cons_self)]
    rfl
  · show (h₁.erase list).read a = h₀.read a
    rw [Heap.read_erase]
    split
    · next ha => exact (hi₁.apart a (ha ▸ List.mem_cons_self)).symm
    · next ha => exact hi₁.outside a (by simpa using ha)

/-! ## Runs -/

/-- **The heap holds the sequence.** -/
theorem holds (hi : Inv h₀ list h xs) : Holds h₀ list h xs where
  next := ⟨_, hi.isList.visits_next⟩
  prev := ⟨_, hi.isList.visits_prev⟩
  nodup := hi.isList.nodup
  value x hx := (Option.map_eq_bind ..).symm.trans (hi.value x hx)
  front := by rw [listFront_spec hi.isList, List.head?_map]
  back := by rw [listBack_spec hi.isList, List.getLast?_map]
  apart := hi.apart
  outside := hi.outside
  destroy := by
    obtain ⟨h', he, hcells⟩ := hi.listDestroy
    exact ⟨h', he, by rw [← listDestroyLogged_map, he]; rfl, hcells⟩

/-- **One call** on a node of the list goes through and keeps the
invariant. -/
theorem exec (hi : Inv h₀ list h xs) (call : ListCall) (hcall : call.Allowed xs) :
    ∃ ret h', call.exec list h = some (ret, h') ∧ call.Returns ret
      ∧ Inv h₀ list h' (call.apply ret xs) := by
  have hnd := (List.nodup_cons.mp hi.isList.nodup).2
  cases call with
  | pushFront ok value =>
    cases ok with
    | false => exact ⟨none, h, listPushFront_fail h list value, rfl, hi⟩
    | true =>
      obtain ⟨h', he, hi'⟩ := hi.pushFront value
      exact ⟨_, h', he, rfl, hi'⟩
  | moveFront node =>
    obtain ⟨l, v, r, rfl, hone, hrest⟩ := exists_split hnd hcall
    obtain ⟨h', he, hi'⟩ := hi.moveFront
    refine ⟨none, h', by rw [ListCall.exec, he]; rfl, rfl, ?_⟩
    rw [ListCall.apply, hone, hrest]
    exact hi'
  | remove node =>
    obtain ⟨l, v, r, rfl, -, hrest⟩ := exists_split hnd hcall
    obtain ⟨h', he, hi'⟩ := hi.remove
    refine ⟨none, h', by rw [ListCall.exec, he]; rfl, rfl, ?_⟩
    rw [ListCall.apply, hrest]
    exact hi'

/-- **Any run** goes through. -/
theorem faithful (hi : Inv h₀ list h xs) (calls : List ListCall) : Faithful h₀ list calls h xs := by
  induction calls generalizing h xs with
  | nil => exact hi.holds
  | cons call calls ih =>
    refine ⟨hi.holds, fun hcall => ?_⟩
    obtain ⟨ret, h', he, hret, hi'⟩ := hi.exec call hcall
    exact ⟨ret, h', he, hret, ih hi'⟩

end Inv

/-- A new list is a block of its own. -/
theorem listCreate_inv (h₀ : Heap ListNode) :
    ∃ h, listCreate true h₀ = (some h₀.bound, h) ∧ Inv h₀ h₀.bound h [] := by
  obtain ⟨h, he, hl⟩ := listCreate_spec h₀
  refine ⟨h, he, hl, nofun, fun a ha => ?_, fun a ha => ?_⟩
  · rw [List.mem_singleton.mp ha, Heap.read_bound]
  · have hne : a ≠ h₀.bound := by simpa using ha
    have hheap : (h₀.alloc ListNode.uninit).2.mapAt h₀.bound _ = h :=
      congrArg Prod.snd he
    rw [← hheap, Heap.read_mapAt, if_neg hne, Heap.read_alloc, if_neg hne]

/-- **The circular list is the sequence**, in every run from `list_create`
on. -/
theorem listCreate_faithful (h₀ : Heap ListNode) (calls : List ListCall) :
    ∃ list h, listCreate true h₀ = (some list, h) ∧ Faithful h₀ list calls h [] := by
  obtain ⟨h, he, hi⟩ := listCreate_inv h₀
  exact ⟨_, h, he, hi.faithful calls⟩

end LruInC
