import CppGraduate.Lib.Circular
import CppGraduate.LruDatastructs.Pool

/-!
# The intrusive list of lru-in-c-datastructs

`list.c`: links embedded in their owners, in a ring through a sentinel. A
link that is in no list points at itself, which `list_remove` sees to.

Each operation is stated by the ring it leaves and by what it does not
touch: map entries, buckets and sizes, whatever list operation is called.
-/

namespace LruDatastructs

open Chains (Cell)

/-- `list_init` -/
def listInit (link : LinkPtr) (s : LruCache) : Option LruCache :=
  s.modifyLink link fun _ => ⟨some link, some link⟩

/-- `list_push_front` -/
def listPushFront (head link : LinkPtr) (s : LruCache) : Option LruCache := do
  let s ← s.modifyLink link fun x => { x with prev := some head }
  let next := (← s.link head).next
  let s ← s.modifyLink link fun x => { x with next := next }
  let next ← (← s.link head).next
  let s ← s.modifyLink next fun x => { x with prev := some link }
  s.modifyLink head fun x => { x with next := some link }

/-- `list_remove` -/
def listRemove (link : LinkPtr) (s : LruCache) : Option LruCache := do
  let x ← s.link link
  let s ← s.modifyLink (← x.prev) fun y => { y with next := x.next }
  let x ← s.link link
  let s ← s.modifyLink (← x.next) fun y => { y with prev := x.prev }
  listInit link s

/-! ## Reading the links -/

/-- The `next` pointer of a link. -/
def nextOf (s : LruCache) (a : LinkPtr) : Option LinkPtr := (s.link a).bind ListLink.next

/-- The `prev` pointer of a link. -/
def prevOf (s : LruCache) (a : LinkPtr) : Option LinkPtr := (s.link a).bind ListLink.prev

/-- **The cache has the recency list `links`**: a ring through its
sentinel. -/
abbrev IsList (s : LruCache) (links : List LinkPtr) : Prop :=
  Circular.IsRing (nextOf s) (prevOf s) .sentinel links

/-- **Only links changed.** -/
structure SameIndex (s s' : LruCache) : Prop where
  mapping : ∀ i, s'.mapping i = s.mapping i
  cell : ∀ c, s'.cell c = s.cell c
  sizes : s'.sizes = s.sizes

theorem SameIndex.trans {s s' s'' : LruCache} (h : SameIndex s s') (h' : SameIndex s' s'') :
    SameIndex s s'' :=
  ⟨fun i => (h'.mapping i).trans (h.mapping i), fun c => (h'.cell c).trans (h.cell c),
    h'.sizes.trans h.sizes⟩

/-- Writing a link changes links only. -/
theorem sameIndex_mapLink (s : LruCache) (f : ListLink → ListLink) (a : LinkPtr) :
    SameIndex s (s.mapLink f a) := ⟨by simp, by simp, by simp⟩

/-- A link that is there is written. -/
theorem modifyLink_of_isSome {s : LruCache} {a : LinkPtr} (h : (s.link a).isSome)
    (f : ListLink → ListLink) : s.modifyLink a f = some (s.mapLink f a) := if_pos h

/-- The links of a list are there, and so is the sentinel. -/
theorem IsList.isSome_link {s : LruCache} {links : List LinkPtr} (hl : IsList s links) {a : LinkPtr}
    (ha : a ∈ LinkPtr.sentinel :: links) : (s.link a).isSome := by
  have hs := hl.next_isSome ha
  rw [nextOf] at hs
  cases hr : s.link a with
  | none =>
    rw [hr] at hs
    cases hs
  | some x => rfl

/-! ## What a write reads back -/

section Writes

variable (s : LruCache) (a b : LinkPtr) (p : Option LinkPtr)

/-- Write the `next` pointer of a link. -/
abbrev setNext : LruCache := s.mapLink (fun x => { x with next := p }) a

/-- Write the `prev` pointer of a link. -/
abbrev setPrev : LruCache := s.mapLink (fun x => { x with prev := p }) a

theorem nextOf_setNext :
    nextOf (setNext s a p) b = if b = a ∧ (s.link a).isSome then p else nextOf s b := by
  unfold nextOf
  rw [LruCache.link_mapLink]
  by_cases hb : b = a
  · subst hb
    cases s.link b <;> simp
  · simp [hb]

theorem prevOf_setPrev :
    prevOf (setPrev s a p) b = if b = a ∧ (s.link a).isSome then p else prevOf s b := by
  unfold prevOf
  rw [LruCache.link_mapLink]
  by_cases hb : b = a
  · subst hb
    cases s.link b <;> simp
  · simp [hb]

@[simp] theorem prevOf_setNext : prevOf (setNext s a p) b = prevOf s b := by
  unfold prevOf
  rw [LruCache.link_mapLink]
  split <;> cases s.link b <;> rfl

@[simp] theorem nextOf_setPrev : nextOf (setPrev s a p) b = nextOf s b := by
  unfold nextOf
  rw [LruCache.link_mapLink]
  split <;> cases s.link b <;> rfl

/-- A link that points at itself. -/
theorem nextOf_init (ha : b ≠ a) :
    nextOf (s.mapLink (fun _ => ⟨some a, some a⟩) a) b = nextOf s b := by
  unfold nextOf
  rw [LruCache.link_mapLink, if_neg ha]

theorem prevOf_init (ha : b ≠ a) :
    prevOf (s.mapLink (fun _ => ⟨some a, some a⟩) a) b = prevOf s b := by
  unfold prevOf
  rw [LruCache.link_mapLink, if_neg ha]

end Writes

/-! ## The operations -/

/-- `list_init` changes no list the link is not in. -/
theorem listInit_spec {s : LruCache} {links : List LinkPtr} (hl : IsList s links) {n : LinkPtr}
    (hn : n ∉ LinkPtr.sentinel :: links) (hr : (s.link n).isSome) :
    ∃ s', listInit n s = some s' ∧ IsList s' links ∧ SameIndex s s' := by
  have hne : ∀ a ∈ LinkPtr.sentinel :: (links ++ [.sentinel]), a ≠ n := by
    rintro a ha rfl
    simp only [List.mem_cons, List.mem_append, List.not_mem_nil, or_false] at ha hn
    tauto
  refine ⟨_, modifyLink_of_isSome hr _, ⟨hl.nodup, Circular.isChain_congr hl.linked ?_ ?_⟩,
    sameIndex_mapLink ..⟩
  · exact fun a ha => nextOf_init s n a (hne a (List.dropLast_subset _ ha))
  · exact fun a ha => prevOf_init s n a (hne a (List.mem_of_mem_tail ha))

/-- **`list_push_front`** puts a link first. -/
theorem listPushFront_spec {s : LruCache} {links : List LinkPtr} (hl : IsList s links)
    {n : LinkPtr} (hn : n ∉ LinkPtr.sentinel :: links) (hr : (s.link n).isSome) :
    ∃ s', listPushFront .sentinel n s = some s' ∧ IsList s' (n :: links) ∧ SameIndex s s' := by
  set first := links.headD .sentinel with hfirst
  have hmem : first ∈ LinkPtr.sentinel :: links := by
    cases links <;> simp [hfirst]
  have hne : n ≠ .sentinel := fun he => hn (he ▸ List.mem_cons_self)
  obtain ⟨y, hy, hyn⟩ := Option.bind_eq_some_iff.mp hl.next_head
  have hsl := hl.isSome_link List.mem_cons_self
  have hsf := hl.isSome_link hmem
  set s' := setNext (setPrev (setNext (setPrev s n (some .sentinel)) n (some first)) first (some n))
    .sentinel (some n) with hs'
  have hnext : ∀ a, nextOf s' a = if a = .sentinel then some n
      else if a = n then some first else nextOf s a := fun a => by
    rw [hs', nextOf_setNext, nextOf_setPrev, nextOf_setNext, nextOf_setPrev]
    simp only [LruCache.isSome_link_mapLink, hsl, hr, and_true]
  have hprev : ∀ a, prevOf s' a = if a = first then some n
      else if a = n then some .sentinel else prevOf s a := fun a => by
    rw [hs', prevOf_setNext, prevOf_setPrev, prevOf_setNext, prevOf_setPrev]
    simp only [LruCache.isSome_link_mapLink, hsf, hr, and_true]
  refine ⟨s', ?_, hl.prepend hn hnext hprev, ?_⟩
  · have hy' : (setPrev s n (some .sentinel)).link .sentinel = some y := by
      rw [LruCache.link_mapLink, if_neg hne.symm, hy]
    have hy'' : (setNext (setPrev s n (some .sentinel)) n (some first)).link .sentinel
        = some y := by
      rw [LruCache.link_mapLink, if_neg hne.symm, hy']
    rw [← hfirst] at hyn
    simp only [listPushFront, modifyLink_of_isSome, LruCache.isSome_link_mapLink, hr, hsf,
      hy', hy'', hyn, Option.bind_eq_bind, Option.bind_some]
    rfl
  · exact ((sameIndex_mapLink ..).trans (sameIndex_mapLink ..)).trans
      ((sameIndex_mapLink ..).trans (sameIndex_mapLink ..))

/-- **`list_remove`** takes a link out of the list. -/
theorem listRemove_spec {s : LruCache} {n : LinkPtr} {l r : List LinkPtr}
    (hl : IsList s (l ++ n :: r)) :
    ∃ s', listRemove n s = some s' ∧ IsList s' (l ++ r) ∧ SameIndex s s' := by
  set pred := l.getLastD .sentinel with hpred
  set succ := r.headD .sentinel with hsucc
  obtain ⟨hpm, hsm, hnot⟩ := hl.neighbours
  have hmem : ∀ a ∈ LinkPtr.sentinel :: (l ++ r), a ∈ LinkPtr.sentinel :: (l ++ n :: r) :=
    fun a ha => by simp at ha ⊢; tauto
  have hne : n ≠ pred := fun he => hnot (he ▸ hpm)
  have hsn := hl.isSome_link (a := n) (by simp)
  have hsp := hl.isSome_link (hmem pred hpm)
  have hss := hl.isSome_link (hmem succ hsm)
  obtain ⟨x, hx, hxn⟩ := Option.bind_eq_some_iff.mp hl.next_mem
  have hxp : x.prev = some pred := by
    have hprev := hl.prev_mem
    rwa [prevOf, hx, Option.bind_some] at hprev
  set s' := setPrev (setNext s pred (some succ)) succ (some pred) with hs'
  have hnext : ∀ a, nextOf s' a = if a = pred then some succ else nextOf s a := fun a => by
    rw [hs', nextOf_setPrev, nextOf_setNext]
    simp only [hsp, and_true]
  have hprev : ∀ a, prevOf s' a = if a = succ then some pred else prevOf s a := fun a => by
    rw [hs', prevOf_setPrev, prevOf_setNext]
    simp only [LruCache.isSome_link_mapLink, hss, and_true]
  have hring : IsList s' (l ++ r) := hl.detach hnext hprev
  obtain ⟨s'', hinit, hlist, hsame⟩ := listInit_spec hring hnot (by simp [hs', hsn])
  refine ⟨s'', ?_, hlist, ((sameIndex_mapLink ..).trans (sameIndex_mapLink ..)).trans hsame⟩
  have hx' : (setNext s pred (some succ)).link n = some x := by
    rw [LruCache.link_mapLink, if_neg hne, hx]
  rw [← hsucc] at hxn
  simp only [listRemove, hx, hxn, hxp, modifyLink_of_isSome, hsp, hx',
    LruCache.isSome_link_mapLink, hss, Option.bind_eq_bind, Option.bind_some]
  exact hinit

end LruDatastructs
