import Mathlib.Data.List.Basic
import Mathlib.Data.List.Chain
import Mathlib.Data.List.Nodup

/-!
# Circular doubly linked lists

A ring is a head and a list of members whose `next` pointers lead from the
head through the members in order and back to the head, and whose `prev`
pointers lead the other way round. Pointers are read through two partial
functions, so the lemmas here know nothing about how the cells are stored:
a list in a heap of nodes and an intrusive list in a pool of entries are
both rings.

The two operations on a ring – put a new member first, take a member out –
are stated by what the changed pointers read afterwards and by which
pointers read what they read before. The neighbours of a member may be the
head and may coincide; nothing below separates those cases.
-/

namespace Circular

variable {α : Type} {next prev next' prev' : α → Option α}

/-- `b` follows `a`: the pointers of the two agree about it. -/
def Linked (next prev : α → Option α) (a b : α) : Prop :=
  next a = some b ∧ prev b = some a

/-- **A circular doubly linked list**: from `head` through `xs` and back,
no member twice. -/
structure IsRing (next prev : α → Option α) (head : α) (xs : List α) : Prop where
  /-- The head is no member and no member occurs twice. -/
  nodup : (head :: xs).Nodup
  /-- Neighbours are linked, the last member to the head. -/
  linked : (head :: (xs ++ [head])).IsChain (Linked next prev)

/-! ## Pointers that read the same -/

/-- A chain stays linked when the `next` of all but its last element and
the `prev` of all but its first read what they did. -/
theorem isChain_congr {l : List α} (h : l.IsChain (Linked next prev))
    (hn : ∀ a ∈ l.dropLast, next' a = next a)
    (hp : ∀ b ∈ l.tail, prev' b = prev b) : l.IsChain (Linked next' prev') := by
  induction l with
  | nil => exact .nil
  | cons a l ih =>
    cases l with
    | nil => exact .singleton a
    | cons b l =>
      obtain ⟨hab, hl⟩ := List.isChain_cons_cons.mp h
      refine List.isChain_cons_cons.mpr ⟨⟨?_, ?_⟩, ih hl (fun x hx => ?_) (fun x hx => ?_)⟩
      · rw [hn a (by simp)]
        exact hab.1
      · rw [hp b (by simp)]
        exact hab.2
      · exact hn x (by simpa using Or.inr hx)
      · exact hp x (by simpa using Or.inr hx)

/-! ## The neighbours of a position -/

/-- The last element of a list, or the one before it, ends the two
together. -/
theorem dropLast_append_getLastD (a : α) (l : List α) :
    (a :: l).dropLast ++ [l.getLastD a] = a :: l := by
  rw [← List.getLast_eq_getLastD, List.dropLast_append_getLast]
  exact List.cons_ne_nil a l

/-- The two chains a ring falls into at a cut, and the link across it. -/
theorem IsRing.cut {head : α} {l r : List α} (h : IsRing next prev head (l ++ r)) :
    (head :: l).IsChain (Linked next prev) ∧ (r ++ [head]).IsChain (Linked next prev)
      ∧ Linked next prev (l.getLastD head) (r.headD head) := by
  have hl := h.linked
  rw [List.append_assoc, ← List.cons_append, List.isChain_append] at hl
  refine ⟨hl.1, hl.2.1, hl.2.2 _ ?_ _ ?_⟩
  · rw [List.getLast?_cons, Option.mem_some_iff, List.getLastD_eq_getLast?]
  · cases r <;> simp

/-- The head's `next` is the first member, or the head itself. -/
theorem IsRing.next_head {head : α} {xs : List α} (h : IsRing next prev head xs) :
    next head = some (xs.headD head) :=
  (IsRing.cut (l := []) h).2.2.1

/-- The head's `prev` is the last member, or the head itself. -/
theorem IsRing.prev_head {head : α} {xs : List α} (h : IsRing next prev head xs) :
    prev head = some (xs.getLastD head) :=
  (IsRing.cut (r := []) (by rwa [List.append_nil])).2.2.2

/-- The first member's `prev`, read off the empty ring too, is the
head. -/
theorem IsRing.prev_first {head : α} {xs : List α} (h : IsRing next prev head xs) :
    prev (xs.headD head) = some head :=
  (IsRing.cut (l := []) h).2.2.2

/-- A member's `prev` is the member before it, or the head. -/
theorem IsRing.prev_mem {head n : α} {l r : List α}
    (h : IsRing next prev head (l ++ n :: r)) : prev n = some (l.getLastD head) :=
  h.cut.2.2.2

/-- A member's `next` is the member after it, or the head. -/
theorem IsRing.next_mem {head n : α} {l r : List α}
    (h : IsRing next prev head (l ++ n :: r)) : next n = some (r.headD head) := by
  have hcut := IsRing.cut (l := l ++ [n]) (r := r) (by simpa using h)
  simpa using hcut.2.2.1

/-- The head points somewhere, and so does every member. -/
theorem IsRing.next_isSome {head a : α} {xs : List α} (h : IsRing next prev head xs)
    (ha : a ∈ head :: xs) : (next a).isSome := by
  rcases List.mem_cons.mp ha with rfl | ha
  · rw [h.next_head, Option.isSome_some]
  · obtain ⟨l, r, rfl⟩ := List.append_of_mem ha
    rw [h.next_mem, Option.isSome_some]

/-! ## Putting a member first and taking one out -/

/-- **A new first member.** The head and the old first member point at it,
it points at both, and every other pointer reads what it did. -/
theorem IsRing.pushFront {head n : α} {xs : List α} (h : IsRing next prev head xs)
    (hfresh : n ∉ head :: xs) (hhn : Linked next' prev' head n)
    (hnf : Linked next' prev' n (xs.headD head))
    (hn : ∀ a ∈ xs, next' a = next a)
    (hp : ∀ a ∈ head :: xs, a ≠ xs.headD head → prev' a = prev a) :
    IsRing next' prev' head (n :: xs) := by
  have hne := (List.nodup_cons.mp h.nodup).1
  refine ⟨?_, ?_⟩
  · rw [(List.Perm.swap n head xs).nodup_iff]
    exact List.nodup_cons.mpr ⟨hfresh, h.nodup⟩
  have hrest : (xs ++ [head]).IsChain (Linked next' prev') := by
    refine isChain_congr (IsRing.cut (l := []) h).2.1 (fun a ha => hn a ?_) (fun a ha => ?_)
    · simpa using ha
    · cases xs with
      | nil => simp at ha
      | cons x xs =>
        have hnd := List.nodup_cons.mp (List.nodup_cons.mp h.nodup).2
        rw [List.cons_append, List.tail_cons, List.mem_append, List.mem_singleton] at ha
        refine hp a ?_ ?_
        · rcases ha with ha | rfl <;> simp_all
        · rcases ha with ha | rfl
          · rintro rfl
            exact hnd.1 ha
          · rintro rfl
            exact hne List.mem_cons_self
  rw [List.cons_append]
  refine List.isChain_cons_cons.mpr ⟨hhn, List.isChain_cons.mpr ⟨fun b hb => ?_, hrest⟩⟩
  cases xs with
  | nil =>
    rw [List.nil_append, List.head?_cons, Option.mem_some_iff] at hb
    exact hb ▸ hnf
  | cons x xs =>
    rw [List.cons_append, List.head?_cons, Option.mem_some_iff] at hb
    exact hb ▸ hnf

/-- **A member taken out.** The two neighbours point at each other, and
every other pointer reads what it did; the pointers of the member itself
no longer matter. -/
theorem IsRing.remove {head n : α} {l r : List α}
    (h : IsRing next prev head (l ++ n :: r))
    (hps : Linked next' prev' (l.getLastD head) (r.headD head))
    (hn : ∀ a ∈ head :: (l ++ r), a ≠ l.getLastD head → next' a = next a)
    (hp : ∀ a ∈ head :: (l ++ r), a ≠ r.headD head → prev' a = prev a) :
    IsRing next' prev' head (l ++ r) := by
  have hnd : (head :: (l ++ r)).Nodup :=
    h.nodup.sublist (by simp)
  have hndl : (head :: l).Nodup := hnd.sublist (by simp)
  have hndr : (r ++ [head]).Nodup :=
    (List.perm_append_singleton head r).nodup_iff.mpr (hnd.sublist (by simp))
  have hdisj : ∀ a ∈ head :: l, a ∉ r := fun a ha har =>
    (List.disjoint_of_nodup_append (show (head :: l ++ r).Nodup from hnd)) ha har
  obtain ⟨hcl, -, -⟩ := h.cut
  obtain ⟨-, hcr, -⟩ := IsRing.cut (l := l ++ [n]) (r := r) (by simpa using h)
  -- the chain before the member, the chain behind it, and the link between them
  refine ⟨hnd, ?_⟩
  rw [List.append_assoc, ← List.cons_append, List.isChain_append]
  refine ⟨isChain_congr hcl (fun a ha => hn a ?_ ?_) (fun a ha => hp a ?_ ?_),
    isChain_congr hcr (fun a ha => hn a ?_ ?_) (fun a ha => hp a ?_ ?_), ?_⟩
  · exact List.mem_append_left r (List.dropLast_subset _ ha)
  · rintro rfl
    rw [← dropLast_append_getLastD] at hndl
    exact (List.disjoint_of_nodup_append hndl) ha (by simp)
  · rw [List.tail_cons] at ha
    simp [ha]
  · rintro rfl
    rw [List.tail_cons] at ha
    cases r with
    | nil => exact (List.nodup_cons.mp hndl).1 ha
    | cons y r => exact hdisj _ (List.mem_cons_of_mem _ ha) (by simp)
  · rw [List.dropLast_concat] at ha
    simp [ha]
  · rintro rfl
    rw [List.dropLast_concat] at ha
    refine hdisj _ ?_ ha
    rw [← dropLast_append_getLastD]
    simp
  · have := List.mem_of_mem_tail ha
    simp_all
    tauto
  · rintro rfl
    cases r with
    | nil => simp at ha
    | cons y r =>
      rw [List.cons_append, List.tail_cons] at ha
      rw [List.cons_append] at hndr
      exact (List.nodup_cons.mp hndr).1 ha
  · intro a ha b hb
    rw [List.getLast?_cons, Option.mem_some_iff, ← List.getLastD_eq_getLast?] at ha
    have hb' : r.headD head = b := by
      cases r <;> simpa using hb
    exact ha ▸ hb' ▸ hps

/-! ## The pointer surgeries

What the four writes of an insertion, and the two of a removal, leave in
the pointers. -/

/-- **Insertion behind the head**: the new member points at the head and at
the old first member, and both point at it. -/
theorem IsRing.prepend [DecidableEq α] {head n : α} {xs : List α} (h : IsRing next prev head xs)
    (hfresh : n ∉ head :: xs)
    (hn : ∀ a, next' a = if a = head then some n
      else if a = n then some (xs.headD head) else next a)
    (hp : ∀ a, prev' a = if a = xs.headD head then some n
      else if a = n then some head else prev a) : IsRing next' prev' head (n :: xs) := by
  have hne : n ≠ head := fun he => hfresh (he ▸ List.mem_cons_self)
  have hnot : head ∉ xs := (List.nodup_cons.mp h.nodup).1
  have hnf : n ≠ xs.headD head := by
    cases xs <;> simp_all
  refine h.pushFront hfresh ⟨?_, ?_⟩ ⟨?_, ?_⟩ (fun a ha => ?_) (fun a ha haf => ?_)
  · rw [hn, if_pos rfl]
  · rw [hp, if_neg hnf, if_pos rfl]
  · rw [hn, if_neg hne, if_pos rfl]
  · rw [hp, if_pos rfl]
  · rw [hn, if_neg (by rintro rfl; exact hnot ha),
      if_neg (by rintro rfl; exact hfresh (List.mem_cons_of_mem _ ha))]
  · rw [hp, if_neg haf, if_neg (by rintro rfl; exact hfresh ha)]

/-- **Removal**: the neighbours of a member point at each other. -/
theorem IsRing.detach [DecidableEq α] {head n : α} {l r : List α}
    (h : IsRing next prev head (l ++ n :: r))
    (hn : ∀ a, next' a = if a = l.getLastD head then some (r.headD head) else next a)
    (hp : ∀ a, prev' a = if a = r.headD head then some (l.getLastD head) else prev a) :
    IsRing next' prev' head (l ++ r) := by
  refine h.remove ⟨?_, ?_⟩ (fun a _ ha => ?_) (fun a _ ha => ?_)
  · rw [hn, if_pos rfl]
  · rw [hp, if_pos rfl]
  · rw [hn, if_neg ha]
  · rw [hp, if_neg ha]

/-- The neighbours of a member are in the ring without it, and it is
neither of them. -/
theorem IsRing.neighbours {head n : α} {l r : List α} (h : IsRing next prev head (l ++ n :: r)) :
    l.getLastD head ∈ head :: (l ++ r) ∧ r.headD head ∈ head :: (l ++ r)
      ∧ n ∉ head :: (l ++ r) := by
  have hmid : (head :: l ++ n :: r).Perm (n :: (head :: l ++ r)) := List.perm_middle
  refine ⟨List.mem_append_left r (show l.getLastD head ∈ head :: l from ?_), ?_,
    (List.nodup_cons.mp (hmid.nodup_iff.mp h.nodup)).1⟩
  · rw [← dropLast_append_getLastD]
    simp
  · cases r <;> simp

/-! ## Going round -/

/-- **Read the other way round**, a ring is a ring. -/
theorem IsRing.reverse {head : α} {xs : List α} (h : IsRing next prev head xs) :
    IsRing prev next head xs.reverse := by
  refine ⟨((xs.reverse_perm).cons head).nodup_iff.mpr h.nodup, ?_⟩
  have hrev : head :: (xs.reverse ++ [head]) = (head :: (xs ++ [head])).reverse := by simp
  rw [hrev, List.isChain_reverse]
  exact h.linked.imp fun _ _ hab => ⟨hab.2, hab.1⟩

section

variable [DecidableEq α]

/-- What pointers lead through from `a` on before they reach the head, where
it is reached in so many steps. -/
def visits (next : α → Option α) (head : α) : ℕ → α → Option (List α)
  | 0, _ => none
  | n + 1, a => do
    let b ← next a
    if b = head then return []
    return b :: (← visits next head n b)

/-- The way along a chain to the head. -/
theorem visits_of_isChain {head a : α} {r : List α} (hr : head ∉ r)
    (h : (a :: (r ++ [head])).IsChain (Linked next prev)) :
    visits next head (r.length + 1) a = some r := by
  induction r generalizing a with
  | nil =>
    have hnext : next a = some head := (List.isChain_cons_cons.mp h).1.1
    rw [List.length_nil, visits, hnext, Option.bind_eq_bind, Option.bind_some, if_pos rfl]
    rfl
  | cons b r ih =>
    rw [List.cons_append, List.isChain_cons_cons] at h
    have hb : b ≠ head := fun he => hr (he ▸ List.mem_cons_self)
    rw [List.length_cons, visits, h.1.1, Option.bind_eq_bind, Option.bind_some, if_neg hb,
      ih (fun hh => hr (List.mem_cons_of_mem b hh)) h.2]
    rfl

/-- **The `next` pointers lead through the members** and back to the head. -/
theorem IsRing.visits_next {head : α} {xs : List α} (h : IsRing next prev head xs) :
    visits next head (xs.length + 1) head = some xs :=
  visits_of_isChain (List.nodup_cons.mp h.nodup).1 h.linked

/-- **The `prev` pointers lead through the members backwards.** -/
theorem IsRing.visits_prev {head : α} {xs : List α} (h : IsRing next prev head xs) :
    visits prev head (xs.length + 1) head = some xs.reverse := by
  rw [← List.length_reverse]
  exact h.reverse.visits_next

end

end Circular
