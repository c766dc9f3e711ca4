import Mathlib.Data.List.Nodup
import Mathlib.Data.Nat.Notation

/-!
# Linked lists with stable iterators

A doubly linked list as a C++ container sees it: values in order, each in a
node of its own. An iterator names a node, not a position, and goes on
naming it when the node is moved or others come and go; a node gets a name
that was never used.

Using an iterator whose node is not in the list has no result, and neither
has asking an empty list for its last value.
-/

/-- An iterator that is not the end. -/
abbrev Iter := ℕ

/-- **A list of nodes**, front to back. -/
structure StdList (α : Type) where
  nodes : List (Iter × α)
  /-- The name of the next node. -/
  fresh : Iter
  /-- No two nodes have the same name. -/
  nodup : (nodes.map Prod.fst).Nodup
  /-- No node has a name that is still to come. -/
  lt : ∀ n ∈ nodes, n.1 < fresh

namespace StdList

variable {α : Type}

/-- The list without nodes. -/
def empty : StdList α := ⟨[], 0, List.nodup_nil, nofun⟩

/-- `size` -/
def size (s : StdList α) : ℕ := s.nodes.length

/-- `begin`, on a list that is not empty. -/
def begin? (s : StdList α) : Option Iter := s.nodes.head?.map Prod.fst

/-- `back` -/
def back? (s : StdList α) : Option α := s.nodes.getLast?.map Prod.snd

/-- `pop_back` -/
def popBack (s : StdList α) : Option (StdList α) :=
  if s.nodes = [] then none
  else some ⟨s.nodes.dropLast, s.fresh, s.nodup.sublist ((List.dropLast_sublist _).map _),
    fun n hn => s.lt n (List.dropLast_subset _ hn)⟩

/-- `emplace_front` -/
def emplaceFront (s : StdList α) (v : α) : StdList α :=
  ⟨(s.fresh, v) :: s.nodes, s.fresh + 1,
    List.nodup_cons.mpr ⟨fun hmem => by
      obtain ⟨n, hn, he⟩ := List.mem_map.mp hmem
      exact Nat.lt_irrefl _ (he ▸ s.lt n hn), s.nodup⟩,
    fun n hn => by
      rcases List.mem_cons.mp hn with rfl | hn
      · exact Nat.lt_succ_self _
      · exact Nat.lt_succ_of_lt (s.lt n hn)⟩

/-- Take the node of an iterator out of a list of nodes. -/
def extract (it : Iter) : List (Iter × α) → Option ((Iter × α) × List (Iter × α))
  | [] => none
  | n :: nodes =>
    if n.1 = it then some (n, nodes)
    else (extract it nodes).map fun found => (found.1, n :: found.2)

/-- What is taken out and what is left are what was there. -/
theorem perm_of_extract {it : Iter} {nodes rest : List (Iter × α)} {n : Iter × α}
    (h : extract it nodes = some (n, rest)) : (n :: rest).Perm nodes := by
  induction nodes generalizing rest with
  | nil => cases h
  | cons m nodes ih =>
    rw [extract] at h
    split_ifs at h with he
    · obtain ⟨rfl, rfl⟩ := Prod.mk.inj (Option.some.inj h)
      exact .refl _
    · obtain ⟨⟨n', rest'⟩, hfound, heq⟩ := Option.map_eq_some_iff.mp h
      obtain ⟨rfl, rfl⟩ := Prod.mk.inj heq
      exact (List.Perm.swap m n' rest').trans ((ih hfound).cons m)

/-- `splice` of one node of the list to its front. -/
def spliceFront (s : StdList α) (it : Iter) : Option (StdList α) :=
  match h : extract it s.nodes with
  | none => none
  | some (n, rest) => some ⟨n :: rest, s.fresh,
      ((perm_of_extract h).map Prod.fst).nodup_iff.mpr s.nodup,
      fun m hm => s.lt m ((perm_of_extract h).mem_iff.mp hm)⟩

/-! ## What the operations do -/

/-- The node of an iterator is taken out. -/
theorem extract_append {l r : List (Iter × α)} {n : Iter × α} (h : n.1 ∉ l.map Prod.fst) :
    extract n.1 (l ++ n :: r) = some (n, l ++ r) := by
  induction l with
  | nil => exact if_pos rfl
  | cons m l ih =>
    rw [List.map_cons, List.mem_cons, not_or] at h
    rw [List.cons_append, extract, if_neg (Ne.symm h.1), ih h.2]
    rfl

/-- The nodes before one have other names. -/
theorem not_mem_before (s : StdList α) {l r : List (Iter × α)} {n : Iter × α}
    (h : s.nodes = l ++ n :: r) : n.1 ∉ l.map Prod.fst := by
  have hnd := s.nodup
  rw [h, List.map_append, List.map_cons] at hnd
  exact fun hmem => (List.disjoint_of_nodup_append hnd) hmem List.mem_cons_self

/-- **`splice` moves the node of the iterator to the front.** -/
theorem spliceFront_spec (s : StdList α) {l r : List (Iter × α)} {n : Iter × α}
    (h : s.nodes = l ++ n :: r) :
    ∃ s', s.spliceFront n.1 = some s' ∧ s'.nodes = n :: (l ++ r) := by
  have hextract : extract n.1 s.nodes = some (n, l ++ r) := by
    rw [h]
    exact extract_append (s.not_mem_before h)
  unfold spliceFront
  split
  · next hnone =>
    rw [hextract] at hnone
    cases hnone
  · next m rest hsome =>
    rw [hextract] at hsome
    obtain ⟨rfl, rfl⟩ := Prod.mk.inj (Option.some.inj hsome)
    exact ⟨_, rfl, rfl⟩

/-- **`back` and `pop_back`** are about the last node. -/
theorem popBack_spec (s : StdList α) {l : List (Iter × α)} {n : Iter × α}
    (h : s.nodes = l ++ [n]) :
    s.back? = some n.2 ∧ ∃ s', s.popBack = some s' ∧ s'.nodes = l := by
  refine ⟨?_, ?_⟩
  · rw [back?, h, List.getLast?_concat]
    rfl
  · refine ⟨_, if_neg ?_, ?_⟩
    · rw [h]
      exact List.concat_ne_nil n l
    · show s.nodes.dropLast = l
      rw [h, List.dropLast_concat]

end StdList
