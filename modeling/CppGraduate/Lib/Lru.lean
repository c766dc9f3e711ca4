import Mathlib.Data.List.Basic
import Mathlib.Data.List.Nodup
import Mathlib.Data.Nat.Notation
import Mathlib.Logic.Function.Basic

/-!
# The textbook LRU list

The reference every cache here is compared with: a list of resident keys,
most recent first. A request for a resident key moves it to the front, a
request for any other puts it there, and the last key goes when the list
has become longer than the capacity.

The page of a key is the one its last miss loaded. It is kept for every
key that was ever requested, resident or not: which keys are resident is
the list's business alone.
-/

namespace Lru

variable {K P : Type} [DecidableEq K]

/-- **One request on the recency list.** -/
def access (c : ℕ) (keys : List K) (k : K) : List K :=
  if k ∈ keys then k :: keys.erase k
  else if c < (k :: keys).length then (k :: keys).dropLast
  else k :: keys

/-- The reference cache: the resident keys, most recent first, and what
the last miss of each key loaded. -/
structure State (K P : Type) where
  keys : List K
  page : K → Option P

/-- The cache before the first request. -/
def State.empty : State K P := ⟨[], fun _ => none⟩

/-- A request: the key, and the loader that serves it on a miss. -/
structure Request (K P : Type) where
  key : K
  load : K → P

/-- What a request is answered: whether it was a hit, and the page. -/
structure Answer (P : Type) where
  hit : Bool
  page : Option P

/-- **The page table after a request**: a miss replaces the key's page. -/
def State.pageAfter (s : State K P) (q : Request K P) : K → Option P :=
  if q.key ∈ s.keys then s.page
  else Function.update s.page q.key (some (q.load q.key))

/-- **One request**: the answer and the cache after it. -/
def State.request (c : ℕ) (s : State K P) (q : Request K P) : Answer P × State K P :=
  (⟨decide (q.key ∈ s.keys), s.pageAfter q q.key⟩, ⟨access c s.keys q.key, s.pageAfter q⟩)

/-- **A sequence of requests**: the answers in order and the cache at the
end. -/
def State.run (c : ℕ) (s : State K P) : List (Request K P) → List (Answer P) × State K P
  | [] => ([], s)
  | q :: qs =>
    let (a, s) := s.request c q
    let (as, s) := s.run c qs
    (a :: as, s)

/-! ## The recency list after a request -/

/-- A resident key moves to the front. -/
theorem access_of_mem {c : ℕ} {k : K} {l r : List K} (hn : (l ++ k :: r).Nodup) :
    access c (l ++ k :: r) k = k :: (l ++ r) := by
  have hk : k ∉ l := fun hk => (List.disjoint_of_nodup_append hn) hk List.mem_cons_self
  rw [access, if_pos (by simp), List.erase_append_right _ hk, List.erase_cons_head]

/-- With room left a new key is put in front. -/
theorem access_of_lt {c : ℕ} {keys : List K} {k : K} (hk : k ∉ keys)
    (hc : keys.length < c) : access c keys k = k :: keys := by
  rw [access, if_neg hk, if_neg]
  rw [List.length_cons]
  omega

/-- On a full list a new key drives the last one out. -/
theorem access_of_full {c : ℕ} {keys : List K} {k j : K} (hk : k ∉ keys ++ [j])
    (hc : (keys ++ [j]).length = c) : access c (keys ++ [j]) k = k :: keys := by
  rw [access, if_neg hk, if_pos, ← List.cons_append, List.dropLast_concat]
  rw [List.length_cons]
  omega

/-- Nothing is ever resident at capacity zero. -/
theorem access_zero (k : K) : access 0 [] k = [] := rfl

/-- No key is resident twice. -/
theorem nodup_access {c : ℕ} {keys : List K} (hn : keys.Nodup) (k : K) :
    (access c keys k).Nodup := by
  rw [access]
  split_ifs with hk hc
  · exact (List.perm_cons_erase hk).nodup_iff.mp hn
  · exact (List.nodup_cons.mpr ⟨hk, hn⟩).sublist (List.dropLast_sublist _)
  · exact List.nodup_cons.mpr ⟨hk, hn⟩

/-- The capacity is kept. -/
theorem length_access_le {c : ℕ} {keys : List K} (hl : keys.length ≤ c) (k : K) :
    (access c keys k).length ≤ c := by
  rw [access]
  split_ifs with hk hc
  · rw [← (List.perm_cons_erase hk).length_eq]
    exact hl
  · rw [List.length_dropLast, List.length_cons]
    omega
  · omega

/-- A miss stores what it loaded. -/
theorem State.pageAfter_of_not_mem {s : State K P} {q : Request K P} (hk : q.key ∉ s.keys) :
    s.pageAfter q = Function.update s.page q.key (some (q.load q.key)) := if_neg hk

/-! ## Caches of different capacities

With every request a cache of capacity `c` keeps the first `c` of the keys
in the order of their last use. So a smaller cache is at any time the
beginning of a larger one that was fed the same requests, and two caches
that are never full are the same. -/

/-- The first keys of a list without `k`: one more has to be looked at. -/
theorem take_erase_take (keys : List K) (k : K) (m : ℕ) :
    ((keys.take (m + 1)).erase k).take m = (keys.erase k).take m := by
  induction keys generalizing m with
  | nil => rfl
  | cons j keys ih =>
    rw [List.take_succ_cons]
    by_cases hj : j = k
    · subst hj
      rw [List.erase_cons_head, List.erase_cons_head, List.take_take, Nat.min_self]
    · rw [List.erase_cons_tail (by simpa using hj), List.erase_cons_tail (by simpa using hj)]
      cases m with
      | zero => rfl
      | succ m => rw [List.take_succ_cons, List.take_succ_cons, ih]

/-- **A request is a cut**: the key goes in front of the others, and the
capacity says how many stay. -/
theorem access_eq_take {c : ℕ} {keys : List K} (hl : keys.length ≤ c) (k : K) :
    access c keys k = (k :: keys.erase k).take c := by
  rw [access]
  split_ifs with hk hc
  · rw [List.take_of_length_le]
    rw [← (List.perm_cons_erase hk).length_eq]
    exact hl
  · rw [List.erase_of_not_mem hk, List.dropLast_eq_take]
    congr 1
    rw [List.length_cons] at hc ⊢
    omega
  · rw [List.erase_of_not_mem hk, List.take_of_length_le (Nat.le_of_not_lt hc)]

/-- **Inclusion, one request**: the smaller cache stays the beginning of
the larger one. -/
theorem access_take {c c' : ℕ} (h : c ≤ c') {keys : List K} (hl : keys.length ≤ c') (k : K) :
    access c (keys.take c) k = (access c' keys k).take c := by
  rw [access_eq_take (List.length_take_le c keys), access_eq_take hl, List.take_take,
    Nat.min_eq_left h]
  cases c with
  | zero => rfl
  | succ c => rw [List.take_succ_cons, List.take_succ_cons, take_erase_take]

/-- **Inclusion**: the smaller cache is the beginning of the larger one at
the end of the run, and what was a hit in it was a hit in the other. -/
theorem State.run_take {c c' : ℕ} (h : c ≤ c') (qs : List (Request K P)) {s s' : State K P}
    (hs : s.keys = s'.keys.take c) (hl : s'.keys.length ≤ c') :
    (s.run c qs).2.keys = (s'.run c' qs).2.keys.take c
      ∧ List.Forall₂ (fun a a' => a.hit = true → a'.hit = true) (s.run c qs).1 (s'.run c' qs).1 := by
  induction qs generalizing s s' with
  | nil => exact ⟨hs, .nil⟩
  | cons q qs ih =>
    have hkeys : (s.request c q).2.keys = (s'.request c' q).2.keys.take c := by
      show access c s.keys q.key = (access c' s'.keys q.key).take c
      rw [hs, access_take h hl]
    obtain ⟨hrun, hhits⟩ := ih hkeys (length_access_le hl q.key)
    refine ⟨hrun, .cons (fun hhit => ?_) hhits⟩
    have hmem : q.key ∈ s.keys := of_decide_eq_true hhit
    rw [hs] at hmem
    exact decide_eq_true (List.mem_of_mem_take hmem)

/-- With room for one key more the capacity does not show. -/
theorem access_congr {c c' : ℕ} {keys : List K} (hc : keys.length < c) (hc' : keys.length < c')
    (k : K) : access c keys k = access c' keys k := by
  rw [access, access]
  by_cases hk : k ∈ keys
  · rw [if_pos hk, if_pos hk]
  · have hroom : (k :: keys).length = keys.length + 1 := List.length_cons ..
    rw [if_neg hk, if_neg hk, if_neg (by omega), if_neg (by omega)]

/-- A request makes the list longer by one key at most. -/
theorem length_access_le_succ (c : ℕ) (keys : List K) (k : K) :
    (access c keys k).length ≤ keys.length + 1 := by
  rw [access]
  split_ifs with hk
  · rw [← (List.perm_cons_erase hk).length_eq]
    exact Nat.le_succ _
  · rw [List.length_dropLast]
    exact Nat.le_succ _
  · exact Nat.le_refl _

/-- **Room for every request**: two caches that can hold what they hold and
a new key for every request run alike. -/
theorem State.run_congr {c c' : ℕ} (qs : List (Request K P)) {s : State K P}
    (hc : s.keys.length + qs.length ≤ c) (hc' : s.keys.length + qs.length ≤ c') :
    s.run c qs = s.run c' qs := by
  induction qs generalizing s with
  | nil => rfl
  | cons q qs ih =>
    rw [List.length_cons] at hc hc'
    have hstep : s.request c q = s.request c' q := by
      show (_, (⟨access c s.keys q.key, s.pageAfter q⟩ : State K P))
        = (_, ⟨access c' s.keys q.key, s.pageAfter q⟩)
      rw [access_congr (show s.keys.length < c by omega) (show s.keys.length < c' by omega)]
    have hlen : (s.request c' q).2.keys.length ≤ s.keys.length + 1 :=
      length_access_le_succ c' s.keys q.key
    show (let (a, s) := s.request c q; let (as, s) := s.run c qs; (a :: as, s))
      = (let (a, s) := s.request c' q; let (as, s) := s.run c' qs; (a :: as, s))
    rw [hstep]
    simp only [ih (s := (s.request c' q).2) (by omega) (by omega)]

/-- How many of the answers are hits. -/
def hits (answers : List (Answer P)) : ℕ := answers.countP Answer.hit

/-- The hits of a run are the first one and the rest. -/
theorem State.hits_run_cons (c : ℕ) (s : State K P) (q : Request K P) (qs : List (Request K P)) :
    hits (s.run c (q :: qs)).1
      = (s.request c q).1.hit.toNat + hits ((s.request c q).2.run c qs).1 := by
  show List.countP Answer.hit ((s.request c q).1 :: ((s.request c q).2.run c qs).1) = _
  rw [List.countP_cons, Nat.add_comm]
  cases (s.request c q).1.hit <;> rfl

/-- **The clamp**: a capacity beyond the number of requests does not
show. -/
theorem State.run_min (c : ℕ) (qs : List (Request K P)) :
    (State.empty : State K P).run (min c qs.length) qs = State.empty.run c qs := by
  rcases Nat.le_total c qs.length with h | h
  · rw [Nat.min_eq_left h]
  · rw [Nat.min_eq_right h]
    have hroom : ([] : List K).length + qs.length = qs.length := by
      rw [List.length_nil, Nat.zero_add]
    exact State.run_congr qs (Nat.le_of_eq hroom) (by rw [← hroom] at h; exact h)

/-! ## Caches without pages

Where nothing is loaded the recency list is all there is. -/

/-- **A sequence of requests on the recency list**: which were hits, and the
list at the end. -/
def accesses (c : ℕ) (keys : List K) : List K → List Bool × List K
  | [] => ([], keys)
  | k :: ks => (decide (k ∈ keys) :: (accesses c (access c keys k) ks).1,
      (accesses c (access c keys k) ks).2)

/-- It is the run of the reference cache, whatever the loaders are. -/
theorem State.run_eq_accesses (c : ℕ) (s : State K P) (qs : List (Request K P)) :
    ((s.run c qs).1.map Answer.hit, (s.run c qs).2.keys)
      = accesses c s.keys (qs.map Request.key) := by
  induction qs generalizing s with
  | nil => rfl
  | cons q qs ih =>
    rw [List.map_cons, accesses, show access c s.keys q.key = (s.request c q).2.keys from rfl, ← ih]
    rfl

/-- **The clamp**, for a run of at most `n` requests. -/
theorem accesses_min {c n : ℕ} {ks : List K} (h : ks.length ≤ n) :
    accesses (min c n) [] ks = accesses c [] ks := by
  rcases Nat.le_total c n with hc | hc
  · rw [Nat.min_eq_left hc]
  · rw [Nat.min_eq_right hc]
    have hlen : ([] : List K).length + (ks.map fun k => (⟨k, id⟩ : Request K K)).length ≤ n := by
      rw [List.length_map, List.length_nil, Nat.zero_add]
      exact h
    have hkeys : (ks.map fun k => (⟨k, id⟩ : Request K K)).map Request.key = ks := by
      rw [List.map_map]
      exact List.map_id ks
    have hrun := State.run_congr (ks.map fun k => (⟨k, id⟩ : Request K K)) (s := State.empty) hlen
      (Nat.le_trans hlen hc)
    rw [← hkeys]
    refine (State.run_eq_accesses n State.empty _).symm.trans ?_
    rw [hrun]
    exact State.run_eq_accesses c State.empty _

/-- A resident slot: its key comes to the front. -/
theorem access_map_of_mem {c : ℕ} {key : ℕ → K} {l r : List ℕ} {i : ℕ}
    (hn : ((l ++ i :: r).map key).Nodup) :
    access c ((l ++ i :: r).map key) (key i) = (i :: (l ++ r)).map key := by
  rw [List.map_append, List.map_cons] at hn ⊢
  rw [access_of_mem hn, List.map_cons, List.map_append]

end Lru
