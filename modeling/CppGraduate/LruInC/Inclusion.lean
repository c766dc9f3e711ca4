import CppGraduate.LruInC.Contract
import CppGraduate.LruInC.Main

/-!
# Caches of different capacities

Two caches of lru-in-c are fed the same requests. They evict at different
moments, but the smaller one always holds the beginning of what the larger
one holds. So `main` may create a cache with no more slots than there are
requests: the hits are those of the capacity that was asked for.
-/

namespace LruInC

open Lru (Request Answer)

/-! ## Reading a cache -/

/-- **The recency list of a cache**, read front to back: its nodes lead to
entries with these keys. -/
def RecencyOrder (s : State) (keys : List PageId) : Prop :=
  ∃ nodes, IsList s.nodes s.cache.recency nodes
    ∧ List.Forall₂ (fun n k => ∃ e v, valueOf s.nodes n = some (some e)
        ∧ s.entries.read e = some ⟨some k, v⟩) nodes keys

/-- What a cache represents is the order of its list. -/
theorem Represents.recencyOrder {s : State} {node : PageId → Addr} {keys : List PageId}
    {page : PageId → Option Page} (h : Represents s node keys page) : RecencyOrder s keys := by
  refine ⟨keys.map node, h.list, ?_⟩
  rw [List.forall₂_map_left_iff, List.forall₂_same]
  intro k hk
  obtain ⟨e, p, hv, hr, -⟩ := h.payload k hk
  exact ⟨e, some p, hv, hr⟩

/-- A key is resident: the index has it. -/
def Resident (s : State) (key : PageId) : Prop := (hashMapFind s.cache.index key).isSome

/-- The resident keys are those of the reference. -/
theorem Refines.resident_iff {c : ℕ} {s : State} {r : Lru.State PageId Page}
    (h : Refines c s r) (key : PageId) : Resident s key ↔ key ∈ r.keys := by
  obtain ⟨node, hrep⟩ := h.represents
  unfold Resident
  rw [hrep.index]
  split_ifs with hk <;> simp [hk]

/-- How many calls were hits. -/
def hitCount (outs : List Outcome) : ℕ := outs.countP fun out => out.result = .hit

/-! ## Runs of requests -/

/-- **A run of requests** from a new cache: the outcomes are those of the
reference, and so is what the cache holds. -/
theorem runCalls_of_create {c : ℕ} {mallocs : CreateMallocs} {s₀ : State}
    (h : lruCreate mallocs c = some s₀) (qs : List (Request PageId Page × Page)) :
    ∃ s, runCalls (qs.map fun q => .ofRequest q.1 q.2) s₀
        = some (List.zipWith (fun q a => outcomeOf q.1.key a) qs
            (Lru.State.empty.run c (qs.map Prod.fst)).1, s)
      ∧ Refines c s (Lru.State.empty.run c (qs.map Prod.fst)).2 := by
  obtain ⟨s, he, hr⟩ := runCalls_spec (qs.map fun q => .ofRequest q.1 q.2) (lruCreate_spec h)
  rw [specRun_ofRequest] at he hr
  exact ⟨s, he, hr⟩

/-- An outcome is a hit where the answer is one. -/
theorem outcomeOf_hit_iff (key : PageId) (a : Answer Page) :
    (outcomeOf key a).result = .hit ↔ a.hit = true := by
  unfold outcomeOf
  cases a.hit <;> simp

/-- There is an answer to every request. -/
theorem length_run (c : ℕ) (s : Lru.State PageId Page) (qs : List (Request PageId Page)) :
    (s.run c qs).1.length = qs.length := by
  induction qs generalizing s with
  | nil => rfl
  | cons q qs ih => exact congrArg (· + 1) (ih (s.request c q).2)

/-- What holds of the hits among the answers holds of those among the
outcomes. -/
theorem forall₂_outcomeOf {qs : List (Request PageId Page × Page)} {as as' : List (Answer Page)}
    (h : List.Forall₂ (fun a a' => a.hit = true → a'.hit = true) as as') :
    List.Forall₂ (fun out out' : Outcome => out.result = .hit → out'.result = .hit)
      (List.zipWith (fun q a => outcomeOf q.1.key a) qs as)
      (List.zipWith (fun q a => outcomeOf q.1.key a) qs as') := by
  induction h generalizing qs with
  | nil => simp
  | cons hab _ ih =>
    cases qs with
    | nil => simp
    | cons q qs =>
      simp only [List.zipWith_cons_cons]
      refine .cons ?_ ih
      rw [outcomeOf_hit_iff, outcomeOf_hit_iff]
      exact hab

/-- The hits are counted the same in outcomes and in answers. -/
theorem hitCount_outcomeOf {qs : List (Request PageId Page × Page)} {as : List (Answer Page)}
    (h : as.length = qs.length) :
    hitCount (List.zipWith (fun q a => outcomeOf q.1.key a) qs as) = Lru.hits as := by
  unfold hitCount Lru.hits
  induction as generalizing qs with
  | nil => simp
  | cons a as ih =>
    cases qs with
    | nil => simp at h
    | cons q qs =>
      simp only [List.zipWith_cons_cons, List.countP_cons, outcomeOf_hit_iff, decide_eq_true_eq]
      rw [ih (Nat.succ.inj h)]

/-! ## Inclusion and the clamp -/

/-- `main` takes the smaller of the two. -/
theorem toNat_limit {capacity count : Int64} (hcap : 0 ≤ capacity) (hcount : 0 ≤ count) :
    (limit capacity count).toNat = min capacity.toInt.toNat count.toInt.toNat := by
  have hc : 0 ≤ capacity.toInt := Int64.le_iff_toInt_le.mp hcap
  have hn : 0 ≤ count.toInt := Int64.le_iff_toInt_le.mp hcount
  unfold limit
  split_ifs with hlt
  · have hle := Int64.lt_iff_toInt_lt.mp hlt
    rw [Int64.toNat_toUInt64_of_le hcap, ← Int64.toNat_toInt]
    omega
  · have hle := (not_congr Int64.lt_iff_toInt_lt).mp hlt
    rw [Int64.toNat_toUInt64_of_le hcount, ← Int64.toNat_toInt]
    omega

/-- **Inclusion and the clamp.** For capacities `k ≤ k'` and after every
sequence of requests, the smaller cache holds the first `k` keys of the
recency order of the larger one, and its hits were hits there. The cache
that `main` creates for `n` requests, of capacity `min capacity n`, has the
hits of the reference of the requested capacity, and as many as a cache of
that capacity, if there can be one. -/
theorem runCalls_inclusion :
    (∀ {k k' : ℕ}, k ≤ k' → ∀ {mallocs mallocs' : CreateMallocs} {s₀ s₀' : State},
      lruCreate mallocs k = some s₀ → lruCreate mallocs' k' = some s₀' →
      ∀ qs : List (Request PageId Page × Page), ∃ outs s outs' s' keys,
        runCalls (qs.map fun q => .ofRequest q.1 q.2) s₀ = some (outs, s)
          ∧ runCalls (qs.map fun q => .ofRequest q.1 q.2) s₀' = some (outs', s')
          ∧ RecencyOrder s' keys ∧ RecencyOrder s (keys.take k)
          ∧ (∀ key, Resident s key ↔ key ∈ keys.take k)
          ∧ List.Forall₂ (fun out out' => out.result = .hit → out'.result = .hit) outs outs')
    ∧ ∀ {capacity count : Int64}, 0 ≤ capacity → 0 ≤ count →
      ∀ {mallocs : CreateMallocs} {s₀ : State},
      lruCreate mallocs (limit capacity count).toNat = some s₀ →
      ∀ qs : List (Request PageId Page × Page), qs.length = count.toInt.toNat →
        (limit capacity count).toNat = min capacity.toInt.toNat qs.length
          ∧ ∃ outs s, runCalls (qs.map fun q => .ofRequest q.1 q.2) s₀ = some (outs, s)
            ∧ hitCount outs
              = Lru.hits (Lru.State.empty.run capacity.toInt.toNat (qs.map Prod.fst)).1
            ∧ ∀ {mallocs' : CreateMallocs} {s₀' : State},
              lruCreate mallocs' capacity.toInt.toNat = some s₀' →
              ∃ outs' s', runCalls (qs.map fun q => .ofRequest q.1 q.2) s₀' = some (outs', s')
                ∧ hitCount outs = hitCount outs' := by
  refine ⟨fun {k k'} hk {_ _ s₀ s₀'} h h' qs => ?_,
    fun {capacity count} hcap hcount {_ s₀} h qs hlen => ?_⟩
  · obtain ⟨s, he, hr⟩ := runCalls_of_create h qs
    obtain ⟨s', he', hr'⟩ := runCalls_of_create h' qs
    obtain ⟨hkeys, hhits⟩ := Lru.State.run_take hk (qs.map Prod.fst)
      (show (Lru.State.empty : Lru.State PageId Page).keys
        = (Lru.State.empty : Lru.State PageId Page).keys.take k from List.take_nil.symm)
      (Nat.zero_le k')
    obtain ⟨node, hrep⟩ := hr.represents
    obtain ⟨node', hrep'⟩ := hr'.represents
    refine ⟨_, s, _, s', _, he, he', hrep'.recencyOrder, ?_, fun key => ?_, forall₂_outcomeOf hhits⟩
    · rw [← hkeys]
      exact hrep.recencyOrder
    · rw [← hkeys]
      exact hr.resident_iff key
  · have hmin : (limit capacity count).toNat = min capacity.toInt.toNat qs.length := by
      rw [toNat_limit hcap hcount, hlen]
    have hcount : ∀ c, hitCount (List.zipWith (fun q a => outcomeOf q.1.key a) qs
        (Lru.State.empty.run c (qs.map Prod.fst)).1)
          = Lru.hits (Lru.State.empty.run c (qs.map Prod.fst)).1 := fun c =>
      hitCount_outcomeOf (by rw [length_run, List.length_map])
    -- no more keys than requests, so the cap on the capacity changes nothing
    have hrun := Lru.State.run_min (P := Page) capacity.toInt.toNat (qs.map Prod.fst)
    rw [List.length_map, ← hmin] at hrun
    obtain ⟨s, he, -⟩ := runCalls_of_create h qs
    refine ⟨hmin, _, s, he, ?_, fun h' => ?_⟩
    · rw [hcount, hrun]
    · obtain ⟨s', he', -⟩ := runCalls_of_create h' qs
      refine ⟨_, s', he', ?_⟩
      rw [hcount, hcount, hrun]

/-- Capacities one and two on the requests 1, 2, 1: the second request for 1
is a hit in the larger cache only, and the smaller one ends with the first
of the larger one's keys. -/
theorem runCalls_inclusion_oneTwo :
    ∃ s₀ s₀' outs s outs' s' keys, lruCreate ⟨true, true, true, true⟩ 1 = some s₀
      ∧ lruCreate ⟨true, true, true, true⟩ 2 = some s₀'
      ∧ runCalls ([1, 2, 1].map fun k => .ofRequest ⟨k, id⟩ 0) s₀ = some (outs, s)
      ∧ runCalls ([1, 2, 1].map fun k => .ofRequest ⟨k, id⟩ 0) s₀' = some (outs', s')
      ∧ RecencyOrder s' keys ∧ RecencyOrder s (keys.take 1) := by
  obtain ⟨s₀, h₀⟩ := Option.isSome_iff_exists.mp
    (show (lruCreate ⟨true, true, true, true⟩ 1).isSome from rfl)
  obtain ⟨s₀', h₀'⟩ := Option.isSome_iff_exists.mp
    (show (lruCreate ⟨true, true, true, true⟩ 2).isSome from rfl)
  obtain ⟨outs, s, outs', s', keys, he, he', hr', hr, -⟩ := runCalls_inclusion.1 (Nat.le_succ 1)
    h₀ h₀' ([1, 2, 1].map fun k => (⟨k, id⟩, 0))
  exact ⟨s₀, s₀', outs, s, outs', s', keys, h₀, h₀', he, he', hr', hr⟩

end LruInC
