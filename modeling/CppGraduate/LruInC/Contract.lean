import CppGraduate.LruInC.Refinement

/-!
# The contract of lru-in-c

What `lru.h` promises, over whole runs from `lru_create`. A run whose
arguments are valid and whose allocations succeed answers as the textbook
cache does, and leaves the list, the index and the size in step with it. A
call that fails leaves the cache as it was, so nothing that follows can
tell that it was made.
-/

namespace LruInC

open Lru (Request Answer)

/-- A sequence of calls on the reference cache. -/
def specRun (c : ℕ) (r : Lru.State PageId Page) :
    List Call → List Outcome × Lru.State PageId Page
  | [] => ([], r)
  | call :: calls =>
    let (out, r) := specCall c r call
    let (outs, r) := specRun c r calls
    (out :: outs, r)

/-- **Every run does what its specification says.** -/
theorem runCalls_spec {c : ℕ} (calls : List Call) {s : State} {r : Lru.State PageId Page}
    (h : Refines c s r) :
    ∃ s', runCalls calls s = some ((specRun c r calls).1, s')
      ∧ Refines c s' (specRun c r calls).2 := by
  induction calls generalizing s r with
  | nil => exact ⟨s, rfl, h⟩
  | cons call calls ih =>
    obtain ⟨s₁, he, h₁, -⟩ := lookupUpdate_spec h call
    obtain ⟨s₂, hes, h₂⟩ := ih h₁
    refine ⟨s₂, ?_, h₂⟩
    simp only [runCalls, he, hes, Option.bind_eq_bind, Option.bind_some]
    rfl

/-! ## Runs without failures -/

/-- The call that makes a request with valid arguments and allocations
that succeed; `value` is what `*value` held before. -/
def Call.ofRequest (q : Request PageId Page) (value : Page) : Call :=
  ⟨true, q.key, some q.load, some value, ⟨true, true, true⟩⟩

/-- Without failures the specification of a call is one request. -/
theorem specCall_ofRequest (c : ℕ) (r : Lru.State PageId Page) (q : Request PageId Page)
    (value : Page) :
    specCall c r (.ofRequest q value)
      = (outcomeOf q.key (r.request c q).1, (r.request c q).2) := by
  simp only [specCall, Call.ofRequest, Mallocs.all, Bool.and_self, or_true, if_true]

/-- Without failures the specification of a run is the run of the textbook
cache. -/
theorem specRun_ofRequest (c : ℕ) (r : Lru.State PageId Page)
    (qs : List (Request PageId Page × Page)) :
    specRun c r (qs.map fun q => .ofRequest q.1 q.2)
      = (List.zipWith (fun q a => outcomeOf q.1.key a) qs (r.run c (qs.map Prod.fst)).1,
          (r.run c (qs.map Prod.fst)).2) := by
  induction qs generalizing r with
  | nil => rfl
  | cons q qs ih =>
    rw [List.map_cons, specRun, specCall_ofRequest]
    simp only [ih]
    rfl

/-- At capacity zero a call without failures changes nothing. -/
theorem lookupUpdate_zero {s : State} (hs : s.cache.capacity = 0)
    (q : Request PageId Page) (value : Page) :
    lookupUpdate (.ofRequest q value) s
      = some (⟨.miss, some (q.load q.key), [q.key]⟩, s) := by
  simp only [lookupUpdate, Call.ofRequest, hs, if_true]

/-- At capacity zero a run without failures changes nothing. -/
theorem runCalls_zero {s : State} (hs : s.cache.capacity = 0)
    (qs : List (Request PageId Page × Page)) :
    runCalls (qs.map fun q => .ofRequest q.1 q.2) s
      = some (qs.map fun q => ⟨.miss, some (q.1.load q.1.key), [q.1.key]⟩, s) := by
  induction qs with
  | nil => rfl
  | cons q qs ih =>
    rw [List.map_cons, runCalls, lookupUpdate_zero hs]
    simp only [Option.bind_eq_bind, Option.bind_some, ih]
    rfl

/-- **lru-in-c refines the textbook LRU list.** From `lru_create`, every
sequence of calls with valid arguments and no allocation failure is
answered as the textbook cache answers – hit or miss, the page of the last
miss of the key, one loader call on a miss and none on a hit – and at its
end the recency list read front to back is the reference list, the index
maps exactly its keys to their own nodes, and `size` is its length, at most
`c`. At capacity zero every call is a miss that loads its page and changes
nothing. -/
theorem runCalls_refines_lru {c : ℕ} {mallocs : CreateMallocs} {s₀ : State}
    (hcreate : lruCreate mallocs c = some s₀) (qs : List (Request PageId Page × Page)) :
    ∃ s, runCalls (qs.map fun q => .ofRequest q.1 q.2) s₀
        = some (List.zipWith (fun q a => outcomeOf q.1.key a) qs
            (Lru.State.empty.run c (qs.map Prod.fst)).1, s)
      ∧ Refines c s (Lru.State.empty.run c (qs.map Prod.fst)).2
      ∧ (c = 0 → s = s₀ ∧ (runCalls (qs.map fun q => .ofRequest q.1 q.2) s₀).map Prod.fst
          = some (qs.map fun q => ⟨.miss, some (q.1.load q.1.key), [q.1.key]⟩)) := by
  have h₀ := lruCreate_spec hcreate
  obtain ⟨s, he, hr⟩ := runCalls_spec (qs.map fun q => .ofRequest q.1 q.2) h₀
  rw [specRun_ofRequest] at he hr
  refine ⟨s, he, hr, fun hc => ?_⟩
  have hz := runCalls_zero (h₀.capacity.trans hc) qs
  refine ⟨?_, by rw [hz, Option.map_some]⟩
  rw [he] at hz
  exact (Prod.mk.inj (Option.some.inj hz)).2

/-- The capacity-two run of the component test: a hit keeps page 1 resident
when page 3 drives page 2 out. -/
theorem runCalls_refines_lru_two :
    ∃ s₀ s, lruCreate ⟨true, true, true, true⟩ 2 = some s₀
      ∧ runCalls ([1, 2, 1, 3, 1, 2].map fun k => .ofRequest ⟨k, id⟩ (-7)) s₀
        = some ([⟨.miss, some 1, [1]⟩, ⟨.miss, some 2, [2]⟩, ⟨.hit, some 1, []⟩,
            ⟨.miss, some 3, [3]⟩, ⟨.hit, some 1, []⟩, ⟨.miss, some 2, [2]⟩], s) := by
  obtain ⟨s₀, h₀⟩ := Option.isSome_iff_exists.mp
    (show (lruCreate ⟨true, true, true, true⟩ 2).isSome from rfl)
  obtain ⟨s, he, -⟩ := runCalls_refines_lru h₀
    ([1, 2, 1, 3, 1, 2].map fun k => (⟨k, id⟩, -7))
  exact ⟨s₀, s, h₀, he⟩

/-! ## Failed calls -/

/-- The states a cache of capacity `c` can be in: calls may have any
arguments and any of their allocations may fail. -/
inductive Reachable (c : ℕ) : State → Prop
  | create {mallocs : CreateMallocs} {s : State} :
      lruCreate mallocs c = some s → Reachable c s
  | call {s s' : State} {call : Call} {out : Outcome} :
      Reachable c s → lookupUpdate call s = some (out, s') → Reachable c s'

/-- A reachable state refines a reference cache. -/
theorem Reachable.refines {c : ℕ} {s : State} (h : Reachable c s) :
    ∃ r, Refines c s r := by
  induction h with
  | create hc => exact ⟨_, lruCreate_spec hc⟩
  | @call s s' call out _ he ih =>
    obtain ⟨r, hr⟩ := ih
    obtain ⟨s₁, he₁, hr₁, -⟩ := lookupUpdate_spec hr call
    rw [he] at he₁
    obtain rfl := (Prod.mk.inj (Option.some.inj he₁)).2
    exact ⟨_, hr₁⟩

/-- The arguments of a call are valid. -/
def Call.Valid (call : Call) : Prop :=
  call.cache = true ∧ call.value.isSome ∧ call.slowGetPage.isSome

/-- When the specification of a call reports each error, and that it then
writes nothing, loads nothing and keeps the reference cache. -/
theorem specCall_errors (c : ℕ) (r : Lru.State PageId Page) (call : Call) :
    (specCall c r call).1.result ≠ .indexError
      ∧ ((specCall c r call).1.result = .invalidArgument ↔ ¬ call.Valid)
      ∧ ((specCall c r call).1.result = .noMemory ↔ call.Valid ∧ c ≠ 0 ∧ call.key ∉ r.keys
          ∧ call.mallocs.all = false)
      ∧ ((specCall c r call).1.result = .noMemory ∨
          (specCall c r call).1.result = .invalidArgument →
        (specCall c r call).1.value = call.value ∧ (specCall c r call).1.loads = []
          ∧ (specCall c r call).2 = r) := by
  obtain ⟨cache, key, load, value, mallocs⟩ := call
  cases cache <;> cases value <;> cases load <;> simp only [specCall, Call.Valid] <;>
    try simp
  case true.some.some value load =>
    split_ifs with hc
    · have hres : ∀ a : Answer Page, (outcomeOf key a).result = .hit ∨
          (outcomeOf key a).result = .miss := fun a => by
        cases ha : a.hit <;> simp [outcomeOf, ha]
      rcases hres (r.request c ⟨key, load⟩).1 with h | h <;> rw [h] <;> simp <;> tauto
    · simpa [not_or] using hc

/-- **A failed call is atomic.** In every reachable state and for every
call: `LRU_INDEX_ERROR` is not returned, `LRU_INVALID_ARGUMENT` is returned
exactly on a `NULL` argument, `LRU_NO_MEMORY` exactly when a miss that has
to store its page fails an allocation; and in the last two cases `*value`
is unchanged, the loader was not called, the blocks, the index and the
cache object are as before, and every later sequence of calls has the
outcomes it would have had without the failed one. -/
theorem lookupUpdate_failure_atomic {c : ℕ} {s : State} (hs : Reachable c s) (call : Call) :
    ∃ out s', lookupUpdate call s = some (out, s')
      ∧ out.result ≠ .indexError
      ∧ (out.result = .invalidArgument ↔ ¬ call.Valid)
      ∧ (out.result = .noMemory ↔ call.Valid ∧ s.cache.capacity ≠ 0
          ∧ hashMapFind s.cache.index call.key = none ∧ call.mallocs.all = false)
      ∧ (out.result = .noMemory ∨ out.result = .invalidArgument →
        out.value = call.value ∧ out.loads = [] ∧ SameContents s s'
          ∧ ∀ calls, (runCalls calls s').map Prod.fst = (runCalls calls s).map Prod.fst) := by
  obtain ⟨r, hr⟩ := hs.refines
  obtain ⟨s', he, hr', hsame⟩ := lookupUpdate_spec hr call
  obtain ⟨hidx, hinv, hmem, herr⟩ := specCall_errors c r call
  have hfind : hashMapFind s.cache.index call.key = none ↔ call.key ∉ r.keys := by
    obtain ⟨node, hrep⟩ := hr.represents
    rw [hrep.index]
    split_ifs with hk <;> simp [hk]
  refine ⟨_, s', he, hidx, hinv, ?_, fun hfail => ?_⟩
  · rw [hmem, hr.capacity, hfind]
  · obtain ⟨hval, hloads, href⟩ := herr hfail
    refine ⟨hval, hloads, hsame ?_ ?_, fun calls => ?_⟩
    · rcases hfail with h | h <;> rw [h] <;> decide
    · rcases hfail with h | h <;> rw [h] <;> decide
    · obtain ⟨_, h₁, -⟩ := runCalls_spec calls hr
      obtain ⟨_, h₂, -⟩ := runCalls_spec calls (href ▸ hr')
      rw [h₁, h₂, Option.map_some, Option.map_some]

/-- A miss whose last allocation fails, on a new cache of capacity one: the
entry and the list node are taken back. -/
theorem lookupUpdate_failure_atomic_index :
    ∃ s₀ out s', lruCreate ⟨true, true, true, true⟩ 1 = some s₀
      ∧ lookupUpdate ⟨true, 5, some id, some 7, ⟨true, true, false⟩⟩ s₀ = some (out, s')
      ∧ out.result ≠ .indexError ∧ SameContents s₀ s' := by
  obtain ⟨s₀, h₀⟩ := Option.isSome_iff_exists.mp
    (show (lruCreate ⟨true, true, true, true⟩ 1).isSome from rfl)
  have hr := lruCreate_spec h₀
  obtain ⟨out, s', he, hidx, -, hmem, herr⟩ := lookupUpdate_failure_atomic (.create h₀)
    ⟨true, 5, some id, some 7, ⟨true, true, false⟩⟩
  have hfind : hashMapFind s₀.cache.index 5 = none := by
    obtain ⟨node, hrep⟩ := hr.represents
    exact hrep.index 5
  have hfail := hmem.mpr ⟨⟨rfl, rfl, rfl⟩, by rw [hr.capacity]; decide, hfind, rfl⟩
  exact ⟨s₀, out, s', h₀, he, hidx, (herr (.inl hfail)).2.2.1⟩

end LruInC
