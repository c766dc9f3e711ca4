import CppGraduate.LruInC.Inclusion
import CppGraduate.LruInC.Tokens
import Mathlib.Data.List.Perm.Subperm

/-!
# What lru-in-c prints

The program as a whole, on every standard input. An input that begins with
a capacity, a count and as many requests is answered with the number of
hits of the textbook list of the requested capacity; every other input is
answered with a message on standard error and a failure. What follows the
last request is never looked at.

The request loop is followed with the reference cache beside it. Whether it
reaches its end is a matter of the input alone, so the integers it reads
are taken together first, as `readIntegers`.
-/

namespace LruInC

open Lru (Request)

/-! ## Reading several integers -/

/-- The integers that so many calls of `read_integer` return, unless one of
them fails. -/
def readIntegers : ℕ → List UInt8 → Option (List Int64)
  | 0, _ => some []
  | left + 1, input =>
    match readInteger input with
    | (none, _) => none
    | (some x, input) => (readIntegers left input).map (x :: ·)

/-- The white space after a token belongs to the next one as well. -/
theorem readInteger_tail {rest : List UInt8} (hrest : ∀ ch ∈ rest.head?, isspace ch) :
    readInteger rest.tail = readInteger rest := by
  cases rest with
  | nil => rfl
  | cons ch rest =>
    unfold readInteger
    rw [skipSpace, if_pos (hrest ch rfl)]
    rfl

/-- So it makes no difference to the integers that follow. -/
theorem readIntegers_tail {rest : List UInt8} (hrest : ∀ ch ∈ rest.head?, isspace ch) (left : ℕ) :
    readIntegers left rest.tail = readIntegers left rest := by
  cases left with
  | zero => rfl
  | succ left => rw [readIntegers, readInteger_tail hrest, readIntegers]

/-- White space or nothing follows a token. -/
theorem IsToken.isspace_rest {input rest : List UInt8} {z : ℤ} (h : IsToken input z rest) :
    ∀ ch ∈ rest.head?, isspace ch := by
  cases h with
  | mk _ _ _ _ hrest => exact hrest

/-- **The integers read are the tokens the input begins with.** -/
theorem readIntegers_eq_some_iff {left : ℕ} {input : List UInt8} {xs : List Int64} :
    readIntegers left input = some xs ↔ xs.length = left ∧ ∃ rest, Tokens input xs rest := by
  induction left generalizing input xs with
  | zero =>
    constructor
    · intro h
      obtain rfl := Option.some.inj h
      exact ⟨rfl, input, .nil input⟩
    · rintro ⟨hlen, -⟩
      rw [List.eq_nil_of_length_eq_zero hlen, readIntegers]
  | succ left ih =>
    constructor
    · intro h
      rw [readIntegers] at h
      split at h
      · cases h
      · next x input' hread =>
        obtain ⟨xs, hxs, rfl⟩ := Option.map_eq_some_iff.mp h
        obtain ⟨rest, htok, rfl⟩ := isToken_of_readInteger hread
        rw [readIntegers_tail htok.isspace_rest] at hxs
        obtain ⟨hlen, rest', htoks⟩ := ih.mp hxs
        exact ⟨congrArg (· + 1) hlen, rest', .cons htok htoks⟩
    · rintro ⟨hlen, rest', htoks⟩
      cases htoks with
      | nil => cases hlen
      | @cons _ rest _ x xs htok htoks =>
        have hxs := ih.mpr ⟨Nat.succ.inj hlen, rest', htoks⟩
        rw [readIntegers, readInteger_of_isToken htok]
        show (readIntegers left rest.tail).map (x :: ·) = _
        rw [readIntegers_tail htok.isspace_rest, hxs]
        rfl

/-! ## Destroying a cache -/

/-- No more blocks are in a list than addresses were handed out. -/
theorem IsList.length_lt_bound {h : Heap ListNode} {list : Addr} {nodes : List Addr}
    (hl : IsList h list nodes) : nodes.length < h.bound := by
  have hsub : (list :: nodes) ⊆ List.range h.bound := fun a ha => by
    rw [List.mem_range]
    refine Nat.lt_of_not_le fun hle => ?_
    have hr := hl.isSome_read ha
    rw [show h.read a = none from h.fresh a hle] at hr
    cases hr
  have hlen := (List.subperm_of_subset hl.nodup hsub).length_le
  rw [List.length_range] at hlen
  exact hlen

/-- **The loop of `lru_destroy`** evicts every key. -/
theorem evictAll_spec {node : PageId → Addr} {page : PageId → Option Page} {passes : ℕ} {s : State}
    {keys : List PageId} (h : Represents s node keys page) (hp : keys.length < passes) :
    ∃ s', evictAll passes s = some s' ∧ IsList s'.nodes s'.cache.recency [] := by
  induction passes generalizing s keys with
  | zero => exact absurd hp (Nat.not_lt_zero _)
  | succ passes ih =>
    rw [evictAll, listEmpty_spec h.list]
    rcases List.eq_nil_or_concat keys with rfl | ⟨keys, j, rfl⟩
    · exact ⟨s, rfl, h.list⟩
    · rw [List.concat_eq_append] at h hp
      obtain ⟨s₁, hevict, h₁, -⟩ := evictOldest_spec h
      rw [List.length_append] at hp
      obtain ⟨s', hall, hl⟩ := ih h₁ (Nat.lt_of_succ_lt_succ hp)
      have hne : ((keys.concat j).map node).isEmpty = false := by
        rw [List.isEmpty_map, List.isEmpty_eq_false_iff]
        exact List.concat_eq_append ▸ List.concat_ne_nil j keys
      refine ⟨s', ?_, hl⟩
      simp only [hne, Option.bind_eq_bind, Option.bind_some, Bool.false_eq_true, if_false, hevict]
      exact hall

/-- An empty list is destroyed with its sentinel alone. -/
theorem listDestroy_of_nil {h : Heap ListNode} {list : Addr} (hl : IsList h list []) :
    ∃ h', listDestroy list h = some h' := by
  have hr := hl.isSome_read List.mem_cons_self
  refine ⟨h.erase list, ?_⟩
  simp only [listDestroy, removeAll, listEmpty_spec hl, List.isEmpty_nil, Option.bind_eq_bind,
    Option.bind_some, if_true]
  exact Heap.free_of_isSome hr

/-- **`lru_destroy` takes every cache down.** -/
theorem lruDestroy_spec {c : ℕ} {s : State} {r : Lru.State PageId Page} (h : Refines c s r) :
    ∃ left, lruDestroy s = some left := by
  obtain ⟨node, hrep⟩ := h.represents
  have hbound := hrep.list.length_lt_bound
  rw [List.length_map] at hbound
  obtain ⟨s', hall, hl⟩ := evictAll_spec hrep (Nat.lt_succ_of_lt hbound)
  obtain ⟨nodes, hdestroy⟩ := listDestroy_of_nil hl
  refine ⟨(nodes, s'.entries), ?_⟩
  simp only [lruDestroy, hall, hdestroy, Option.bind_eq_bind, Option.bind_some]
  rfl

/-! ## The request loop -/

/-- The request for a page of the program. -/
def request (key : PageId) : Request PageId Page := ⟨key, slowGetPage⟩

/-- **One more hit is counted** without overflow. -/
theorem toInt_hits {hits : Int64} {n left : ℕ} (hn : hits.toInt = n) (hlim : n + (left + 1) < 2 ^ 63)
    (hit : Bool) : (hits + if hit then 1 else 0).toInt = ((n + hit.toNat : ℕ) : ℤ) := by
  rw [Int64.toInt_add, hn]
  cases hit with
  | false =>
    show ((n : ℤ) + 0).bmod (2 ^ 64) = ((n + 0 : ℕ) : ℤ)
    rw [Int.add_zero, Int.bmod_eq_of_le (by omega) (by omega), Nat.add_zero]
  | true =>
    show ((n : ℤ) + 1).bmod (2 ^ 64) = ((n + 1 : ℕ) : ℤ)
    rw [Int.bmod_eq_of_le (by omega) (by omega)]
    rfl

/-- **The request loop** prints the hits of the reference if it can read its
integers, and fails otherwise. -/
theorem requestLoop_spec {c : ℕ} {mallocs : ℕ → Mallocs} (hmallocs : ∀ i, (mallocs i).all)
    (left i : ℕ) {n : ℕ} {hits : Int64} (input : List UInt8) {s : State}
    {r : Lru.State PageId Page} (h : Refines c s r) (hn : hits.toInt = n) (hlim : n + left < 2 ^ 63) :
    ∃ e, requestLoop mallocs left i hits input s = some e
      ∧ (∀ xs, readIntegers left input = some xs →
        e = ⟨toString (n + Lru.hits (r.run c (xs.map request)).1) ++ "\n", "", true⟩)
      ∧ (readIntegers left input = none → e.stdout = "" ∧ e.success = false) := by
  induction left generalizing i n hits input s r with
  | zero =>
    obtain ⟨_, hdestroy⟩ := lruDestroy_spec h
    refine ⟨⟨toString hits.toInt ++ "\n", "", true⟩, ?_, fun xs hxs => ?_, nofun⟩
    · rw [requestLoop, hdestroy]
      rfl
    · obtain rfl := Option.some.inj hxs
      rw [hn]
      rfl
  | succ left ih =>
    rw [requestLoop, readIntegers]
    cases hread : readInteger input with
    | mk found input' =>
    cases found with
    | none =>
      obtain ⟨_, hdestroy⟩ := lruDestroy_spec h
      refine ⟨failWith ("Expected integer at position " ++ toString (i + 1) ++ ".\n"), ?_, nofun,
        fun _ => ⟨rfl, rfl⟩⟩
      simp only [hdestroy, Option.bind_eq_bind, Option.bind_some]
      rfl
    | some key =>
      obtain ⟨s', he, hs', -⟩ := lookupUpdate_spec h ⟨true, key, some slowGetPage, some 0, mallocs i⟩
      have hspec : specCall c r ⟨true, key, some slowGetPage, some 0, mallocs i⟩
          = (outcomeOf key (r.request c (request key)).1, (r.request c (request key)).2) := by
        simp only [specCall, hmallocs i, or_true, if_true]
        rfl
      rw [hspec] at he hs'
      have hresult : ¬ ((outcomeOf key (r.request c (request key)).1).result ≠ .hit
          ∧ (outcomeOf key (r.request c (request key)).1).result ≠ .miss) := by
        unfold outcomeOf
        split_ifs <;> simp
      have hhit := toInt_hits hn hlim (r.request c (request key)).1.hit
      obtain ⟨e, hloop, hsome, hnone⟩ := ih (i + 1) input' hs' hhit (by
        have := Bool.toNat_le (r.request c (request key)).1.hit
        omega)
      refine ⟨e, ?_, fun xs hxs => ?_, fun hnil => hnone (Option.map_eq_none_iff.mp hnil)⟩
      · simp only [he, Option.bind_eq_bind, Option.bind_some, hresult, if_false]
        simp only [outcomeOf_hit_iff]
        exact hloop
      · obtain ⟨xs, hleft, rfl⟩ := Option.map_eq_some_iff.mp hxs
        rw [hsome xs hleft, Nat.add_assoc, List.map_cons, Lru.State.hits_run_cons]

/-! ## The program -/

/-- **The input of a run that succeeds** begins with a capacity, a count and
as many requests. -/
def WellFormed (input : List UInt8) (capacity : Int64) (keys : List PageId) : Prop :=
  0 ≤ capacity ∧ ∃ count : Int64, 0 ≤ count ∧ keys.length = count.toInt.toNat
    ∧ ∃ rest, Tokens input (capacity :: count :: keys) rest

/-- Whether an input is well-formed is a matter of the integers read. -/
theorem wellFormed_iff {input : List UInt8} {capacity : Int64} {keys : List PageId} :
    WellFormed input capacity keys ↔ 0 ≤ capacity ∧ ∃ count : Int64, 0 ≤ count
      ∧ readIntegers (count.toInt.toNat + 2) input = some (capacity :: count :: keys) := by
  unfold WellFormed
  simp only [readIntegers_eq_some_iff, List.length_cons, Nat.add_right_cancel_iff]

/-- The first two integers are read before the others. -/
theorem readIntegers_sizes {input input₁ input₂ : List UInt8} {capacity count : Int64}
    (h₁ : readInteger input = (some capacity, input₁))
    (h₂ : readInteger input₁ = (some count, input₂)) (left : ℕ) :
    readIntegers (left + 2) input
      = (readIntegers left input₂).map fun xs => capacity :: count :: xs := by
  rw [readIntegers, h₁]
  show (readIntegers (left + 1) input₁).map (capacity :: ·) = _
  rw [readIntegers, h₂]
  show ((readIntegers left input₂).map (count :: ·)).map (capacity :: ·) = _
  rw [Option.map_map]
  rfl

/-- Every `uint64_t` is a `size_t`. -/
theorem toNat_le_sizeMax (x : UInt64) : x.toNat ≤ sizeMax :=
  Nat.le_pred_of_lt x.toNat_lt

/-- Where several integers are read, the first two are. -/
theorem sizes_of_readIntegers {left : ℕ} {input : List UInt8} {capacity count : Int64}
    {xs : List Int64} (h : readIntegers (left + 2) input = some (capacity :: count :: xs)) :
    ∃ input₁ input₂, readInteger input = (some capacity, input₁)
      ∧ readInteger input₁ = (some count, input₂) ∧ readIntegers left input₂ = some xs := by
  rw [readIntegers] at h
  cases h₁ : readInteger input with
  | mk found input₁ =>
  rw [h₁] at h
  cases found with
  | none => cases h
  | some x =>
  obtain ⟨ys, hys, hxs⟩ := Option.map_eq_some_iff.mp h
  obtain ⟨rfl, rfl⟩ := List.cons.inj hxs
  rw [readIntegers] at hys
  cases h₂ : readInteger input₁ with
  | mk found input₂ =>
  rw [h₂] at hys
  cases found with
  | none => cases hys
  | some y =>
  obtain ⟨zs, hzs, hys⟩ := Option.map_eq_some_iff.mp hys
  obtain ⟨rfl, rfl⟩ := List.cons.inj hys
  exact ⟨input₁, input₂, rfl, h₂, hzs⟩

/-- What `main` does with its first two integers. -/
theorem main_eq {create : CreateMallocs} {mallocs : ℕ → Mallocs} {input input₁ input₂ : List UInt8}
    {capacity count : Int64} (h₁ : readInteger input = (some capacity, input₁))
    (h₂ : readInteger input₁ = (some count, input₂)) (hcap : 0 ≤ capacity) (hcount : 0 ≤ count)
    {s : State} (hs : lruCreate create (limit capacity count).toNat = some s) :
    main create mallocs input = requestLoop mallocs count.toInt.toNat 0 0 input₂ s := by
  have hneg : ¬ (capacity < 0 ∨ count < 0) := by
    rw [not_or, Int64.not_lt, Int64.not_lt]
    exact ⟨hcap, hcount⟩
  simp only [main, h₁, h₂, hneg, if_false, if_pos (toNat_le_sizeMax _), hs]

/-- Without two nonnegative integers there is no cache, and no run to
speak of. -/
theorem main_of_sizes {create : CreateMallocs} {mallocs : ℕ → Mallocs} {input : List UInt8}
    (h : ∀ capacity count : Int64, 0 ≤ capacity → 0 ≤ count →
      readIntegers 2 input ≠ some [capacity, count]) :
    main create mallocs input = some expectedSizes := by
  unfold main
  cases h₁ : readInteger input with
  | mk found input₁ =>
  cases found with
  | none => rfl
  | some capacity =>
  cases h₂ : readInteger input₁ with
  | mk found input₂ =>
  cases found with
  | none => simp only [h₂]
  | some count =>
    have hneg : capacity < 0 ∨ count < 0 := by
      by_contra hnot
      rw [not_or, Int64.not_lt, Int64.not_lt] at hnot
      exact h capacity count hnot.1 hnot.2 (readIntegers_sizes h₁ h₂ 0)
    simp only [h₂, hneg, if_true]

/-- **What lru-in-c prints.** When every allocation succeeds, an input that
begins with a capacity, a count and as many requests – each a decimal token
of 64 bits, the first two not negative – makes the program print the number
of hits of the textbook list of that capacity and a newline, and succeed,
whatever follows. On every other input it prints nothing to standard output
and fails. -/
theorem main_spec {create : CreateMallocs} {mallocs : ℕ → Mallocs}
    (hmallocs : ∀ i, (mallocs i).all) {input : List UInt8}
    (hcreate : ∀ capacity count rest, Tokens input [capacity, count] rest →
      0 ≤ capacity → 0 ≤ count → (lruCreate create (limit capacity count).toNat).isSome) :
    (∀ capacity keys, WellFormed input capacity keys → main create mallocs input
      = some ⟨toString (Lru.hits (Lru.State.empty.run capacity.toInt.toNat (keys.map request)).1)
          ++ "\n", "", true⟩)
    ∧ ((∀ capacity keys, ¬ WellFormed input capacity keys) →
      ∃ e, main create mallocs input = some e ∧ e.stdout = "" ∧ e.success = false) := by
  -- with two nonnegative integers there is a cache, and the requests decide
  have hrun : ∀ {capacity count : Int64} {input₁ input₂ : List UInt8}, 0 ≤ capacity → 0 ≤ count →
      readInteger input = (some capacity, input₁) → readInteger input₁ = (some count, input₂) →
      ∃ e, main create mallocs input = some e
        ∧ (∀ xs, readIntegers count.toInt.toNat input₂ = some xs →
          e = ⟨toString (Lru.hits (Lru.State.empty.run capacity.toInt.toNat (xs.map request)).1)
            ++ "\n", "", true⟩)
        ∧ (readIntegers count.toInt.toNat input₂ = none → e.stdout = "" ∧ e.success = false) := by
    intro capacity count input₁ input₂ hcap hcount h₁ h₂
    obtain ⟨-, rest, htoks⟩ := readIntegers_eq_some_iff.mp (readIntegers_sizes h₁ h₂ 0)
    obtain ⟨s, hs⟩ := Option.isSome_iff_exists.mp (hcreate capacity count rest htoks hcap hcount)
    have hlt := count.toInt_lt
    obtain ⟨e, hloop, hsome, hnone⟩ := requestLoop_spec hmallocs count.toInt.toNat 0 input₂
      (lruCreate_spec hs) (show (0 : Int64).toInt = (0 : ℕ) from rfl) (by omega)
    refine ⟨e, (main_eq h₁ h₂ hcap hcount hs).trans hloop, fun xs hxs => ?_, hnone⟩
    have hmin : (limit capacity count).toNat
        = min capacity.toInt.toNat (xs.map request).length := by
      rw [toNat_limit hcap hcount, List.length_map, (readIntegers_eq_some_iff.mp hxs).1]
    rw [hsome xs hxs, Nat.zero_add, hmin, Lru.State.run_min]
  refine ⟨fun capacity keys hwf => ?_, fun hwf => ?_⟩
  · obtain ⟨hcap, count, hcount, hread⟩ := wellFormed_iff.mp hwf
    obtain ⟨input₁, input₂, h₁, h₂, hkeys⟩ := sizes_of_readIntegers hread
    obtain ⟨e, he, hsome, -⟩ := hrun hcap hcount h₁ h₂
    rw [he, hsome keys hkeys]
  · by_cases hsizes : ∀ capacity count : Int64, 0 ≤ capacity → 0 ≤ count →
        readIntegers 2 input ≠ some [capacity, count]
    · exact ⟨_, main_of_sizes hsizes, rfl, rfl⟩
    · simp only [not_forall, ne_eq, not_not] at hsizes
      obtain ⟨capacity, count, hcap, hcount, hread⟩ := hsizes
      obtain ⟨input₁, input₂, h₁, h₂, -⟩ := sizes_of_readIntegers hread
      obtain ⟨e, he, -, hnone⟩ := hrun hcap hcount h₁ h₂
      refine ⟨e, he, hnone ?_⟩
      by_contra hsome
      obtain ⟨xs, hxs⟩ := Option.ne_none_iff_exists'.mp hsome
      refine hwf capacity xs (wellFormed_iff.mpr ⟨hcap, count, hcount, ?_⟩)
      rw [readIntegers_sizes h₁ h₂, hxs]
      rfl

/-- The input `2 3`, then `1 2 1` on a line of its own and something else:
one hit. -/
theorem main_spec_oneHit :
    main ⟨true, true, true, true⟩ (fun _ => ⟨true, true, true⟩)
        [50, 32, 51, 10, 49, 32, 50, 32, 49, 10, 120]
      = some ⟨"1\n", "", true⟩ := by
  refine (main_spec (fun _ => rfl) (fun capacity count rest htoks _ _ => ?_)).1 2 [1, 2, 1] ?_
  · have hread := readIntegers_eq_some_iff.mpr ⟨rfl, rest, htoks⟩
    obtain ⟨rfl, hxs⟩ := List.cons.inj (Option.some.inj
      ((show readIntegers 2 [50, 32, 51, 10, 49, 32, 50, 32, 49, 10, 120] = some [2, 3] from
        rfl).symm.trans hread))
    obtain ⟨rfl, -⟩ := List.cons.inj hxs
    rfl
  · exact wellFormed_iff.mpr ⟨by decide, 3, by decide, rfl⟩

end LruInC
