import Mathlib.Data.List.Basic
import Mathlib.Data.Nat.Notation
import Mathlib.Tactic.Common

/-!
# Counting loops that fill tables

A loop `for (i = 0; i < n; i++)` passes a state through its body, which may
have no result. The rule for it is the usual one: what holds before pass `i`
and is carried from each pass to the next holds after the loop.

The nested loop that writes every entry of a two-dimensional table once, at
an index of its own, is the case that comes up (`forUpTo_fill`). A table of
`X` rows and `Y` columns lies flat in a list, entry `r, c` at `r * Y + c`.
-/

namespace Loops

variable {σ α : Type}

/-- `for (i = 0; i < n; i++)` -/
def forUpTo (n : ℕ) (body : ℕ → σ → Option σ) (s : σ) : Option σ :=
  (List.range n).foldlM (fun s i => body i s) s

/-- `xs[n] = x`, where there is such an entry. -/
def write (xs : List α) (n : ℕ) (x : α) : Option (List α) :=
  if n < xs.length then some (xs.set n x) else none

/-! ## Flat indices -/

/-- The flat index of an entry lies in the table. -/
theorem flat_lt {r c X Y : ℕ} (hr : r < X) (hc : c < Y) : r * Y + c < X * Y :=
  calc r * Y + c < r * Y + Y := Nat.add_lt_add_left hc _
    _ = (r + 1) * Y := (Nat.succ_mul r Y).symm
    _ ≤ X * Y := Nat.mul_le_mul_right Y hr

/-- The flat index of an entry determines its row and its column. -/
theorem flat_injective {r c r' c' Y : ℕ} (hc : c < Y) (hc' : c' < Y)
    (h : r * Y + c = r' * Y + c') : r = r' ∧ c = c' := by
  have hY : 0 < Y := Nat.zero_lt_of_lt hc
  have hr : r = r' := by
    have := congrArg (· / Y) h
    simpa [Nat.add_comm, Nat.add_mul_div_right _ _ hY, Nat.div_eq_of_lt hc,
      Nat.div_eq_of_lt hc'] using this
  subst hr
  exact ⟨rfl, Nat.add_left_cancel h⟩

/-- The last of the flat indices bounds the size. -/
theorem le_of_flat_lt {X Y N : ℕ} (h : ∀ r < X, ∀ c < Y, r * Y + c < N) : X * Y ≤ N := by
  by_contra hlt
  have hN : N < X * Y := Nat.not_le.mp hlt
  have hY : 0 < Y := Nat.pos_of_mul_pos_left (Nat.zero_lt_of_lt hN)
  have := h (N / Y) (Nat.div_lt_of_lt_mul (by rwa [Nat.mul_comm])) (N % Y) (Nat.mod_lt _ hY)
  rw [Nat.mul_comm, Nat.div_add_mod] at this
  exact Nat.lt_irrefl _ this

/-! ## Loops -/

/-- One pass more. -/
theorem forUpTo_succ (n : ℕ) (body : ℕ → σ → Option σ) (s : σ) :
    forUpTo (n + 1) body s = (forUpTo n body s).bind (body n) := by
  unfold forUpTo
  rw [List.range_succ, List.foldlM_append]
  simp only [List.foldlM_cons, List.foldlM_nil, Option.bind_eq_bind, Option.pure_def]
  exact Option.bind_congr fun s _ => Option.bind_fun_some (body n s)

/-- **The rule for a loop**: `P i` holds before pass `i`. -/
theorem forUpTo_rule {n : ℕ} {f : ℕ → σ → Option σ} {s : σ} {P : ℕ → σ → Prop} (h₀ : P 0 s)
    (hbody : ∀ i < n, ∀ s, P i s → ∃ s', f i s = some s' ∧ P (i + 1) s') :
    ∃ s', forUpTo n f s = some s' ∧ P n s' := by
  induction n with
  | zero => exact ⟨s, rfl, h₀⟩
  | succ n ih =>
    obtain ⟨s', hs', hP⟩ := ih fun i hi => hbody i (Nat.lt_succ_of_lt hi)
    obtain ⟨s'', hs'', hP'⟩ := hbody n (Nat.lt_succ_self n) s' hP
    exact ⟨s'', by rw [forUpTo_succ, hs', Option.bind_some, hs''], hP'⟩

/-- **What every pass keeps** holds after a loop that has come to its
end. -/
theorem forUpTo_inv {n : ℕ} {f : ℕ → σ → Option σ} {s s' : σ} {P : σ → Prop} (h₀ : P s)
    (hbody : ∀ i < n, ∀ s s', P s → f i s = some s' → P s') (h : forUpTo n f s = some s') :
    P s' := by
  induction n generalizing s' with
  | zero => exact Option.some.inj h ▸ h₀
  | succ n ih =>
    rw [forUpTo_succ] at h
    obtain ⟨t, ht, h⟩ := Option.bind_eq_some_iff.mp h
    exact hbody n (Nat.lt_succ_self n) t s'
      (ih (fun i hi => hbody i (Nat.lt_succ_of_lt hi)) ht) h

/-- **Every pass has a result** in a loop that has come to its end. -/
theorem exists_of_forUpTo {n : ℕ} {f : ℕ → σ → Option σ} {s s' : σ}
    (h : forUpTo n f s = some s') {i : ℕ} (hi : i < n) : ∃ t t', f i t = some t' := by
  induction n generalizing s' with
  | zero => exact absurd hi (Nat.not_lt_zero i)
  | succ n ih =>
    rw [forUpTo_succ] at h
    obtain ⟨t, ht, h⟩ := Option.bind_eq_some_iff.mp h
    rcases Nat.lt_succ_iff_lt_or_eq.mp hi with hi | rfl
    · exact ih ht hi
    · exact ⟨t, s', h⟩

/-- **A loop that puts down a list in each pass** puts them down in order. -/
theorem forUpTo_append {n : ℕ} {f : ℕ → List α → Option (List α)} {g : ℕ → List α}
    (hbody : ∀ i < n, ∀ s, f i s = some (s ++ g i)) (s : List α) :
    forUpTo n f s = some (s ++ (List.range n).flatMap g) := by
  obtain ⟨s', hs', rfl⟩ := forUpTo_rule (n := n) (f := f) (s := s)
    (P := fun i s' => s' = s ++ (List.range i).flatMap g) (by simp) (by
      rintro i hi t rfl
      refine ⟨_, hbody i hi _, ?_⟩
      rw [List.range_succ, List.flatMap_append, List.append_assoc, List.flatMap_singleton])
  exact hs'

/-- **Filling a table**: a nested loop that writes the value of entry `i, j`
at the index `e i j`, different for different entries, leaves all values
there, and every other entry as it was. -/
theorem forUpTo_fill {X Y N : ℕ} {e : ℕ → ℕ → ℕ} {v : ℕ → ℕ → α}
    {f : ℕ → ℕ → List α → Option (List α)} {l : List α} (hl : l.length = N)
    (hlt : ∀ i < X, ∀ j < Y, e i j < N)
    (hinj : ∀ i < X, ∀ j < Y, ∀ i' < X, ∀ j' < Y, e i j = e i' j' → i = i' ∧ j = j')
    (hbody : ∀ i < X, ∀ j < Y, ∀ xs : List α, xs.length = N →
      f i j xs = write xs (e i j) (v i j)) :
    ∃ xs', forUpTo X (fun i => forUpTo Y (f i)) l = some xs' ∧ xs'.length = N
      ∧ (∀ i < X, ∀ j < Y, xs'[e i j]? = some (v i j))
      ∧ ∀ n, (∀ i < X, ∀ j < Y, e i j ≠ n) → xs'[n]? = l[n]? := by
  -- the entries written are those of the rows before `i`, and of row `i` up to `j`
  let P (i j : ℕ) (xs : List α) : Prop := (xs.length = N ∧
      ∀ i' < X, ∀ j' < Y, i' < i ∨ (i' = i ∧ j' < j) → xs[e i' j']? = some (v i' j'))
    ∧ ∀ n, (∀ i < X, ∀ j < Y, e i j ≠ n) → xs[n]? = l[n]?
  have hrow : ∀ i < X, ∀ xs, P i 0 xs →
      ∃ xs', forUpTo Y (f i) xs = some xs' ∧ P (i + 1) 0 xs' := by
    intro i hi xs hP
    obtain ⟨xs', hloop, ⟨hlen, hval⟩, hrest⟩ := forUpTo_rule (P := P i) (f := f i) (n := Y) hP (by
      intro j hj xs hP
      obtain ⟨⟨hlen, hval⟩, hrest⟩ := hP
      refine ⟨xs.set (e i j) (v i j), ?_, ⟨?_, ?_⟩, fun n hn => ?_⟩
      · rw [hbody i hi j hj xs hlen, write, if_pos (by rw [hlen]; exact hlt i hi j hj)]
      · rw [List.length_set, hlen]
      · intro i' hi' j' hj' hw
        by_cases he : e i j = e i' j'
        · obtain ⟨rfl, rfl⟩ := hinj i hi j hj i' hi' j' hj' he
          exact List.getElem?_set_self (by rw [hlen]; exact hlt i hi j hj)
        · rw [List.getElem?_set_ne he]
          refine hval i' hi' j' hj' (hw.imp_right fun hw => ⟨hw.1, ?_⟩)
          obtain ⟨rfl, hj''⟩ := hw
          exact Nat.lt_of_le_of_ne (Nat.le_of_lt_succ hj'') fun h => he (by rw [h])
      · rw [List.getElem?_set_ne (hn i hi j hj), hrest n hn])
    refine ⟨xs', hloop, ⟨hlen, ?_⟩, hrest⟩
    intro i' hi' j' hj' hw
    refine hval i' hi' j' hj' ?_
    rcases hw with hw | ⟨-, hw⟩
    · rcases Nat.lt_succ_iff_lt_or_eq.mp hw with h | h
      · exact Or.inl h
      · exact Or.inr ⟨h, hj'⟩
    · exact absurd hw (Nat.not_lt_zero _)
  obtain ⟨xs', hloop, ⟨hlen, hval⟩, hrest⟩ := forUpTo_rule (P := fun i => P i 0)
    (f := fun i => forUpTo Y (f i)) (n := X) (s := l) ⟨⟨hl, by
      rintro i' - j' - (h | ⟨-, h⟩)
      · exact absurd h (Nat.not_lt_zero _)
      · exact absurd h (Nat.not_lt_zero _)⟩, fun _ _ => rfl⟩ hrow
  exact ⟨xs', hloop, hlen, fun i hi j hj => hval i hi j hj (Or.inl hi), hrest⟩

end Loops
