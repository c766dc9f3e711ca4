import CppGraduate.Lib.Reading
import CppGraduate.SimplestArith.Grammars

/-!
# The two arithmetic grammars agree

A derivation of the left-recursive grammar is turned into one of the other
grammar by handing the tail derived so far to the left, and back by handing
the sum or the product derived so far to the right. Neither changes the
tokens or the value.

In the grammar without left recursion a derivation can be told from what
follows it, as it is known from the next token whether a tail goes on. So a
token list has one derivation there at most, and therefore one derivation in
the left-recursive grammar.
-/

namespace SimplestArith

/-! ## From left recursion to tails -/

mutual

/-- The derivation without left recursion, of a sum and the tail that follows
it. -/
def LR.EN.before : LR.EN → NLR.EPN → NLR.EN
  | .plus e t, tail => e.before (.plus (t.before .empty) tail)
  | .term t, tail => .mk (t.before .empty) tail

/-- The derivation without left recursion, of a product and the tail that
follows it. -/
def LR.TN.before : LR.TN → NLR.TPN → NLR.TN
  | .mult t f, tail => t.before (.mult f.toNLR tail)
  | .factor f, tail => .mk f.toNLR tail

/-- The derivation without left recursion. -/
def LR.FN.toNLR : LR.FN → NLR.FN
  | .brac e => .brac (e.before .empty)
  | .number n => .number n

end

mutual

/-- A tail moves to the other grammar with its tokens. -/
theorem LR.EN.tokens_before : ∀ (e : LR.EN) (tail : NLR.EPN),
    (e.before tail).tokens = e.tokens ++ tail.tokens
  | .plus e t, tail => by
    rw [EN.before, EN.tokens_before e, NLR.EPN.tokens, TN.tokens_before t, EN.tokens,
      NLR.TPN.tokens, List.append_nil, List.append_assoc, List.cons_append]
  | .term t, tail => by
    rw [EN.before, NLR.EN.tokens, TN.tokens_before t, EN.tokens, NLR.TPN.tokens, List.append_nil]

/-- A tail moves to the other grammar with its tokens. -/
theorem LR.TN.tokens_before : ∀ (t : LR.TN) (tail : NLR.TPN),
    (t.before tail).tokens = t.tokens ++ tail.tokens
  | .mult t f, tail => by
    rw [TN.before, TN.tokens_before t, NLR.TPN.tokens, FN.tokens_toNLR f, TN.tokens,
      List.append_assoc, List.cons_append]
  | .factor f, tail => by
    rw [TN.before, NLR.TN.tokens, FN.tokens_toNLR f, TN.tokens]

/-- The tokens are the same. -/
theorem LR.FN.tokens_toNLR : ∀ f : LR.FN, f.toNLR.tokens = f.tokens
  | .brac e => by
    rw [FN.toNLR, NLR.FN.tokens, EN.tokens_before e, NLR.EPN.tokens, List.append_nil, FN.tokens]
  | .number n => rfl

end

mutual

/-- A tail is added from the right. -/
theorem LR.EN.value_before : ∀ (e : LR.EN) (tail : NLR.EPN),
    (e.before tail).value = e.value + tail.value
  | .plus e t, tail => by
    rw [EN.before, EN.value_before e, NLR.EPN.value, TN.value_before t, EN.value, NLR.TPN.value,
      Int32.mul_one, Int32.add_assoc]
  | .term t, tail => by
    rw [EN.before, NLR.EN.value, TN.value_before t, EN.value, NLR.TPN.value, Int32.mul_one]

/-- A tail is multiplied from the right. -/
theorem LR.TN.value_before : ∀ (t : LR.TN) (tail : NLR.TPN),
    (t.before tail).value = t.value * tail.value
  | .mult t f, tail => by
    rw [TN.before, TN.value_before t, NLR.TPN.value, FN.value_toNLR f, TN.value, Int32.mul_assoc]
  | .factor f, tail => by
    rw [TN.before, NLR.TN.value, FN.value_toNLR f, TN.value]

/-- The value is the same. -/
theorem LR.FN.value_toNLR : ∀ f : LR.FN, f.toNLR.value = f.value
  | .brac e => by
    rw [FN.toNLR, NLR.FN.value, EN.value_before e, NLR.EPN.value, Int32.add_zero, FN.value]
  | .number n => rfl

end

/-! ## And back -/

mutual

/-- The left-recursive derivation. -/
def NLR.EN.toLR : NLR.EN → LR.EN
  | .mk t e => e.after (.term t.toLR)

/-- The left-recursive derivation, of a sum and the tail that follows it. -/
def NLR.EPN.after : NLR.EPN → LR.EN → LR.EN
  | .plus t e, sum => e.after (.plus sum t.toLR)
  | .empty, sum => sum

/-- The left-recursive derivation. -/
def NLR.TN.toLR : NLR.TN → LR.TN
  | .mk f t => t.after (.factor f.toLR)

/-- The left-recursive derivation, of a product and the tail that follows
it. -/
def NLR.TPN.after : NLR.TPN → LR.TN → LR.TN
  | .mult f t, product => t.after (.mult product f.toLR)
  | .empty, product => product

/-- The left-recursive derivation. -/
def NLR.FN.toLR : NLR.FN → LR.FN
  | .brac e => .brac e.toLR
  | .number n => .number n

end

mutual

/-- There and back. -/
theorem LR.EN.toLR_before : ∀ (e : LR.EN) (tail : NLR.EPN), (e.before tail).toLR = tail.after e
  | .plus e t, tail => by
    rw [EN.before, EN.toLR_before e, NLR.EPN.after, TN.toLR_before t, NLR.TPN.after]
  | .term t, tail => by
    rw [EN.before, NLR.EN.toLR, TN.toLR_before t, NLR.TPN.after]

/-- There and back. -/
theorem LR.TN.toLR_before : ∀ (t : LR.TN) (tail : NLR.TPN), (t.before tail).toLR = tail.after t
  | .mult t f, tail => by
    rw [TN.before, TN.toLR_before t, NLR.TPN.after, FN.toLR_toNLR f]
  | .factor f, tail => by
    rw [TN.before, NLR.TN.toLR, FN.toLR_toNLR f]

/-- There and back. -/
theorem LR.FN.toLR_toNLR : ∀ f : LR.FN, f.toNLR.toLR = f
  | .brac e => by
    rw [FN.toNLR, NLR.FN.toLR, EN.toLR_before e, NLR.EPN.after]
  | .number n => rfl

end

mutual

/-- Back and there. -/
theorem NLR.EN.before_toLR : ∀ e : NLR.EN, e.toLR.before .empty = e
  | .mk t e => by
    rw [EN.toLR, EPN.before_after e, LR.EN.before, TN.before_toLR t]

/-- Back and there. -/
theorem NLR.EPN.before_after : ∀ (e : NLR.EPN) (sum : LR.EN),
    (e.after sum).before .empty = sum.before e
  | .plus t e, sum => by
    rw [EPN.after, EPN.before_after e, LR.EN.before, TN.before_toLR t]
  | .empty, sum => rfl

/-- Back and there. -/
theorem NLR.TN.before_toLR : ∀ t : NLR.TN, t.toLR.before .empty = t
  | .mk f t => by
    rw [TN.toLR, TPN.before_after t, LR.TN.before, FN.toNLR_toLR f]

/-- Back and there. -/
theorem NLR.TPN.before_after : ∀ (t : NLR.TPN) (product : LR.TN),
    (t.after product).before .empty = product.before t
  | .mult f t, product => by
    rw [TPN.after, TPN.before_after t, LR.TN.before, FN.toNLR_toLR f]
  | .empty, product => rfl

/-- Back and there. -/
theorem NLR.FN.toNLR_toLR : ∀ f : NLR.FN, f.toLR.toNLR = f
  | .brac e => by
    rw [FN.toLR, LR.FN.toNLR, EN.before_toLR e]
  | .number n => rfl

end

/-! ## One derivation at most -/

/-- What may follow a product. -/
def AfterTN (r : List Token) : Prop := r.head? ≠ some .mult

/-- What may follow a sum. -/
def AfterEN (r : List Token) : Prop := r.head? ≠ some .plus ∧ AfterTN r

/-- What follows a term of a sum. -/
theorem AfterEN.afterTN {r : List Token} (h : AfterEN r) (e : NLR.EPN) :
    AfterTN (e.tokens ++ r) := by
  cases e with
  | plus t e => exact nofun
  | empty => exact h.2

mutual

/-- A sum can be told from what follows it. -/
theorem NLR.EN.readable : ∀ (e e' : NLR.EN) (r r' : List Token), AfterEN r → AfterEN r' →
    e.tokens ++ r = e'.tokens ++ r' → e = e' ∧ r = r'
  | .mk t e, .mk t' e', r, r', hr, hr', h => by
    rw [EN.tokens, EN.tokens, List.append_assoc, List.append_assoc] at h
    obtain ⟨rfl, h₁⟩ := TN.readable t t' _ _ (hr.afterTN e) (hr'.afterTN e') h
    obtain ⟨rfl, h₂⟩ := EPN.readable e e' r r' hr hr' h₁
    exact ⟨rfl, h₂⟩

/-- The rest of a sum can be told from what follows it. -/
theorem NLR.EPN.readable : ∀ (e e' : NLR.EPN) (r r' : List Token), AfterEN r → AfterEN r' →
    e.tokens ++ r = e'.tokens ++ r' → e = e' ∧ r = r'
  | .plus t e, .plus t' e', r, r', hr, hr', h => by
    rw [EPN.tokens, EPN.tokens, List.cons_append, List.cons_append, List.append_assoc,
      List.append_assoc] at h
    obtain ⟨rfl, h₁⟩ := TN.readable t t' _ _ (hr.afterTN e) (hr'.afterTN e')
      (List.tail_eq_of_cons_eq h)
    obtain ⟨rfl, h₂⟩ := EPN.readable e e' r r' hr hr' h₁
    exact ⟨rfl, h₂⟩
  | .plus t e, .empty, r, r', _, hr', h => absurd (congrArg List.head? h).symm hr'.1
  | .empty, .plus t e, r, r', hr, _, h => absurd (congrArg List.head? h) hr.1
  | .empty, .empty, r, r', _, _, h => ⟨rfl, h⟩

/-- A product can be told from what follows it. -/
theorem NLR.TN.readable : ∀ (t t' : NLR.TN) (r r' : List Token), AfterTN r → AfterTN r' →
    t.tokens ++ r = t'.tokens ++ r' → t = t' ∧ r = r'
  | .mk f t, .mk f' t', r, r', hr, hr', h => by
    rw [TN.tokens, TN.tokens, List.append_assoc, List.append_assoc] at h
    obtain ⟨rfl, h₁⟩ := FN.readable f f' _ _ h
    obtain ⟨rfl, h₂⟩ := TPN.readable t t' r r' hr hr' h₁
    exact ⟨rfl, h₂⟩

/-- The rest of a product can be told from what follows it. -/
theorem NLR.TPN.readable : ∀ (t t' : NLR.TPN) (r r' : List Token), AfterTN r → AfterTN r' →
    t.tokens ++ r = t'.tokens ++ r' → t = t' ∧ r = r'
  | .mult f t, .mult f' t', r, r', hr, hr', h => by
    rw [TPN.tokens, TPN.tokens, List.cons_append, List.cons_append, List.append_assoc,
      List.append_assoc] at h
    obtain ⟨rfl, h₁⟩ := FN.readable f f' _ _ (List.tail_eq_of_cons_eq h)
    obtain ⟨rfl, h₂⟩ := TPN.readable t t' r r' hr hr' h₁
    exact ⟨rfl, h₂⟩
  | .mult f t, .empty, r, r', _, hr', h => absurd (congrArg List.head? h).symm hr'
  | .empty, .mult f t, r, r', hr, _, h => absurd (congrArg List.head? h) hr
  | .empty, .empty, r, r', _, _, h => ⟨rfl, h⟩

/-- A factor can be told from whatever follows it. -/
theorem NLR.FN.readable : ∀ (f f' : NLR.FN) (r r' : List Token),
    f.tokens ++ r = f'.tokens ++ r' → f = f' ∧ r = r'
  | .brac e, .brac e', r, r', h => by
    rw [FN.tokens, FN.tokens, List.cons_append, List.cons_append, List.append_assoc,
      List.append_assoc] at h
    have hrbrac : ∀ r, AfterEN ([.rbrac] ++ r) := fun r => ⟨nofun, nofun⟩
    obtain ⟨rfl, h₁⟩ := EN.readable e e' _ _ (hrbrac r) (hrbrac r') (List.tail_eq_of_cons_eq h)
    exact ⟨rfl, List.tail_eq_of_cons_eq h₁⟩
  | .brac e, .number n, r, r', h => nomatch h
  | .number n, .brac e, r, r', h => nomatch h
  | .number n, .number n', r, r', h => by
    obtain ⟨hn, h₁⟩ := List.cons_eq_cons.mp h
    cases hn
    exact ⟨rfl, h₁⟩

end

/-- **A token list has one derivation at most** without left recursion. -/
theorem NLR.EN.tokens_injective : Function.Injective NLR.EN.tokens :=
  Readable.injective (F := AfterEN) NLR.EN.readable ⟨nofun, nofun⟩

/-- **A token list has one left-recursive derivation at most.** -/
theorem LR.EN.tokens_injective : Function.Injective LR.EN.tokens := by
  intro e e' h
  have hback : ∀ e : LR.EN, (e.before .empty).toLR = e := fun e => e.toLR_before .empty
  have htokens : ∀ e : LR.EN, (e.before .empty).tokens = e.tokens := fun e =>
    (e.tokens_before .empty).trans (List.append_nil _)
  rw [← hback e, ← hback e', NLR.EN.tokens_injective ((htokens e).trans (h.trans (htokens e').symm))]

/-- **The two grammars agree**: on the token lists they derive and on the
value of each of them; and each grammar derives a token list in one way at
most. -/
theorem derives_iff (ts : List Token) :
    (∀ v, LR.Derives ts v ↔ NLR.Derives ts v)
    ∧ (∀ e e' : LR.EN, e.tokens = ts → e'.tokens = ts → e = e')
    ∧ ∀ e e' : NLR.EN, e.tokens = ts → e'.tokens = ts → e = e' := by
  have htokens : ∀ e : LR.EN, (e.before .empty).tokens = e.tokens := fun e =>
    (e.tokens_before .empty).trans (List.append_nil _)
  have hvalue : ∀ e : LR.EN, (e.before .empty).value = e.value := fun e =>
    (e.value_before .empty).trans (Int32.add_zero _)
  refine ⟨fun v => ⟨?_, ?_⟩, fun e e' h h' => LR.EN.tokens_injective (h.trans h'.symm),
    fun e e' h h' => NLR.EN.tokens_injective (h.trans h'.symm)⟩
  · rintro ⟨e, rfl, rfl⟩
    exact ⟨e.before .empty, htokens e, hvalue e⟩
  · rintro ⟨e, rfl, rfl⟩
    -- the left-recursive derivation is turned back into the one it came from
    refine ⟨e.toLR, ?_, ?_⟩
    · rw [← htokens, e.before_toLR]
    · rw [← hvalue, e.before_toLR]

/-- `1 + 2 * (3 + 4)` -/
example : ((LR.EN.plus (.term (.factor (.number 1))) (.mult (.factor (.number 2))
    (.brac (.plus (.term (.factor (.number 3))) (.factor (.number 4)))))).before .empty).value
      = 15 := by decide

end SimplestArith
