import CppGraduate.LruInC.Main
import Mathlib.Algebra.Group.Int.Defs
import Mathlib.Data.List.TakeWhile

/-!
# The tokens lru-in-c reads

A decimal token is white space, a sign or none, digits, and then white
space or the end of the input; its value is the number it denotes.
`readInteger` yields the value of the token the input begins with and
consumes it with the byte after it, or fails where the input begins with
no token or its value has no 64 bits.

The loop over the digits compares before it multiplies, so that nothing is
reduced modulo the word size. Where the comparison fails, the number that
was being read is out of range whatever digits follow.
-/

namespace LruInC

/-! ## Tokens -/

/-- The number that digits denote after the number `n`. -/
def decimalFrom (n : ℕ) (digits : List UInt8) : ℕ :=
  digits.foldl (fun n ch => n * 10 + (ch - 48).toNat) n

/-- The number that digits denote. -/
def decimal (digits : List UInt8) : ℕ := decimalFrom 0 digits

/-- **The input begins with a token** of the value `z`, followed by
`rest`. -/
inductive IsToken : List UInt8 → ℤ → List UInt8 → Prop
  | mk {space sign digits rest : List UInt8} (hspace : ∀ ch ∈ space, isspace ch)
    (hsign : sign = [] ∨ sign = [plus] ∨ sign = [minus]) (hne : digits ≠ [])
    (hdigits : ∀ ch ∈ digits, isDigit ch) (hrest : ∀ ch ∈ rest.head?, isspace ch) :
    IsToken (space ++ (sign ++ (digits ++ rest)))
      (if sign = [minus] then -(decimal digits : ℤ) else decimal digits) rest

/-- **The input begins with tokens** whose values are 64-bit integers. -/
inductive Tokens : List UInt8 → List Int64 → List UInt8 → Prop
  | nil (input : List UInt8) : Tokens input [] input
  | cons {input rest rest' : List UInt8} {x : Int64} {xs : List Int64}
    (h : IsToken input x.toInt rest) (hs : Tokens rest xs rest') :
    Tokens input (x :: xs) rest'

/-! ## Bytes -/

/-- A digit stands for less than ten. -/
theorem digit_le {ch : UInt8} (h : isDigit ch) : (ch - 48).toUInt64.toNat ≤ 9 := by
  simp only [isDigit, Bool.and_eq_true, decide_eq_true_eq, UInt8.le_iff_toNat_le] at h
  obtain ⟨hlo, hhi⟩ := h
  rw [UInt8.toNat_toUInt64, UInt8.toNat_sub_of_le _ _ (UInt8.le_iff_toNat_le.mpr hlo)]
  change ch.toNat - 48 ≤ 9
  change ch.toNat ≤ 57 at hhi
  omega

/-- A digit is neither white space nor a sign. -/
theorem isDigit_ne {ch : UInt8} (h : isDigit ch) :
    isspace ch = false ∧ ch ≠ minus ∧ ch ≠ plus := by
  simp only [isDigit, isspace, minus, plus, Bool.and_eq_true, Bool.or_eq_false_iff,
    Bool.and_eq_false_iff, decide_eq_true_eq, decide_eq_false_iff_not, UInt8.le_iff_toNat_le, ne_eq,
    ← UInt8.toNat_inj, UInt8.toNat_ofNat] at h ⊢
  omega

/-- Nor is white space a digit. -/
theorem isDigit_of_isspace {ch : UInt8} (h : isspace ch) : isDigit ch = false :=
  Bool.eq_false_iff.mpr fun hd => by
    rw [(isDigit_ne hd).1] at h
    cases h

/-- A sign is no white space. -/
theorem isspace_sign {ch : UInt8} (h : ch = minus ∨ ch = plus) : isspace ch = false := by
  rcases h with rfl | rfl <;> rfl

/-! ## The loop over the digits -/

/-- Digits make a number no smaller. -/
theorem le_decimalFrom (n : ℕ) (digits : List UInt8) : n ≤ decimalFrom n digits := by
  induction digits generalizing n with
  | nil => exact Nat.le_refl n
  | cons ch digits ih =>
    exact Nat.le_trans (Nat.le_add_right_of_le (Nat.le_mul_of_pos_right n (by decide))) (ih _)

/-- **The comparison of the loop** tells whether one more digit leaves the
range. -/
theorem lt_sub_div_iff {limit magnitude digit : UInt64} (hlim : 9 ≤ limit.toNat)
    (hdigit : digit.toNat ≤ 9) :
    magnitude > (limit - digit) / 10 ↔ limit.toNat < magnitude.toNat * 10 + digit.toNat := by
  have hsub : (limit - digit).toNat = limit.toNat - digit.toNat :=
    UInt64.toNat_sub_of_le _ _ (UInt64.le_iff_toNat_le.mpr (Nat.le_trans hdigit hlim))
  show (limit - digit) / 10 < magnitude ↔ _
  rw [UInt64.lt_iff_toNat_lt, UInt64.toNat_div, hsub]
  show (limit.toNat - digit.toNat) / 10 < magnitude.toNat ↔ _
  omega

/-- In range, one more digit is computed without reduction. -/
theorem toNat_mul_add {limit magnitude digit : UInt64}
    (h : magnitude.toNat * 10 + digit.toNat ≤ limit.toNat) :
    (magnitude * 10 + digit).toNat = magnitude.toNat * 10 + digit.toNat := by
  have hlim := limit.toNat_lt
  rw [UInt64.toNat_add, UInt64.toNat_mul]
  show (magnitude.toNat * 10 % 2 ^ 64 + digit.toNat) % 2 ^ 64 = _
  rw [Nat.mod_eq_of_lt (by omega), Nat.mod_eq_of_lt (by omega)]

section Digits

variable {limit : UInt64} {digits rest : List UInt8}

/-- One pass of the loop before a byte that is no digit, or before the
end. -/
theorem readDigits_last (hrest : ∀ ch ∈ rest.head?, isDigit ch = false) (magnitude : UInt64)
    (ch : UInt8) : readDigits limit magnitude ch rest
      = if magnitude > (limit - (ch - 48).toUInt64) / 10 then (none, rest)
        else (some (magnitude * 10 + (ch - 48).toUInt64, rest.head?), rest.tail) := by
  cases rest with
  | nil => rfl
  | cons next input =>
    rw [readDigits, hrest next rfl, if_neg Bool.false_ne_true]
    rfl

/-- One pass of the loop before a digit. -/
theorem readDigits_cons {next : UInt8} (hnext : isDigit next) (magnitude : UInt64) (ch : UInt8)
    (input : List UInt8) : readDigits limit magnitude ch (next :: input)
      = if magnitude > (limit - (ch - 48).toUInt64) / 10 then (none, next :: input)
        else readDigits limit (magnitude * 10 + (ch - 48).toUInt64) next input := by
  rw [readDigits, hnext, if_pos rfl]

/-- **Digits in range** are read to their end, and one byte more. -/
theorem readDigits_of_le (hlim : 9 ≤ limit.toNat) (hdigits : ∀ ch ∈ digits, isDigit ch)
    (hrest : ∀ ch ∈ rest.head?, isDigit ch = false) {magnitude : UInt64} {ch : UInt8}
    (hch : isDigit ch) (h : decimalFrom magnitude.toNat (ch :: digits) ≤ limit.toNat) :
    ∃ m, readDigits limit magnitude ch (digits ++ rest) = (some (m, rest.head?), rest.tail)
      ∧ m.toNat = decimalFrom magnitude.toNat (ch :: digits) := by
  induction digits generalizing magnitude ch with
  | nil =>
    have hstep : magnitude.toNat * 10 + (ch - 48).toUInt64.toNat ≤ limit.toNat := h
    refine ⟨_, ?_, toNat_mul_add hstep⟩
    rw [List.nil_append, readDigits_last hrest,
      if_neg (by rw [lt_sub_div_iff hlim (digit_le hch)]; exact Nat.not_lt.mpr hstep)]
  | cons next digits ih =>
    have hnext : isDigit next := hdigits next List.mem_cons_self
    have hstep : magnitude.toNat * 10 + (ch - 48).toUInt64.toNat ≤ limit.toNat :=
      Nat.le_trans (le_decimalFrom _ (next :: digits)) h
    have hvalue : decimalFrom (magnitude * 10 + (ch - 48).toUInt64).toNat (next :: digits)
        = decimalFrom magnitude.toNat (ch :: next :: digits) := by
      rw [toNat_mul_add hstep]
      rfl
    rw [List.cons_append, readDigits_cons hnext,
      if_neg (by rw [lt_sub_div_iff hlim (digit_le hch)]; exact Nat.not_lt.mpr hstep), ← hvalue]
    rw [← hvalue] at h
    exact ih (fun ch hmem => hdigits ch (List.mem_cons_of_mem next hmem)) hnext h

/-- **Digits out of range** are not read to their end. -/
theorem readDigits_of_lt (hlim : 9 ≤ limit.toNat) (hdigits : ∀ ch ∈ digits, isDigit ch)
    (hrest : ∀ ch ∈ rest.head?, isDigit ch = false) {magnitude : UInt64} {ch : UInt8}
    (hch : isDigit ch) (h : limit.toNat < decimalFrom magnitude.toNat (ch :: digits)) :
    (readDigits limit magnitude ch (digits ++ rest)).1 = none := by
  induction digits generalizing magnitude ch with
  | nil =>
    have hstep : limit.toNat < magnitude.toNat * 10 + (ch - 48).toUInt64.toNat := h
    rw [List.nil_append, readDigits_last hrest, if_pos ((lt_sub_div_iff hlim (digit_le hch)).mpr hstep)]
  | cons next digits ih =>
    have hnext : isDigit next := hdigits next List.mem_cons_self
    rw [List.cons_append, readDigits_cons hnext]
    split_ifs with hout
    · rfl
    · have hstep := Nat.not_lt.mp ((not_congr (lt_sub_div_iff hlim (digit_le hch))).mp hout)
      refine ih (fun ch hmem => hdigits ch (List.mem_cons_of_mem next hmem)) hnext ?_
      rw [toNat_mul_add hstep]
      exact h

end Digits

/-! ## The integer -/

/-- What `read_integer` does after the sign. -/
def readUnsigned (negative : Bool) (input : List UInt8) : Option Int64 × List UInt8 :=
  match getchar input with
  | (none, input) => (none, input)
  | (some ch, input) =>
    if !isDigit ch then (none, input)
    else
      match readDigits (if negative then int64Max + 1 else int64Max) 0 ch input with
      | (none, input) => (none, input)
      | (some (magnitude, ch), input) =>
        if ch.all isspace then
          (some (if negative && magnitude = int64Max + 1 then Int64.minValue
            else if negative then -magnitude.toInt64 else magnitude.toInt64), input)
        else (none, input)

/-- White space is skipped. -/
theorem skipSpace_append {space : List UInt8} (hspace : ∀ ch ∈ space, isspace ch)
    (input : List UInt8) : skipSpace (space ++ input) = skipSpace input := by
  induction space with
  | nil => rfl
  | cons ch space ih =>
    rw [List.cons_append, skipSpace, if_pos (hspace ch List.mem_cons_self)]
    exact ih fun ch hmem => hspace ch (List.mem_cons_of_mem _ hmem)

/-- What is no white space is read. -/
theorem skipSpace_eq {input : List UInt8} (h : ∀ ch ∈ input.head?, isspace ch = false) :
    skipSpace input = getchar input := by
  cases input with
  | nil => rfl
  | cons ch input =>
    rw [skipSpace, h ch rfl, if_neg Bool.false_ne_true]
    rfl

/-- **After white space and a sign** the digits are read. -/
theorem readInteger_signed {space sign input : List UInt8} (hspace : ∀ ch ∈ space, isspace ch)
    (hsign : sign = [] ∨ sign = [plus] ∨ sign = [minus])
    (hinput : sign = [] → ∀ ch ∈ input.head?, isspace ch = false ∧ ch ≠ minus ∧ ch ≠ plus) :
    readInteger (space ++ (sign ++ input)) = readUnsigned (sign = [minus]) input := by
  unfold readInteger
  rw [skipSpace_append hspace]
  rcases hsign with rfl | rfl | rfl
  · rw [List.nil_append, skipSpace_eq fun ch hmem => (hinput rfl ch hmem).1]
    cases input with
    | nil => rfl
    | cons ch input =>
      obtain ⟨-, hm, hp⟩ := hinput rfl ch rfl
      simp only [getchar, readUnsigned, Option.some.injEq, hm, hp, or_self, if_false]
      rfl
  · rw [List.singleton_append,
      skipSpace_eq fun ch hmem => isspace_sign (Or.inr (by simpa using hmem.symm))]
    cases input <;> rfl
  · rw [List.singleton_append,
      skipSpace_eq fun ch hmem => isspace_sign (Or.inl (by simpa using hmem.symm))]
    cases input <;> rfl

/-- The largest magnitude after a sign. -/
theorem toNat_limitOf (negative : Bool) : (if negative then int64Max + 1 else int64Max).toNat
    = if negative then 2 ^ 63 else 2 ^ 63 - 1 := by
  cases negative <;> decide

/-- **The value of a magnitude in range**: negating it does not overflow,
the least integer included. -/
theorem toInt_signed {negative : Bool} {m : UInt64}
    (hm : m.toNat ≤ (if negative then int64Max + 1 else int64Max).toNat) :
    (if negative && m = int64Max + 1 then Int64.minValue
      else if negative then -m.toInt64 else m.toInt64).toInt
      = if negative then -(m.toNat : ℤ) else m.toNat := by
  rw [toNat_limitOf] at hm
  have hof : m.toInt64 = Int64.ofNat m.toNat := by
    rw [← UInt64.toInt64_ofNat', UInt64.ofNat_toNat]
  cases negative with
  | false =>
    show m.toInt64.toInt = (m.toNat : ℤ)
    rw [hof]
    exact Int64.toInt_ofNat_of_lt (Nat.lt_of_le_of_lt hm (by decide))
  | true =>
    show (if (true && decide (m = int64Max + 1)) = true then Int64.minValue else -m.toInt64).toInt
      = -(m.toNat : ℤ)
    simp only [Bool.true_and, decide_eq_true_eq]
    split_ifs with hmin
    · rw [hmin]
      rfl
    · rw [hof]
      exact Int64.toInt_neg_ofNat_of_le hm

section Unsigned

variable {negative : Bool} {digits rest : List UInt8}

/-- Without a digit nothing is read. -/
theorem readUnsigned_nil (hrest : ∀ ch ∈ rest.head?, isDigit ch = false) :
    (readUnsigned negative rest).1 = none := by
  cases rest with
  | nil => rfl
  | cons ch rest =>
    simp only [readUnsigned, getchar, hrest ch rfl, Bool.not_false, if_true]

/-- **Digits in range** are the value, if white space or the end of the
input follows. -/
theorem readUnsigned_of_le (hne : digits ≠ []) (hdigits : ∀ ch ∈ digits, isDigit ch)
    (hrest : ∀ ch ∈ rest.head?, isDigit ch = false)
    (h : decimal digits ≤ (if negative then int64Max + 1 else int64Max).toNat) :
    ∃ z : Int64, readUnsigned negative (digits ++ rest)
        = (if rest.head?.all isspace then some z else none, rest.tail)
      ∧ z.toInt = if negative then -(decimal digits : ℤ) else decimal digits := by
  obtain ⟨ch, digits, rfl⟩ := List.exists_cons_of_ne_nil hne
  have hch : isDigit ch := hdigits ch List.mem_cons_self
  have hlim : 9 ≤ (if negative then int64Max + 1 else int64Max).toNat := by
    rw [toNat_limitOf]
    cases negative <;> decide
  obtain ⟨m, hread, hm⟩ := readDigits_of_le hlim
    (fun ch hmem => hdigits ch (List.mem_cons_of_mem _ hmem)) hrest hch
    (show decimalFrom (0 : UInt64).toNat (ch :: digits) ≤ _ from h)
  have hm : m.toNat = decimal (ch :: digits) := hm
  refine ⟨_, ?_, (toInt_signed (by rw [hm]; exact h)).trans (by rw [hm])⟩
  simp only [readUnsigned, List.cons_append, getchar, hch, Bool.not_true, Bool.false_eq_true,
    if_false, hread]
  split_ifs <;> rfl

/-- **Digits out of range** are no value. -/
theorem readUnsigned_of_lt (hne : digits ≠ []) (hdigits : ∀ ch ∈ digits, isDigit ch)
    (hrest : ∀ ch ∈ rest.head?, isDigit ch = false)
    (h : (if negative then int64Max + 1 else int64Max).toNat < decimal digits) :
    (readUnsigned negative (digits ++ rest)).1 = none := by
  obtain ⟨ch, digits, rfl⟩ := List.exists_cons_of_ne_nil hne
  have hch : isDigit ch := hdigits ch List.mem_cons_self
  have hlim : 9 ≤ (if negative then int64Max + 1 else int64Max).toNat := by
    rw [toNat_limitOf]
    cases negative <;> decide
  have hnone := readDigits_of_lt hlim (fun ch hmem => hdigits ch (List.mem_cons_of_mem _ hmem))
    hrest hch (show _ < decimalFrom (0 : UInt64).toNat (ch :: digits) from h)
  simp only [readUnsigned, List.cons_append, getchar, hch, Bool.not_true, Bool.false_eq_true,
    if_false]
  cases hread : readDigits (if negative then int64Max + 1 else int64Max) 0 ch (digits ++ rest) with
  | mk found input =>
    rw [hread] at hnone
    obtain rfl : found = none := hnone
    rfl

end Unsigned

/-! ## The parts of an input -/

/-- What the head of `dropWhile` fails. -/
theorem head_dropWhile (p : UInt8 → Bool) (input : List UInt8) :
    ∀ ch ∈ (input.dropWhile p).head?, p ch = false := by
  intro ch hch
  have hnot := List.head?_dropWhile_not p input
  rw [Option.mem_def.mp hch] at hnot
  simpa using hnot

/-- **Every input has the parts of a token**, though there may be no digit
among them. -/
theorem exists_parts (input : List UInt8) : ∃ space sign digits rest,
    input = space ++ (sign ++ (digits ++ rest)) ∧ (∀ ch ∈ space, isspace ch)
      ∧ (sign = [] ∨ sign = [plus] ∨ sign = [minus])
      ∧ (sign = [] → ∀ ch ∈ (digits ++ rest).head?, isspace ch = false ∧ ch ≠ minus ∧ ch ≠ plus)
      ∧ (∀ ch ∈ digits, isDigit ch) ∧ ∀ ch ∈ rest.head?, isDigit ch = false := by
  have hdigits : ∀ input : List UInt8, ∀ ch ∈ input.takeWhile isDigit, isDigit ch :=
    fun input ch hmem => List.mem_takeWhile_imp hmem
  have hspace : ∀ ch ∈ input.takeWhile isspace, isspace ch := fun ch hmem =>
    List.mem_takeWhile_imp hmem
  have hafter := head_dropWhile isspace input
  have hinput : input = input.takeWhile isspace ++ input.dropWhile isspace :=
    List.takeWhile_append_dropWhile.symm
  cases hdrop : input.dropWhile isspace with
  | nil =>
    rw [hdrop] at hinput
    exact ⟨_, [], [], [], hinput, hspace, Or.inl rfl, nofun, nofun, nofun⟩
  | cons first input' =>
    rw [hdrop] at hafter hinput
    by_cases hsign : first = minus ∨ first = plus
    · refine ⟨_, [first], input'.takeWhile isDigit, input'.dropWhile isDigit, ?_, hspace, ?_,
        nofun, hdigits _, head_dropWhile isDigit input'⟩
      · rw [List.takeWhile_append_dropWhile]
        exact hinput
      · rcases hsign with rfl | rfl
        · exact Or.inr (Or.inr rfl)
        · exact Or.inr (Or.inl rfl)
    · refine ⟨_, [], (first :: input').takeWhile isDigit, (first :: input').dropWhile isDigit, ?_,
        hspace, Or.inl rfl, fun _ ch hch => ?_, hdigits _, head_dropWhile isDigit _⟩
      · rw [List.takeWhile_append_dropWhile]
        exact hinput
      · rw [List.takeWhile_append_dropWhile, List.head?_cons, Option.mem_some_iff] at hch
        exact hch ▸ ⟨hafter first rfl, not_or.mp hsign⟩

/-! ## What is read -/

/-- **A token is read**, with the byte after it. -/
theorem readInteger_of_isToken {input rest : List UInt8} {z : Int64}
    (h : IsToken input z.toInt rest) : readInteger input = (some z, rest.tail) := by
  generalize hz : z.toInt = value at h
  cases h with
  | @mk space sign digits _ hspace hsign hne hdigits hrest =>
    have hlast : ∀ ch ∈ rest.head?, isDigit ch = false := fun ch hch =>
      isDigit_of_isspace (hrest ch hch)
    have hrange : decimal digits
        ≤ (if decide (sign = [minus]) then int64Max + 1 else int64Max).toNat := by
      have hlo := z.le_toInt
      have hhi := z.toInt_lt
      rw [toNat_limitOf]
      simp only [decide_eq_true_eq]
      split_ifs at hz ⊢ <;> omega
    obtain ⟨z', hread, hvalue⟩ := readUnsigned_of_le hne hdigits hlast hrange
    simp only [decide_eq_true_eq, ← hz] at hvalue
    obtain rfl : z' = z := Int64.toInt_inj.mp hvalue
    have hall : rest.head?.all isspace := by
      cases hhead : rest.head? with
      | none => rfl
      | some ch => exact hrest ch hhead
    rw [readInteger_signed hspace hsign (fun _ ch hch => ?_), hread, if_pos hall]
    obtain ⟨first, digits, rfl⟩ := List.exists_cons_of_ne_nil hne
    rw [List.cons_append, List.head?_cons, Option.mem_some_iff] at hch
    exact hch ▸ isDigit_ne (hdigits first List.mem_cons_self)

/-- **What is read is a token.** -/
theorem isToken_of_readInteger {input input' : List UInt8} {z : Int64}
    (h : readInteger input = (some z, input')) :
    ∃ rest, IsToken input z.toInt rest ∧ input' = rest.tail := by
  obtain ⟨space, sign, digits, rest, rfl, hspace, hsign, hfirst, hdigits, hlast⟩ :=
    exists_parts input
  rw [readInteger_signed hspace hsign hfirst] at h
  by_cases hne : digits = []
  · subst hne
    have hnone : (readUnsigned (sign = [minus]) rest).1 = none := readUnsigned_nil hlast
    rw [List.nil_append] at h
    rw [h] at hnone
    cases hnone
  rcases Nat.lt_or_ge (if decide (sign = [minus]) then int64Max + 1 else int64Max).toNat
    (decimal digits) with hout | hin
  · have hnone := readUnsigned_of_lt hne hdigits hlast hout
    rw [h] at hnone
    cases hnone
  · obtain ⟨z', hread, hvalue⟩ := readUnsigned_of_le hne hdigits hlast hin
    rw [hread] at h
    split_ifs at h with hall
    · obtain ⟨hz, hinput⟩ := Prod.mk.inj h
      obtain rfl := Option.some.inj hz
      refine ⟨rest, ?_, hinput.symm⟩
      simp only [decide_eq_true_eq] at hvalue
      rw [hvalue]
      refine .mk hspace hsign hne hdigits fun ch hch => ?_
      rw [Option.mem_def.mp hch] at hall
      exact hall
    · cases h

end LruInC
