import CppGraduate.LruInC.Tokens

/-!
# Reading an integer without overflow

`read_integer` once more as the source writes it: it has the address of a
value, reports whether it has written there, and computes with integers of
limited size. Here the four operations that could leave their type are
checked, and `none` is a run in which one does.

No run is (`readIntegerInto_eq`), so that what is known of `readInteger` is
known of this one. **Main result** (`readIntegerInto_spec`): it succeeds on the
tokens whose value is a 64-bit integer and on nothing else.
-/

namespace LruInC

/-! ## Checked operations -/

/-- `a - b`, which is not to wrap around. -/
def checkedSub (a b : UInt64) : Option UInt64 := if b ≤ a then some (a - b) else none

/-- `magnitude * 10 + digit`, which is not to wrap around. -/
def checkedMulAdd (magnitude digit : UInt64) : Option UInt64 :=
  if magnitude.toNat * 10 + digit.toNat < 2 ^ 64 then some (magnitude * 10 + digit) else none

/-- `(int64_t)magnitude`, which is to be representable. -/
def checkedCast (magnitude : UInt64) : Option Int64 :=
  if magnitude.toNat < 2 ^ 63 then some magnitude.toInt64 else none

/-- `-x`, undefined at the least integer. -/
def checkedNeg (x : Int64) : Option Int64 := if x = Int64.minValue then none else some (-x)

/-! ## The function -/

/-- The loop over the digits, as `readDigits`, checked. -/
def checkedDigits (limit magnitude : UInt64) (ch : UInt8) :
    List UInt8 → Option (Option (UInt64 × Option UInt8) × List UInt8)
  | [] => do
    let digit := (ch - 48).toUInt64
    let bound ← checkedSub limit digit
    if magnitude > bound / 10 then return (none, [])
    else
      let magnitude ← checkedMulAdd magnitude digit
      return (some (magnitude, none), [])
  | next :: input => do
    let digit := (ch - 48).toUInt64
    let bound ← checkedSub limit digit
    if magnitude > bound / 10 then return (none, next :: input)
    else
      let magnitude ← checkedMulAdd magnitude digit
      if isDigit next then checkedDigits limit magnitude next input
      else return (some (magnitude, some next), input)

/-- The value of a magnitude in range, checked. -/
def checkedValue (negative : Bool) (magnitude : UInt64) : Option Int64 :=
  if negative && magnitude = int64Max + 1 then some Int64.minValue
  else if negative then (checkedCast magnitude).bind checkedNeg
  else checkedCast magnitude

/-- **`read_integer(&value)`**: the result, what `value` is afterwards and the
input that is left. -/
def readIntegerInto (value : Int64) (input : List UInt8) : Option (Bool × Int64 × List UInt8) :=
  let (ch, input) := skipSpace input
  let negative : Bool := ch = some minus
  let (ch, input) := if ch = some minus ∨ ch = some plus then getchar input else (ch, input)
  match ch with
  | none => some (false, value, input)
  | some ch =>
    if !isDigit ch then some (false, value, input)
    else do
      let (read, input) ← checkedDigits (if negative then int64Max + 1 else int64Max) 0 ch input
      match read with
      | none => return (false, value, input)
      | some (magnitude, ch) =>
        if ch.all isspace then
          let value ← checkedValue negative magnitude
          return (true, value, input)
        else return (false, value, input)

/-! ## Nothing overflows -/

section Checked

variable {limit magnitude : UInt64} {ch : UInt8}

/-- **One pass of the loop** is as unchecked: no digit exceeds the limit, and
where the comparison lets it pass the next magnitude does not either. -/
theorem checked_pass {β : Type} (hlim : 9 ≤ limit.toNat) (hch : isDigit ch)
    (stop : Option β) (go : UInt64 → Option β) :
    ((checkedSub limit (ch - 48).toUInt64).bind fun bound =>
        if magnitude > bound / 10 then stop
        else (checkedMulAdd magnitude (ch - 48).toUInt64).bind go)
      = if magnitude > (limit - (ch - 48).toUInt64) / 10 then stop
        else go (magnitude * 10 + (ch - 48).toUInt64) := by
  have hdigit := digit_le hch
  have hsub : checkedSub limit (ch - 48).toUInt64 = some (limit - (ch - 48).toUInt64) :=
    if_pos (UInt64.le_iff_toNat_le.mpr (Nat.le_trans hdigit hlim))
  rw [hsub, Option.bind_some]
  split_ifs with hgt
  · rfl
  · rw [lt_sub_div_iff hlim hdigit, Nat.not_lt] at hgt
    rw [checkedMulAdd, if_pos (Nat.lt_of_le_of_lt hgt limit.toNat_lt), Option.bind_some]

/-- **The loop over the digits neither overflows nor wraps**, however many
there are. -/
theorem checkedDigits_eq (hlim : 9 ≤ limit.toNat) (hch : isDigit ch) (input : List UInt8) :
    checkedDigits limit magnitude ch input = some (readDigits limit magnitude ch input) := by
  induction input generalizing magnitude ch with
  | nil =>
    refine (checked_pass hlim hch _ _).trans ?_
    rw [readDigits]
    split_ifs <;> rfl
  | cons next input ih =>
    refine (checked_pass hlim hch _ _).trans ?_
    rw [readDigits]
    split_ifs with hgt hnext
    · rfl
    · exact ih hnext
    · rfl

/-- What the loop reads is in range. -/
theorem readDigits_le (hlim : 9 ≤ limit.toNat) (hch : isDigit ch) {input input' : List UInt8}
    {m : UInt64} {next : Option UInt8}
    (h : readDigits limit magnitude ch input = (some (m, next), input')) :
    m.toNat ≤ limit.toNat := by
  induction input generalizing magnitude ch with
  | nil =>
    rw [readDigits] at h
    split_ifs at h with hgt
    · cases h
    · rw [lt_sub_div_iff hlim (digit_le hch), Nat.not_lt] at hgt
      obtain ⟨⟨rfl, -⟩, -⟩ : (magnitude * 10 + (ch - 48).toUInt64 = m ∧ none = next) ∧
        [] = input' := by simpa using h
      rwa [toNat_mul_add hgt]
  | cons ch' input ih =>
    rw [readDigits] at h
    split_ifs at h with hgt hnext
    · cases h
    · exact ih hnext h
    · rw [lt_sub_div_iff hlim (digit_le hch), Nat.not_lt] at hgt
      obtain ⟨⟨rfl, -⟩, -⟩ : (magnitude * 10 + (ch - 48).toUInt64 = m ∧ some ch' = next) ∧
        input = input' := by simpa using h
      rwa [toNat_mul_add hgt]

end Checked

/-- **The negation does not overflow**: a magnitude after a minus is one that
`int64_t` holds, or is handled apart. -/
theorem checkedValue_eq {negative : Bool} {m : UInt64}
    (hm : m.toNat ≤ (if negative then int64Max + 1 else int64Max).toNat) :
    checkedValue negative m
      = some (if negative && m = int64Max + 1 then Int64.minValue
          else if negative then -m.toInt64 else m.toInt64) := by
  have hcast : m.toNat < 2 ^ 63 → checkedCast m = some m.toInt64 ∧ m.toInt64.toInt = m.toNat := by
    intro hlt
    refine ⟨if_pos hlt, ?_⟩
    rw [← UInt64.ofNat_toNat (x := m), UInt64.toInt64_ofNat', UInt64.ofNat_toNat]
    exact Int64.toInt_ofNat_of_lt hlt
  rw [toNat_limitOf] at hm
  unfold checkedValue
  cases negative with
  | false => exact (hcast (Nat.lt_of_le_of_lt hm (by decide))).1
  | true =>
    simp only [Bool.true_and, decide_eq_true_eq, if_true]
    split_ifs with hmin
    · rfl
    · have hlt : m.toNat < 2 ^ 63 := by
        refine Nat.lt_of_le_of_ne hm fun heq => hmin ?_
        exact UInt64.toNat_inj.mp (heq.trans (toNat_limitOf true).symm)
      obtain ⟨hsome, hint⟩ := hcast hlt
      rw [hsome, Option.bind_some, checkedNeg, if_neg]
      intro heq
      rw [heq] at hint
      have hneg : Int64.minValue.toInt < 0 := by decide
      omega

/-- **No run overflows**: the function does what it does without the checks,
and writes the value where there is one. -/
theorem readIntegerInto_eq (value : Int64) (input : List UInt8) :
    readIntegerInto value input
      = some ((readInteger input).1.isSome, (readInteger input).1.getD value,
          (readInteger input).2) := by
  unfold readIntegerInto readInteger
  rcases skipSpace input with ⟨first, rest⟩
  dsimp only
  generalize (if first = some minus ∨ first = some plus then getchar rest else (first, rest)) = next
  generalize decide (first = some minus) = negative
  rcases next with ⟨_ | ch, rest'⟩
  · rfl
  · have hlim : 9 ≤ (if negative then int64Max + 1 else int64Max).toNat := by
      rw [toNat_limitOf]
      cases negative <;> decide
    cases hch : isDigit ch with
    | false => simp [hch]
    | true =>
      simp only [hch, Bool.not_true, Bool.false_eq_true, if_false, checkedDigits_eq hlim hch]
      rcases hread : readDigits (if negative then int64Max + 1 else int64Max) 0 ch rest'
        with ⟨_ | ⟨m, after⟩, rest''⟩
      · rfl
      · simp only [Option.bind_eq_bind, Option.bind_some,
          checkedValue_eq (readDigits_le hlim hch hread)]
        cases after.all isspace <;> rfl

/-! ## What is accepted -/

/-- A failure means that the input begins with no token whose number fits. -/
theorem readInteger_eq_none_iff (input : List UInt8) :
    (readInteger input).1 = none ↔
      ¬ ∃ z rest, IsToken input z rest ∧ -2 ^ 63 ≤ z ∧ z ≤ 2 ^ 63 - 1 := by
  constructor
  · rintro hnone ⟨z, rest, htoken, hlo, hhi⟩
    have hz : (Int64.ofInt z).toInt = z := Int64.toInt_ofInt_of_le hlo (by omega)
    rw [readInteger_of_isToken (by rwa [hz])] at hnone
    cases hnone
  · intro hnot
    cases hread : readInteger input with
    | mk found input' =>
      cases found with
      | none => rfl
      | some z =>
        obtain ⟨rest, htoken, -⟩ := isToken_of_readInteger hread
        have hlo := z.le_toInt
        have hhi := z.toInt_lt
        exact absurd ⟨z.toInt, rest, htoken, by omega, by omega⟩ hnot

/-- **Main result: `read_integer` accepts exactly the decimal tokens of 64-bit
integers.** Where the input begins with one, it stores the number and leaves
what follows the token, but for the byte after it; and otherwise it reports a
failure and stores nothing. In neither case does one of its operations overflow
or wrap around. -/
theorem readIntegerInto_spec (value : Int64) (input : List UInt8) :
    (∃ z rest, IsToken input z rest ∧ -2 ^ 63 ≤ z ∧ z ≤ 2 ^ 63 - 1 ∧
        readIntegerInto value input = some (true, Int64.ofInt z, rest.tail)) ∨
      (¬ ∃ z rest, IsToken input z rest ∧ -2 ^ 63 ≤ z ∧ z ≤ 2 ^ 63 - 1) ∧
        ∃ rest, readIntegerInto value input = some (false, value, rest) := by
  rw [readIntegerInto_eq]
  cases hread : readInteger input with
  | mk found input' =>
    cases found with
    | none =>
      refine .inr ⟨(readInteger_eq_none_iff input).mp (by rw [hread]), input', rfl⟩
    | some z =>
      obtain ⟨rest, htoken, rfl⟩ := isToken_of_readInteger hread
      have hlo := z.le_toInt
      have hhi := z.toInt_lt
      exact .inl ⟨z.toInt, rest, htoken, by omega, by omega, by simp⟩

end LruInC
