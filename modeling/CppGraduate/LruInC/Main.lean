import CppGraduate.LruInC.Lru

/-!
# The program lru-in-c

`main.c`: a capacity, a number of requests and the requests themselves are
read from standard input, and the number of hits is printed. Standard
input is the list of bytes that are still to be read; reading past its end
yields `EOF`, as often as it is tried. Input and output do not fail.

`readInteger` parses one decimal token by hand. It consumes the byte after
the token, and after a failure it may stop anywhere.

What varies from one run to another is whether the allocations succeed:
those of `lru_create`, and those each request makes.
-/

namespace LruInC

/-! ## Reading an integer -/

/-- `isspace` in the C locale. -/
def isspace (ch : UInt8) : Bool := ch = 32 || (9 ≤ ch && ch ≤ 13)

/-- `ch >= '0' && ch <= '9'` -/
def isDigit (ch : UInt8) : Bool := 48 ≤ ch && ch ≤ 57

/-- `'-'` -/
def minus : UInt8 := 45

/-- `'+'` -/
def plus : UInt8 := 43

/-- `getchar()`: the next byte, or `EOF`. -/
def getchar : List UInt8 → Option UInt8 × List UInt8
  | [] => (none, [])
  | ch :: input => (some ch, input)

/-- The first loop of `read_integer`: up to a byte that is no white
space. -/
def skipSpace : List UInt8 → Option UInt8 × List UInt8
  | [] => (none, [])
  | ch :: input => if isspace ch then skipSpace input else (some ch, input)

/-- The second loop of `read_integer`, from a digit `ch` on: the magnitude
and the byte after the last digit, or nothing when the magnitude leaves the
range. -/
def readDigits (limit magnitude : UInt64) (ch : UInt8) :
    List UInt8 → Option (UInt64 × Option UInt8) × List UInt8
  | [] =>
    let digit := (ch - 48).toUInt64
    if magnitude > (limit - digit) / 10 then (none, [])
    else (some (magnitude * 10 + digit, none), [])
  | next :: input =>
    let digit := (ch - 48).toUInt64
    if magnitude > (limit - digit) / 10 then (none, next :: input)
    else if isDigit next then readDigits limit (magnitude * 10 + digit) next input
    else (some (magnitude * 10 + digit, some next), input)

/-- `INT64_MAX` as a `uint64_t`. -/
def int64Max : UInt64 := Int64.maxValue.toUInt64

/-- `read_integer`: the value in place of writing it through a pointer;
`none` is the result `false`, which writes nothing. -/
def readInteger (input : List UInt8) : Option Int64 × List UInt8 :=
  let (ch, input) := skipSpace input
  let negative : Bool := ch = some minus
  let (ch, input) := if ch = some minus ∨ ch = some plus then getchar input else (ch, input)
  match ch with
  | none => (none, input)
  | some ch =>
    if !isDigit ch then (none, input)
    else
      match readDigits (if negative then int64Max + 1 else int64Max) 0 ch input with
      | (none, input) => (none, input)
      | (some (magnitude, ch), input) =>
        if ch.all isspace then
          (some (if negative && magnitude = int64Max + 1 then Int64.minValue
            else if negative then -magnitude.toInt64 else magnitude.toInt64), input)
        else (none, input)

/-! ## The program -/

/-- `slow_get_page`: the page of a key is the key. -/
def slowGetPage : SlowGetPage := fun key => key

/-- How the process ends: what it wrote and its exit status. -/
structure Exit where
  stdout : String
  stderr : String
  /-- Whether the status is `EXIT_SUCCESS`. -/
  success : Bool
deriving DecidableEq

/-- The end with a message and `EXIT_FAILURE`. -/
def failWith (message : String) : Exit := ⟨"", message, false⟩

/-- The number of an enumerator. -/
def LruResult.toNat : LruResult → ℕ
  | .hit => 0
  | .miss => 1
  | .noMemory => 2
  | .invalidArgument => 3
  | .indexError => 4

/-- The loop over the requests, with `left` requests to come and `i` made,
and what follows it. What `page` holds before a call is never read. -/
def requestLoop (mallocs : ℕ → Mallocs) :
    ℕ → ℕ → Int64 → List UInt8 → State → Option Exit
  | 0, _, hits, _, cache => do
    let _ ← lruDestroy cache
    return ⟨toString hits.toInt ++ "\n", "", true⟩
  | left + 1, i, hits, input, cache =>
    match readInteger input with
    | (none, _) => do
      let _ ← lruDestroy cache
      return failWith ("Expected integer at position " ++ toString (i + 1) ++ ".\n")
    | (some key, input) => do
      let (out, cache) ← lookupUpdate ⟨true, key, some slowGetPage, some 0, mallocs i⟩ cache
      if out.result ≠ .hit ∧ out.result ≠ .miss then
        let _ ← lruDestroy cache
        return failWith ("Cannot fetch page (error " ++ toString out.result.toNat ++ ").\n")
      else
        requestLoop mallocs left (i + 1) (hits + if out.result = .hit then 1 else 0) input cache

/-- The capacity `main` creates the cache with: a stream of `count` elements
cannot fill more than `count` slots. -/
def limit (capacity count : Int64) : UInt64 :=
  (if capacity < count then capacity else count).toUInt64

/-- The message about the first two integers. -/
def expectedSizes : Exit := failWith "Expected nonnegative cache size and element count.\n"

/-- `main` -/
def main (create : CreateMallocs) (mallocs : ℕ → Mallocs) (input : List UInt8) : Option Exit :=
  match readInteger input with
  | (none, _) => some expectedSizes
  | (some capacity, input) =>
    match readInteger input with
    | (none, _) => some expectedSizes
    | (some count, input) =>
      if capacity < 0 ∨ count < 0 then some expectedSizes
      else
        match (if (limit capacity count).toNat ≤ sizeMax then
            lruCreate create (limit capacity count).toNat else none) with
        | none => some (failWith "Cannot allocate cache.\n")
        | some cache => requestLoop mallocs count.toInt.toNat 0 0 input cache

end LruInC
