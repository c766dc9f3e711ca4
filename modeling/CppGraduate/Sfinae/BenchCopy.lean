import Mathlib.Data.Nat.Notation
import Mathlib.Tactic.Common

/-!
# Copying a range, element by element or at once

`nonnaive_copy` picks one of two implementations by the value types of its
iterators: the loop `long_copy`, or `memcpy` for trivially copyable elements of
one type. Both leave the same bytes behind (`select_contents`), but the second
returns `out` as it was given where the loop returns the position after the
last element written, and it dereferences both iterators even when there is
nothing to copy.

Memory is a byte for every address and a sequence gives every element an
address, so the sequences need not be contiguous. **Main result**
(`nonnaiveCopy_agrees_iff`): a call does what the loop does exactly when the loop
is what it selects, or the range is empty and both iterators are at an
element.
-/

namespace BenchCopy

/-! ## Memory -/

/-- The byte at every address. -/
abbrev Mem := ℕ → UInt8

/-- The memory after `n` bytes at `src` are copied to `dst`. -/
def copyBytes (mem : Mem) (dst src n : ℕ) : Mem :=
  fun a => if dst ≤ a ∧ a < dst + n then mem (src + (a - dst)) else mem a

/-- `memcpy`, undefined on regions that overlap. -/
def memcpy (mem : Mem) (dst src n : ℕ) : Option Mem :=
  if dst + n ≤ src ∨ src + n ≤ dst then some (copyBytes mem dst src n) else none

/-- Copying nothing. -/
@[simp] theorem copyBytes_zero (mem : Mem) (dst src : ℕ) : copyBytes mem dst src 0 = mem := by
  funext a
  rw [copyBytes, if_neg (by omega)]

/-- **Copying in two pieces**, the first of which leaves the source of the
second alone. -/
theorem copyBytes_add (mem : Mem) {dst src m n : ℕ}
    (hdisj : dst + (m + n) ≤ src ∨ src + (m + n) ≤ dst) :
    copyBytes (copyBytes mem dst src m) (dst + m) (src + m) n = copyBytes mem dst src (m + n) := by
  funext a
  unfold copyBytes
  by_cases hsecond : dst + m ≤ a ∧ a < dst + m + n
  · rw [if_pos hsecond, if_neg (by omega), if_pos (by omega),
      show src + m + (a - (dst + m)) = src + (a - dst) by omega]
  · rw [if_neg hsecond]
    by_cases hfirst : dst ≤ a ∧ a < dst + m
    · rw [if_pos hfirst, if_pos (by omega)]
    · rw [if_neg hfirst, if_neg (by omega)]

/-! ## Value types and sequences -/

/-- What the call depends on of `in_type` and `out_type`. -/
structure ValueTypes where
  /-- `sizeof(in_type)`. -/
  inSize : ℕ
  /-- Whether `in_type` is trivially copyable. -/
  inTrivial : Bool
  /-- Whether `out_type` is trivially copyable. -/
  outTrivial : Bool
  /-- Whether the two types are the same. -/
  same : Bool
  /-- What `*d = *s` makes of memory, by the addresses of the two objects. -/
  assign : Mem → ℕ → ℕ → Mem
  /-- Assigning a trivially copyable object copies its bytes. -/
  assign_trivial : (inTrivial && outTrivial && same) = true →
    ∀ mem d s, assign mem d s = copyBytes mem d s inSize

/-- `Sel`: whether `memcpy` is what copies. -/
def ValueTypes.sel (τ : ValueTypes) : Bool := τ.inTrivial && τ.outTrivial && τ.same

/-- A sequence: its number of elements and where they are. An iterator is the
number of an element, `len` being the end. -/
structure Sequence where
  /-- The number of elements. -/
  len : ℕ
  /-- The address of an element. -/
  addr : ℕ → ℕ

/-- The address `&*it`; there is no object at the end. -/
def Sequence.deref (σ : Sequence) (it : ℕ) : Option ℕ :=
  if it < σ.len then some (σ.addr it) else none

/-- The elements of a contiguous sequence follow each other. -/
def Sequence.Contiguous (σ : Sequence) (size : ℕ) : Prop :=
  ∀ i, σ.addr (i + 1) = σ.addr i + size

/-! ## The two copies -/

variable (τ : ValueTypes) (src dst : Sequence)

/-- **`long_copy`**: the memory afterwards and the iterator returned. -/
def longCopy (mem : Mem) (first last dFirst : ℕ) : Option (Mem × ℕ) :=
  if first = last then some (mem, dFirst)
  else if first < src.len ∧ dFirst < dst.len then
    longCopy (τ.assign mem (dst.addr dFirst) (src.addr first)) (first + 1) last (dFirst + 1)
  else none
termination_by src.len - first

/-- **`CpSel<Type>::select`**: the loop, or one `memcpy` that returns `out`. -/
def select : Bool → Mem → ℕ → ℕ → ℕ → Option (Mem × ℕ)
  | false, mem, first, last, out => longCopy τ src dst mem first last out
  | true, mem, first, last, out => do
    let sz := (last - first) * τ.inSize
    let d ← dst.deref out
    let s ← src.deref first
    let mem ← memcpy mem d s sz
    return (mem, out)

/-- **`nonnaive_copy`** selects by the value types. -/
def nonnaiveCopy (mem : Mem) (first last out : ℕ) : Option (Mem × ℕ) :=
  select τ src dst τ.sel mem first last out

/-- A call copies as the loop does: the same memory and the same iterator. -/
def Agrees (mem : Mem) (first last out : ℕ) : Prop :=
  ∃ r, nonnaiveCopy τ src dst mem first last out = some r ∧
    longCopy τ src dst mem first last out = some r

/-! ## The loop -/

variable {τ src dst}

/-- **The loop ends after the last element written**, wherever it has room. -/
theorem longCopy_returns (n : ℕ) (mem : Mem) {first dFirst : ℕ} (hsrc : first + n ≤ src.len)
    (hdst : dFirst + n ≤ dst.len) :
    ∃ mem', longCopy τ src dst mem first (first + n) dFirst = some (mem', dFirst + n) := by
  induction n generalizing mem first dFirst with
  | zero =>
    rw [longCopy, if_pos (by omega)]
    exact ⟨mem, rfl⟩
  | succ n ih =>
    rw [longCopy, if_neg (by omega), if_pos ⟨by omega, by omega⟩]
    have hsrc' : first + 1 + n ≤ src.len := by omega
    have hdst' : dFirst + 1 + n ≤ dst.len := by omega
    obtain ⟨mem', hrun⟩ := ih (τ.assign mem (dst.addr dFirst) (src.addr first)) hsrc' hdst'
    rw [show first + 1 + n = first + (n + 1) by omega,
      show dFirst + 1 + n = dFirst + (n + 1) by omega] at hrun
    exact ⟨mem', hrun⟩

/-- **The bytes the loop leaves** in contiguous sequences of a trivially
copyable type that do not overlap: those of one copy of the whole range. -/
theorem longCopy_contents (hsel : τ.sel = true) (hcs : src.Contiguous τ.inSize)
    (hcd : dst.Contiguous τ.inSize) (n : ℕ) (mem : Mem) {first dFirst : ℕ}
    (hsrc : first + n ≤ src.len) (hdst : dFirst + n ≤ dst.len)
    (hdisj : dst.addr dFirst + n * τ.inSize ≤ src.addr first ∨
      src.addr first + n * τ.inSize ≤ dst.addr dFirst) :
    longCopy τ src dst mem first (first + n) dFirst
      = some (copyBytes mem (dst.addr dFirst) (src.addr first) (n * τ.inSize), dFirst + n) := by
  induction n generalizing mem first dFirst with
  | zero =>
    rw [longCopy, if_pos (by omega), Nat.zero_mul, copyBytes_zero]
    rfl
  | succ n ih =>
    have hmul : (n + 1) * τ.inSize = τ.inSize + n * τ.inSize := by
      rw [Nat.add_mul, Nat.one_mul, Nat.add_comm]
    rw [hmul] at hdisj
    have hrest : dst.addr (dFirst + 1) + n * τ.inSize ≤ src.addr (first + 1) ∨
        src.addr (first + 1) + n * τ.inSize ≤ dst.addr (dFirst + 1) := by
      rw [hcs first, hcd dFirst]
      omega
    have hrun := ih (τ.assign mem (dst.addr dFirst) (src.addr first)) (by omega) (by omega) hrest
    rw [longCopy, if_neg (by omega), if_pos ⟨by omega, by omega⟩,
      show first + (n + 1) = first + 1 + n by omega, hrun, τ.assign_trivial hsel, hcs first,
      hcd dFirst, copyBytes_add mem hdisj, ← hmul, show dFirst + 1 + n = dFirst + (n + 1) by omega]

/-! ## The two compared -/

/-- **Both copies leave the same memory**, in contiguous sequences of a
trivially copyable type that do not overlap, where there is something to
copy. -/
theorem select_contents (hsel : τ.sel = true) (hcs : src.Contiguous τ.inSize)
    (hcd : dst.Contiguous τ.inSize) (n : ℕ) (mem : Mem) {first out : ℕ}
    (hsrc : first + (n + 1) ≤ src.len) (hdst : out + (n + 1) ≤ dst.len)
    (hdisj : dst.addr out + (n + 1) * τ.inSize ≤ src.addr first ∨
      src.addr first + (n + 1) * τ.inSize ≤ dst.addr out) :
    (select τ src dst true mem first (first + (n + 1)) out).map Prod.fst
      = (select τ src dst false mem first (first + (n + 1)) out).map Prod.fst := by
  have hlong := longCopy_contents hsel hcs hcd (n + 1) mem hsrc hdst hdisj
  have hd : dst.deref out = some (dst.addr out) := if_pos (by omega)
  have hs : src.deref first = some (src.addr first) := if_pos (by omega)
  have hsz : first + (n + 1) - first = n + 1 := by omega
  simp only [select, hlong, hd, hs, hsz, memcpy, if_pos hdisj, Option.bind_eq_bind,
    Option.bind_some, Option.map_some]
  rfl

/-- **Main result**: a call copies as the loop does exactly when it selects the
loop, or the range is empty and both iterators are at an element. -/
theorem nonnaiveCopy_agrees_iff (τ : ValueTypes) (src dst : Sequence) (mem : Mem)
    (first last out : ℕ) (hrange : first ≤ last) (hsrc : last ≤ src.len)
    (hdst : out + (last - first) ≤ dst.len) :
    Agrees τ src dst mem first last out ↔
      τ.sel = false ∨ (first = last ∧ first < src.len ∧ out < dst.len) := by
  obtain ⟨n, rfl⟩ := Nat.exists_eq_add_of_le hrange
  rw [Nat.add_sub_cancel_left] at hdst
  obtain ⟨mem', hlong⟩ := longCopy_returns (τ := τ) n mem hsrc hdst
  unfold Agrees nonnaiveCopy
  cases hsel : τ.sel with
  | false => exact iff_of_true ⟨_, hlong, hlong⟩ (.inl rfl)
  | true =>
    constructor
    · rintro ⟨r, hsel, hloop⟩
      obtain rfl : (mem', out + n) = r := by simpa [hlong] using hloop
      obtain ⟨d, hd, hsel⟩ := Option.bind_eq_some_iff.mp hsel
      obtain ⟨s, hs, hsel⟩ := Option.bind_eq_some_iff.mp hsel
      obtain ⟨m, -, hsel⟩ := Option.bind_eq_some_iff.mp hsel
      -- the iterators returned are the same only when there is nothing to copy
      obtain ⟨-, hout⟩ : m = mem' ∧ out = out + n := by simpa using hsel
      have hsrc' : first < src.len := by
        by_contra h
        simp [Sequence.deref, h] at hs
      have hdst' : out < dst.len := by
        by_contra h
        simp [Sequence.deref, h] at hd
      exact .inr ⟨by omega, hsrc', hdst'⟩
    · rintro (h | ⟨hempty, hsrc', hdst'⟩)
      · cases h
      obtain rfl : n = 0 := by omega
      refine ⟨(mem, out), ?_, by rw [longCopy, if_pos (by omega)]⟩
      simp [select, Sequence.deref, hsrc', hdst', memcpy, Nat.le_total]

/-! ## On integers -/

/-- Iterators over `int`s: four bytes, trivially copyable. -/
def ints : ValueTypes where
  inSize := 4
  inTrivial := true
  outTrivial := true
  same := true
  assign := fun mem d s => copyBytes mem d s 4
  assign_trivial := fun _ _ _ _ => rfl

/-- Two elements of one array copied to another one, and an empty range in
front of an element of each. -/
theorem nonnaiveCopy_agrees_iff_arrays :
    (Agrees ints ⟨2, fun i => 4 * i⟩ ⟨2, fun i => 100 + 4 * i⟩ (fun i => UInt8.ofNat i) 0 2 0 ↔
        ints.sel = false ∨ ((0 : ℕ) = 2 ∧ 0 < 2 ∧ 0 < 2)) ∧
      (Agrees ints ⟨2, fun i => 4 * i⟩ ⟨2, fun i => 100 + 4 * i⟩ (fun i => UInt8.ofNat i) 0 0 0 ↔
        ints.sel = false ∨ ((0 : ℕ) = 0 ∧ 0 < 2 ∧ 0 < 2)) :=
  ⟨nonnaiveCopy_agrees_iff ints ⟨2, fun i => 4 * i⟩ ⟨2, fun i => 100 + 4 * i⟩ _ 0 2 0
      (by decide) (by decide) (by decide),
    nonnaiveCopy_agrees_iff ints ⟨2, fun i => 4 * i⟩ ⟨2, fun i => 100 + 4 * i⟩ _ 0 0 0
      (by decide) (by decide) (by decide)⟩

/-- Copying the two elements of an array returns the beginning of the
destination. -/
theorem nonnaiveCopy_counterexample :
    ¬ ∀ (τ : ValueTypes) (src dst : Sequence) (mem : Mem) (first last out : ℕ), first ≤ last →
      last ≤ src.len → out + (last - first) ≤ dst.len →
      (∀ i j, i < src.len → j < dst.len → src.addr i + τ.inSize ≤ dst.addr j) →
      src.Contiguous τ.inSize → dst.Contiguous τ.inSize →
      Agrees τ src dst mem first last out := by
  intro h
  obtain ⟨r, hsel, hloop⟩ := h ints ⟨2, fun i => 4 * i⟩ ⟨2, fun i => 100 + 4 * i⟩ (fun _ => 0)
    0 2 0 (by decide) (by decide) (by decide) (by simp [ints]; omega)
    (fun i => by simp [ints]; omega) (fun i => by simp [ints]; omega)
  have hout : r.2 = 0 := by
    simp [nonnaiveCopy, ValueTypes.sel, ints, select, Sequence.deref, memcpy] at hsel
    simp [← hsel]
  have hend : r.2 = 2 := by
    simp [longCopy] at hloop
    simp [← hloop]
  omega

end BenchCopy
