import Nvram.Basic

/-!
# The C library functions that convert numbers

`strtol` with base 10, `strtoul` and `strtoull` with base 0 and `"0x%x"`, as the C standard
describes them for 64-bit `long`.  A conversion gives the value, how many bytes the end
pointer is past the start, and whether the value was out of range.
-/

namespace Nvram

/-- `isspace` in the C locale. -/
def isSpaceByte (b : UInt8) : Bool := b = 32 || (9 ≤ b && b ≤ 13)

/-- Value of a digit or letter as `strtoul` counts it, up to base 36. -/
def digitValue (b : UInt8) : Option ℕ :=
  if 48 ≤ b ∧ b ≤ 57 then some (b.toNat - 48)
  else if 97 ≤ b ∧ b ≤ 122 then some (b.toNat - 87)
  else if 65 ≤ b ∧ b ≤ 90 then some (b.toNat - 55)
  else none

def isDigitOf (base : ℕ) (b : UInt8) : Bool :=
  match digitValue b with
  | some d => d < base
  | none => false

/-- The longest digit string in base `base` at the start of `s`. -/
def digitsOf (base : ℕ) (s : Bytes) : Bytes := s.takeWhile (isDigitOf base)

def numeral (base : ℕ) (digits : Bytes) : ℕ :=
  digits.foldl (fun n b => n * base + (digitValue b).getD 0) 0

/-- Base 0: the base, and the length of the `0x` before the digits. -/
def detectBase : Bytes → ℕ × ℕ
  | 48 :: x :: d :: _ =>
    if (x = 120 ∨ x = 88) ∧ isDigitOf 16 d then (16, 2) else (8, 0)
  | 48 :: _ => (8, 0)
  | _ => (10, 0)

structure Conversion where
  /-- Magnitude of the subject sequence, before any range check. -/
  magnitude : ℕ
  negative : Bool
  /-- Bytes between the start and the end pointer; 0 when there is no conversion. -/
  consumed : ℕ
  deriving DecidableEq, Repr

/-- White space, a sign, an optional `0x` (base 0 only) and the digits.  `base` is 0 or 10. -/
def convert (base : ℕ) (s : Bytes) : Conversion :=
  let spaces := s.takeWhile isSpaceByte
  let s₁ := s.drop spaces.length
  let sign := match s₁ with
    | b :: _ => if b = 43 ∨ b = 45 then 1 else 0
    | [] => 0
  let negative := s₁.head? = some 45
  let s₂ := s₁.drop sign
  let (base, skip) := if base = 0 then detectBase s₂ else (base, 0)
  let digits := digitsOf base (s₂.drop skip)
  if digits = [] then ⟨0, false, 0⟩
  else ⟨numeral base digits, negative, spaces.length + sign + skip + digits.length⟩

def ULONG_MAX : ℕ := 2 ^ 64 - 1
def LONG_MAX : ℤ := 2 ^ 63 - 1
def LONG_MIN : ℤ := -2 ^ 63

/-- `strtol(s, &endptr, 10)`, the value only. -/
def strtol10 (s : CString) : ℤ :=
  let c := convert 10 s.bytes
  let v : ℤ := if c.negative then -c.magnitude else c.magnitude
  if v < LONG_MIN then LONG_MIN else if LONG_MAX < v then LONG_MAX else v

/-- The value and the end pointer of `strtoul` (and `strtoull`) with base 0, and whether
`errno` is set to `ERANGE`.  The end pointer is never `NULL`. -/
def strtoul (s : CString) : ℕ × Option ℕ × Bool :=
  let c := convert 0 s.bytes
  if ULONG_MAX < c.magnitude then (ULONG_MAX, some c.consumed, true)
  else
    let v := if c.negative then (2 ^ 64 - c.magnitude) % 2 ^ 64 else c.magnitude
    (v, some c.consumed, false)

/-- `"0x%x"`: lower-case hexadecimal without leading zeros. -/
def hexText (n : ℕ) : Bytes :=
  48 :: 120 :: (Nat.toDigits 16 n).map fun c => UInt8.ofNat c.toNat

end Nvram
