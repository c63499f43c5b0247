import Nvram.Basic
import Mathlib.Logic.Function.Iterate

/-!
# The checksum of zlib

`crc32` of zlib, without its table.  The platform format has the checksum as a parameter, and the
results about the format are evaluated with this one.
-/

namespace Nvram

/-- One shift of the remainder: the polynomial is taken off where the last bit is set. -/
def crcShift (c : ℕ) : ℕ := (c / 2) ^^^ (c % 2 * 0xEDB88320)

/-- The remainder after one more byte. -/
def crcByte (c : ℕ) (b : UInt8) : ℕ := crcShift^[8] (c ^^^ b.toNat)

/-- The remainder after more bytes. -/
def crcBytes : Bytes → ℕ → ℕ
  | [], c => c
  | b :: bs, c =>
    -- the split has the remainder evaluated before the next byte is looked at
    match crcByte c b with
    | 0 => crcBytes bs 0
    | n + 1 => crcBytes bs (n + 1)

theorem crcBytes_eq_foldl (bs : Bytes) (c : ℕ) : crcBytes bs c = bs.foldl crcByte c := by
  induction bs generalizing c with
  | nil => rfl
  | cons b bs ih =>
      rw [List.foldl_cons, ← ih, crcBytes]
      cases crcByte c b <;> rfl

/-- `crc32(0, buf, len)`. -/
def zlibCrc32 (buf : Bytes) : UInt32 := UInt32.ofNat (crcBytes buf 0xFFFFFFFF ^^^ 0xFFFFFFFF)

/-- The check value of the algorithm. -/
example : zlibCrc32 (lit "123456789").bytes = 0xCBF43926 := by decide +kernel

end Nvram
