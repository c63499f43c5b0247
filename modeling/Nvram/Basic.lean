import Mathlib.Algebra.Order.Ring.Int
import Mathlib.Data.List.TakeWhile

/-!
# Bytes, C strings, errors and entries

The values every part of the program passes around.  A C string carries the proof that it
has no NUL inside, so its bytes followed by one NUL are what `strlen(s) + 1` bytes at `s`
are; an errno carries the proof that it is positive, so `-errno` is never success.
-/

namespace Nvram

abbrev Bytes := List UInt8

/-- A fresh buffer of zeros. -/
def zeros (n : ℕ) : {buf : Bytes // buf.length = n} := ⟨List.replicate n 0, List.length_replicate⟩

/-- A C string: the bytes before the terminating NUL. -/
structure CString where
  bytes : Bytes
  noNul : (0 : UInt8) ∉ bytes
  deriving DecidableEq, Repr

namespace CString

/-- `strlen`. -/
def strlen (s : CString) : ℕ := s.bytes.length

/-- The `strlen(s) + 1` bytes at `s`. -/
def bytesZ (s : CString) : Bytes := s.bytes ++ [0]

/-- The string that `%s` and `strlen` see in a buffer: the bytes before the first NUL. -/
def ofBuf (buf : Bytes) : CString :=
  ⟨buf.takeWhile (· ≠ 0), fun h => by simpa using List.mem_takeWhile_imp h⟩

@[simp] theorem bytesZ_length (s : CString) : s.bytesZ.length = s.strlen + 1 := by
  simp [bytesZ, strlen]

@[simp] theorem ofBuf_bytesZ (s : CString) : ofBuf s.bytesZ = s := by
  have hs : ∀ b ∈ s.bytes, decide (b ≠ 0) = true := fun b hb => by
    simpa using fun h : b = 0 => s.noNul (h ▸ hb)
  have h : s.bytesZ.takeWhile (· ≠ 0) = s.bytes := by
    rw [bytesZ, List.takeWhile_append_of_pos hs]
    simp
  cases s
  simp only [ofBuf, mk.injEq]
  exact h

theorem bytesZ_injective : Function.Injective bytesZ := fun s t h => by
  rw [← ofBuf_bytesZ s, h, ofBuf_bytesZ]

end CString

/-- A string constant of the source. -/
def lit (s : String) : CString :=
  ⟨(s.toList.map fun c => UInt8.ofNat c.toNat).filter (· ≠ 0), by simp⟩

def intMax : ℕ := 2147483647

def SIZE_MAX : ℕ := 2 ^ 64 - 1

/-- A positive error number; the functions of the source return its negation. -/
structure Errno where
  code : ℕ
  pos : 0 < code
  deriving DecidableEq, Repr

namespace Errno

def eperm : Errno := ⟨1, by decide⟩
def enoent : Errno := ⟨2, by decide⟩
def eio : Errno := ⟨5, by decide⟩
def ebadf : Errno := ⟨9, by decide⟩
def ewouldblock : Errno := ⟨11, by decide⟩
def enomem : Errno := ⟨12, by decide⟩
def eacces : Errno := ⟨13, by decide⟩
def enodev : Errno := ⟨19, by decide⟩
def einval : Errno := ⟨22, by decide⟩
def eopnotsupp : Errno := ⟨95, by decide⟩
def enotsup : Errno := ⟨95, by decide⟩
def etimedout : Errno := ⟨110, by decide⟩

end Errno

/-- `struct libnvram_entry`: a key and a value with their lengths. -/
structure Entry where
  key : Bytes
  value : Bytes
  deriving DecidableEq, Repr

/-- The entry of a key and a value that are C strings. -/
def textEntry (t : CString × CString) : Entry := ⟨t.1.bytesZ, t.2.bytesZ⟩

end Nvram
