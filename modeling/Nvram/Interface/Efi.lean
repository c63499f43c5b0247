import Nvram.Interface.Sys

/-!
# The efi interface

`nvram_interface_efi.c`: a section is an EFI variable file.  Its content follows a header of
four attribute bytes, and the file is immutable except while it is written.
-/

namespace Nvram

open Effects Errno

/-- The bytes of `EFI_HEADER`. -/
def EFI_HEADER : Bytes := [7, 0, 0, 0]

def EXT2_IMMUTABLE_FL : UInt64 := 0x10

def efiInit : SysProg (Except Errno PrivData) := do
  match ← Sys.mallocStruct with
  | none => return .error enomem
  | some addr => return .ok ⟨addr, none, none⟩

def efiSize (path : CString) : SysProg (Except Errno ℕ) := do
  match ← Sys.stat path with
  | .error e =>
    if e = enoent then
      return .ok 0
    else
      return .error e
  | .ok sb =>
    if sb.size < EFI_HEADER.length then
      return .error ebadf
    else
      return .ok (sb.size - EFI_HEADER.length)

def efiRead (path : CString) (size : ℕ) :
    SysProg (Except Errno {buf : Bytes // buf.length = size}) := do
  match ← Sys.openFile path .rdonly with
  | .error e => return .error e
  | .ok fd =>
    match ← Sys.malloc (size + EFI_HEADER.length) with
    -- the descriptor stays open
    | none => return .error enomem
    | some _ =>
      let r ← Sys.read fd (size + EFI_HEADER.length)
      Sys.close fd
      match r with
      | .error e => return .error e
      | .ok buf =>
        return if h : buf.val.length = size + EFI_HEADER.length then
          .ok ⟨buf.val.drop EFI_HEADER.length, by simp [h]⟩
        else .error eio

def setImmutable (path : CString) (value : Bool) : SysProg (Except Errno Unit) := do
  match ← Sys.fgetflags path with
  | .error e => return .error e
  | .ok flags =>
    Sys.fsetflags path
      (if value then flags ||| EXT2_IMMUTABLE_FL else flags &&& ~~~EXT2_IMMUTABLE_FL)

def efiWrite (path : CString) (buf : Bytes) : SysProg (Except Errno Unit) := do
  let r ← setImmutable path false
  match r with
  | .error e => if e ≠ enoent then return .error e
  | .ok () => pure ()
  match ← Sys.openFile path .wronlyCreat with
  | .error e =>
    let _ ← setImmutable path true
    -- `fd` is -1
    Sys.closeUnopened
    return .error e
  | .ok fd =>
    let r ← do
      match ← Sys.malloc (buf.length + EFI_HEADER.length) with
      | none => pure (.error enomem)
      | some _ =>
        match ← Sys.write fd (EFI_HEADER ++ buf) with
        | .error e => pure (.error e)
        | .ok bytes =>
          pure (if bytes.val ≠ buf.length + EFI_HEADER.length then .error eio else .ok ())
    let _ ← setImmutable path true
    Sys.close fd
    return r

/-! ### The parts of a write -/

/-- The buffer behind the header, in one write. -/
def efiPut (fd : Fd) (buf : Bytes) : SysProg (Except Errno Unit) := do
  match ← Sys.malloc (buf.length + EFI_HEADER.length) with
  | none => pure (.error enomem)
  | some _ =>
    match ← Sys.write fd (EFI_HEADER ++ buf) with
    | .error e => pure (.error e)
    | .ok bytes =>
      pure (if bytes.val ≠ buf.length + EFI_HEADER.length then .error eio else .ok ())

/-- What `efi_write` does once the file is not immutable. -/
def efiStore (path : CString) (buf : Bytes) : SysProg (Except Errno Unit) := do
  match ← Sys.openFile path .wronlyCreat with
  | .error e =>
    let _ ← setImmutable path true
    -- `fd` is -1
    Sys.closeUnopened
    return .error e
  | .ok fd =>
    let r ← efiPut fd buf
    let _ ← setImmutable path true
    Sys.close fd
    return r

theorem efiWrite_eq (path : CString) (buf : Bytes) :
    efiWrite path buf = (do
      match ← setImmutable path false with
      | .error e => if e ≠ enoent then return .error e else efiStore path buf
      | .ok () => efiStore path buf) := by
  have hop : ∀ {o : SysCall} {k k' : SysCall.Res o → SysProg (Except Errno Unit)},
      (∀ r, k r = k' r) → Prog.op (S := sysSig) o k = .op o k' :=
    fun h => congrArg (Prog.op (S := sysSig) _) (funext h)
  unfold efiWrite
  congr 1
  funext r
  rcases r with e | u
  on_goal 1 =>
    dsimp only
    split
    · rfl
  -- both ways to the file go on alike
  all_goals
    refine hop fun r => ?_
    cases r with
    | error e => rfl
    | ok fd =>
        refine hop fun mem => ?_
        cases mem with
        | none => rfl
        | some mem =>
            refine hop fun r => ?_
            cases r <;> rfl

end Nvram
