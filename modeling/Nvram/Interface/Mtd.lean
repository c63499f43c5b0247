import Nvram.Interface.Sys
import Nvram.Config

/-!
# The mtd interface

`nvram_interface_mtd.c`: a section is the MTD partition with a given label.  A write erases
the whole partition first, with the write protect GPIO lowered around it where one is set.
-/

namespace Nvram

open Effects Errno

def UINT32_MAX : ℕ := 2 ^ 32 - 1

/-- The loop of `find_mtd` from device `i` on, `rounds` devices being left. -/
def findMtdFrom (label : CString) (highest : ℤ) : ℕ → ℤ → SysProg (Except Errno (ℤ × ℤ))
  | 0, _ => return .ok (0, 0)
  | rounds + 1, i => do
    match ← Sys.mtdGetDevInfo1 i with
    | .error code => return Sys.negErrno code (0, 0)
    | .ok dev =>
      if dev.name = label then
        return .ok (dev.mtdNum, dev.size)
      else if i = highest then
        return .error enodev
      else
        findMtdFrom label highest rounds (i + 1)

/-- The number and the size of the device with the label.  Both stay 0 when nothing sets
them. -/
def findMtd (label : CString) : SysProg (Except Errno (ℤ × ℤ)) := do
  let dev ← Sys.mallocStruct
  let info ← Sys.mallocStruct
  if dev.isNone ∨ info.isNone then
    return .error enomem
  match ← Sys.libmtdOpen with
  | .error code => return Sys.negErrno code (0, 0)
  | .ok () =>
    let r ← do
      match ← Sys.mtdGetInfo with
      | .error code => pure (Sys.negErrno code (0, 0))
      | .ok info =>
        findMtdFrom label info.highestMtdNum
          (info.highestMtdNum - info.lowestMtdNum + 1).toNat info.lowestMtdNum
    Sys.libmtdClose
    return r

/-- `"/dev/mtd%d"` -/
def mtdPath (mtdNum : ℤ) : CString := lit ("/dev/mtd" ++ toString mtdNum)

def initNvramMtd (label : CString) : SysProg (Except Errno NvramMtd) := do
  match ← findMtd label with
  | .error e => return .error e
  | .ok (mtdNum, mtdSize) =>
    Sys.prDbg "%s: found label \"%s\" with index: %d\n"
      [.lit "init_nvram_mtd", .str label, .num mtdNum]
    match ← Sys.malloc ((mtdPath mtdNum).strlen + 1) with
    | none => return .error enomem
    | some _ => return .ok ⟨mtdPath mtdNum, mtdSize⟩

/-- The write protect GPIO: from the environment, else the one compiled in. -/
def wpGpio (env : Environ) (defaultGpio : Option CString) : Option CString :=
  match env "NVRAM_WP_GPIO" with
  | some path => some path
  | none => defaultGpio

def nvramMtdInit (gpio : Option CString) (label : CString) : SysProg (Except Errno PrivData) := do
  match ← Sys.mallocStruct with
  | none => return .error enomem
  | some addr =>
    match ← initNvramMtd label with
    | .error e => return .error e
    | .ok mtd =>
      if gpio.isSome then
        Sys.prDbg "%s: WP_GPIO: %s\n" [.lit "nvram_mtd_init", .str gpio]
      return .ok ⟨addr, some mtd, gpio⟩

/-- `*size = priv->mtd.size`, a `long long` stored in a `size_t`. -/
def nvramMtdSize (mtd : NvramMtd) : ℕ := (mtd.size % 2 ^ 64).toNat

def nvramMtdRead (mtd : NvramMtd) (size : ℕ) :
    SysProg (Except Errno {buf : Bytes // buf.length = size}) := do
  match ← Sys.openFile mtd.path .rdonly with
  | .error e => return .error e
  | .ok fd =>
    let r ← Sys.read fd size
    Sys.close fd
    match r with
    | .error e => return .error e
    | .ok buf => return if h : buf.val.length = size then .ok ⟨buf.val, h⟩ else .error eio

def eraseMtd (fd : Fd) (size : ℤ) : SysProg (Except Errno Unit) :=
  if (UINT32_MAX : ℤ) < size ∨ size < 0 then
    return .error einval
  else
    Sys.memErase fd 0 (UInt32.ofNat size.toNat)

def setGpio (path : CString) (value : Bool) : SysProg (Except Errno Unit) := do
  Sys.prDbg "%s: %s: %d\n" [.lit "set_gpio", .str path, .num (if value then 1 else 0)]
  match ← Sys.openFile path .wronly with
  | .error e => return .error e
  | .ok fd =>
    let r ← Sys.write fd [if value then 49 else 48]
    Sys.close fd
    match r with
    | .error e => return .error e
    | .ok n => if n.val = 1 then return .ok () else return Sys.negErrno (← Sys.errno) ()

/-- `set_gpio` where a GPIO is configured. -/
def setWpGpio (gpio : Option CString) (value : Bool) : SysProg (Except Errno Unit) :=
  match gpio with
  | none => return .ok ()
  | some path => setGpio path value

/-- Erase, then write. -/
def eraseAndWrite (mtd : NvramMtd) (fd : Fd) (buf : Bytes) : SysProg (Except Errno Unit) := do
  Sys.prDbg "%s: erasing\n" [.str mtd.path]
  match ← eraseMtd fd mtd.size with
  | .error e => return .error e
  | .ok () =>
    Sys.prDbg "%s: writing\n" [.str mtd.path]
    match ← Sys.write fd buf with
    | .error e => return .error e
    | .ok bytes => return if bytes.val ≠ buf.length then .error eio else .ok ()

def nvramMtdWrite (mtd : NvramMtd) (gpio : Option CString) (buf : Bytes) :
    SysProg (Except Errno Unit) := do
  match ← Sys.openFile mtd.path .wronly with
  | .error e => return .error e
  | .ok fd =>
    let r ← do
      match ← setWpGpio gpio false with
      | .error e => pure (.error e)
      | .ok () => eraseAndWrite mtd fd buf
    let _ ← setWpGpio gpio true
    Sys.close fd
    return r

end Nvram
