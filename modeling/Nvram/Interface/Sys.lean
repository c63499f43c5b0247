import Nvram.Call

/-!
# The system calls behind the interfaces

What the functions of `struct nvram_interface` ask of the kernel and of libmtd.  A `read`
or a `write` moves at most the number of bytes asked for.
-/

namespace Nvram

open Effects

/-- The types of a file that the source tells apart. -/
inductive FileType where
  | reg
  | blk
  | other
  deriving DecidableEq, Repr

/-- `st_mode` and `st_size` of `struct stat`. -/
structure FileStat where
  type : FileType
  size : ℕ
  deriving DecidableEq, Repr

inductive OpenFlags where
  | rdonly
  | wronly
  | wronlyCreat
  | wronlyCreatTrunc
  deriving DecidableEq, Repr

/-- `struct mtd_info`: the range of device numbers. -/
structure MtdInfo where
  lowestMtdNum : ℤ
  highestMtdNum : ℤ
  deriving DecidableEq, Repr

/-- `struct mtd_dev_info`. -/
structure MtdDevInfo where
  name : CString
  mtdNum : ℤ
  size : ℤ
  deriving DecidableEq, Repr

inductive SysCall where
  | mallocStruct
  | malloc (size : ℕ)
  | printDebug (fmt : String) (args : List Arg)
  | stat (path : CString)
  | openFile (path : CString) (flags : OpenFlags)
  | blkGetSize64 (fd : Fd)
  | memErase (fd : Fd) (start length : UInt32)
  | read (fd : Fd) (size : ℕ)
  | write (fd : Fd) (buf : Bytes)
  | close (fd : Fd)
  /-- `close(-1)`, the value of an open that failed -/
  | closeUnopened
  | errno
  | fgetflags (path : CString)
  | fsetflags (path : CString) (flags : UInt64)
  | libmtdOpen
  | mtdGetInfo
  | mtdGetDevInfo1 (num : ℤ)
  | libmtdClose
  deriving DecidableEq

/-- `mallocStruct` gives the address of the memory.  libmtd reports failure through `errno`,
which it may leave at 0. -/
@[reducible] def SysCall.Res : SysCall → Type
  | .mallocStruct => Option ℕ
  | .malloc n => Option {buf : Bytes // buf.length = n}
  | .stat _ => Except Errno FileStat
  | .openFile _ _ => Except Errno Fd
  | .blkGetSize64 _ => Except Errno UInt64
  | .memErase _ _ _ => Except Errno Unit
  | .read _ n => Except Errno {buf : Bytes // buf.length ≤ n}
  | .write _ buf => Except Errno {n : ℕ // n ≤ buf.length}
  | .errno => ℕ
  | .fgetflags _ => Except Errno UInt64
  | .fsetflags _ _ => Except Errno Unit
  | .libmtdOpen => Except ℕ Unit
  | .mtdGetInfo => Except ℕ MtdInfo
  | .mtdGetDevInfo1 _ => Except ℕ MtdDevInfo
  | _ => Unit

abbrev sysSig : Sig := ⟨SysCall, SysCall.Res⟩

/-- The count of a complete write. -/
def allWritten (buf : Bytes) : {n : ℕ // n ≤ buf.length} := ⟨buf.length, le_rfl⟩

@[simp] theorem allWritten_val (buf : Bytes) : (allWritten buf).val = buf.length := rfl

abbrev SysProg (α : Type) := Prog sysSig α

namespace Sys

/-- `malloc(sizeof(struct ...))`. -/
def mallocStruct : SysProg (Option ℕ) := Prog.call (S := sysSig) .mallocStruct

def malloc (size : ℕ) : SysProg (Option {buf : Bytes // buf.length = size}) :=
  Prog.call (S := sysSig) (.malloc size)

def prDbg (fmt : String) (args : List Arg) : SysProg Unit :=
  Prog.call (S := sysSig) (.printDebug ("dbg: " ++ fmt) args)

def stat (path : CString) : SysProg (Except Errno FileStat) :=
  Prog.call (S := sysSig) (.stat path)

def openFile (path : CString) (flags : OpenFlags) : SysProg (Except Errno Fd) :=
  Prog.call (S := sysSig) (.openFile path flags)

def blkGetSize64 (fd : Fd) : SysProg (Except Errno UInt64) :=
  Prog.call (S := sysSig) (.blkGetSize64 fd)

def memErase (fd : Fd) (start length : UInt32) : SysProg (Except Errno Unit) :=
  Prog.call (S := sysSig) (.memErase fd start length)

def read (fd : Fd) (size : ℕ) : SysProg (Except Errno {buf : Bytes // buf.length ≤ size}) :=
  Prog.call (S := sysSig) (.read fd size)

def write (fd : Fd) (buf : Bytes) : SysProg (Except Errno {n : ℕ // n ≤ buf.length}) :=
  Prog.call (S := sysSig) (.write fd buf)

def close (fd : Fd) : SysProg Unit := Prog.call (S := sysSig) (.close fd)

def closeUnopened : SysProg Unit := Prog.call (S := sysSig) .closeUnopened

def errno : SysProg ℕ := Prog.call (S := sysSig) .errno

def fgetflags (path : CString) : SysProg (Except Errno UInt64) :=
  Prog.call (S := sysSig) (.fgetflags path)

def fsetflags (path : CString) (flags : UInt64) : SysProg (Except Errno Unit) :=
  Prog.call (S := sysSig) (.fsetflags path flags)

def libmtdOpen : SysProg (Except ℕ Unit) := Prog.call (S := sysSig) .libmtdOpen

def mtdGetInfo : SysProg (Except ℕ MtdInfo) := Prog.call (S := sysSig) .mtdGetInfo

def mtdGetDevInfo1 (num : ℤ) : SysProg (Except ℕ MtdDevInfo) :=
  Prog.call (S := sysSig) (.mtdGetDevInfo1 num)

def libmtdClose : SysProg Unit := Prog.call (S := sysSig) .libmtdClose

/-- `return -errno` where 0 is a success with the value `a`. -/
def negErrno {α : Type} (code : ℕ) (a : α) : Except Errno α :=
  if h : 0 < code then .error ⟨code, h⟩ else .ok a

/-! ### Running a call before the rest of a program -/

section

variable {α σ : Type} (h : Handler sysSig σ) (s : σ)

@[simp] theorem run_mallocStruct (f : Option ℕ → SysProg α) :
    run h (mallocStruct >>= f) s = run h (f (h .mallocStruct s).1) (h .mallocStruct s).2 := rfl

@[simp] theorem run_malloc (n : ℕ)
    (f : Option {buf : Bytes // buf.length = n} → SysProg α) :
    run h (malloc n >>= f) s = run h (f (h (.malloc n) s).1) (h (.malloc n) s).2 := rfl

@[simp] theorem run_prDbg (fmt : String) (args : List Arg) (f : Unit → SysProg α) :
    run h (prDbg fmt args >>= f) s =
      run h (f ()) (h (.printDebug ("dbg: " ++ fmt) args) s).2 := rfl

@[simp] theorem run_stat (path : CString) (f : Except Errno FileStat → SysProg α) :
    run h (stat path >>= f) s = run h (f (h (.stat path) s).1) (h (.stat path) s).2 := rfl

@[simp] theorem run_openFile (path : CString) (flags : OpenFlags)
    (f : Except Errno Fd → SysProg α) :
    run h (openFile path flags >>= f) s =
      run h (f (h (.openFile path flags) s).1) (h (.openFile path flags) s).2 := rfl

@[simp] theorem run_blkGetSize64 (fd : Fd) (f : Except Errno UInt64 → SysProg α) :
    run h (blkGetSize64 fd >>= f) s =
      run h (f (h (.blkGetSize64 fd) s).1) (h (.blkGetSize64 fd) s).2 := rfl

@[simp] theorem run_memErase (fd : Fd) (start length : UInt32)
    (f : Except Errno Unit → SysProg α) :
    run h (memErase fd start length >>= f) s =
      run h (f (h (.memErase fd start length) s).1) (h (.memErase fd start length) s).2 := rfl

@[simp] theorem run_read (fd : Fd) (n : ℕ)
    (f : Except Errno {buf : Bytes // buf.length ≤ n} → SysProg α) :
    run h (read fd n >>= f) s = run h (f (h (.read fd n) s).1) (h (.read fd n) s).2 := rfl

@[simp] theorem run_write (fd : Fd) (buf : Bytes)
    (f : Except Errno {n : ℕ // n ≤ buf.length} → SysProg α) :
    run h (write fd buf >>= f) s = run h (f (h (.write fd buf) s).1) (h (.write fd buf) s).2 :=
  rfl

@[simp] theorem run_close (fd : Fd) (f : Unit → SysProg α) :
    run h (close fd >>= f) s = run h (f ()) (h (.close fd) s).2 := rfl

@[simp] theorem run_errno (f : ℕ → SysProg α) :
    run h (errno >>= f) s = run h (f (h .errno s).1) (h .errno s).2 := rfl

@[simp] theorem run_libmtdOpen (f : Except ℕ Unit → SysProg α) :
    run h (libmtdOpen >>= f) s = run h (f (h .libmtdOpen s).1) (h .libmtdOpen s).2 := rfl

@[simp] theorem run_mtdGetInfo (f : Except ℕ MtdInfo → SysProg α) :
    run h (mtdGetInfo >>= f) s = run h (f (h .mtdGetInfo s).1) (h .mtdGetInfo s).2 := rfl

@[simp] theorem run_mtdGetDevInfo1 (num : ℤ) (f : Except ℕ MtdDevInfo → SysProg α) :
    run h (mtdGetDevInfo1 num >>= f) s =
      run h (f (h (.mtdGetDevInfo1 num) s).1) (h (.mtdGetDevInfo1 num) s).2 := rfl

@[simp] theorem run_libmtdClose (f : Unit → SysProg α) :
    run h (libmtdClose >>= f) s = run h (f ()) (h .libmtdClose s).2 := rfl

end

end Sys

end Nvram
