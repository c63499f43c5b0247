import Nvram.Libnvram
import Nvram.Library.Prog

/-!
# What the program asks of the outside

Every call of `main` and of the formats that can fail, or that another process or a device
can see, is an operation: allocation, output, the lockfile system calls, the two libnvram
functions that allocate, and the functions behind `struct nvram_interface`.  A `Call` says
what is asked, `Call.Res` what can be answered.
-/

namespace Nvram

open Effects

/-- `struct nvram_interface`: which of the three implementations a pointer denotes. -/
inductive Interface where
  | file
  | mtd
  | efi
  deriving DecidableEq, Repr

/-- `struct nvram_mtd`: the device node and its size. -/
structure NvramMtd where
  path : CString
  size : ℤ
  deriving DecidableEq, Repr

/-- What an interface's init adds to a handle: the address of the allocated `nvram_priv`,
and for an mtd handle the device and the write protect GPIO. -/
structure PrivData where
  addr : ℕ
  mtd : Option NvramMtd
  gpio : Option CString
  deriving DecidableEq, Repr

/-- `struct nvram_priv`.  Every interface keeps the section string it was given. -/
structure NvramPriv where
  path : CString
  data : PrivData
  deriving DecidableEq, Repr

/-- Arguments of a log line. -/
inductive Arg where
  | str (s : Option CString)
  | lit (s : String)
  | num (n : ℤ)
  | strerror (e : Errno)
  deriving DecidableEq, Repr

abbrev Fd := ℕ

inductive Call where
  | malloc (size : ℕ)
  | mallocStruct
  | enableDebug
  | printDebug (fmt : String) (args : List Arg)
  | fprintfStderr (fmt : String) (args : List Arg)
  | print (text : Bytes)
  | printUsage (sections : List (Option CString))
  | openLock (path : CString)
  | flock (fd : Fd)
  | usleep (us : ℕ)
  | errnoIsErange
  | close (fd : Fd)
  | unlink (path : CString)
  | listSet (list : List Entry) (entry : Entry)
  | deserialize (data : Bytes) (hdr : LibnvramHeader)
  | init (interface : Interface) (path : CString)
  | size (interface : Interface) (priv : Option NvramPriv)
  | read (interface : Interface) (priv : Option NvramPriv) (size : ℕ)
  | write (interface : Interface) (priv : Option NvramPriv) (buf : Bytes)
  | sectionOf (interface : Interface) (priv : Option NvramPriv)
  | destroy (interface : Interface) (priv : Option NvramPriv)
  deriving DecidableEq

/-- A successful `malloc` gives memory of the size asked for with arbitrary content; a
successful `read` gives exactly the number of bytes asked for. -/
@[reducible] def Call.Res : Call → Type
  | .malloc n => Option {buf : Bytes // buf.length = n}
  | .mallocStruct => Bool
  | .errnoIsErange => Bool
  | .openLock _ => Except Errno Fd
  | .flock _ => Except Errno Unit
  | .close _ => Except Errno Unit
  | .unlink _ => Except Errno Unit
  | .listSet _ _ => Except Errno (List Entry)
  | .deserialize _ _ => Except Errno (List Entry)
  | .init _ _ => Except Errno PrivData
  | .size _ _ => Except Errno ℕ
  | .read _ _ n => Except Errno {buf : Bytes // buf.length = n}
  | .write _ _ _ => Except Errno Unit
  | .sectionOf _ _ => Option CString
  | _ => Unit

abbrev callSig : Sig := ⟨Call, Call.Res⟩

abbrev NProg (α : Type) := Prog callSig α

abbrev CallEvent := Event callSig

/-! ### The calls under their C names -/

def malloc (size : ℕ) : NProg (Option {buf : Bytes // buf.length = size}) :=
  Prog.call (S := callSig) (.malloc size)

/-- `malloc(sizeof(struct ...))`. -/
def mallocStruct : NProg Bool := Prog.call (S := callSig) .mallocStruct

def enableDebug : NProg Unit := Prog.call (S := callSig) .enableDebug

/-- `print_debug` prints when `enable_debug` was called before. -/
def printDebug (fmt : String) (args : List Arg) : NProg Unit :=
  Prog.call (S := callSig) (.printDebug fmt args)

/-- `pr_dbg`. -/
def prDbg (fmt : String) (args : List Arg) : NProg Unit := printDebug ("dbg: " ++ fmt) args

/-- `fprintf` to standard error. -/
def fprintfStderr (fmt : String) (args : List Arg) : NProg Unit :=
  Prog.call (S := callSig) (.fprintfStderr fmt args)

/-- `pr_err`. -/
def prErr (fmt : String) (args : List Arg) : NProg Unit := fprintfStderr ("error: " ++ fmt) args

/-- `printf` to standard output. -/
def print (text : Bytes) : NProg Unit := Prog.call (S := callSig) (.print text)

def openLock (path : CString) : NProg (Except Errno Fd) :=
  Prog.call (S := callSig) (.openLock path)

def flock (fd : Fd) : NProg (Except Errno Unit) := Prog.call (S := callSig) (.flock fd)

def usleep (us : ℕ) : NProg Unit := Prog.call (S := callSig) (.usleep us)

/-- Whether `errno` is `ERANGE`, as whatever ran before left it. -/
def errnoIsErange : NProg Bool := Prog.call (S := callSig) .errnoIsErange

def close (fd : Fd) : NProg (Except Errno Unit) := Prog.call (S := callSig) (.close fd)

def unlink (path : CString) : NProg (Except Errno Unit) :=
  Prog.call (S := callSig) (.unlink path)

def libnvramListSet (list : List Entry) (entry : Entry) : NProg (Except Errno (List Entry)) :=
  Prog.call (S := callSig) (.listSet list entry)

def libnvramDeserialize (data : Bytes) (hdr : LibnvramHeader) :
    NProg (Except Errno (List Entry)) :=
  Prog.call (S := callSig) (.deserialize data hdr)

namespace Interface

variable (interface : Interface)

def init (path : CString) : NProg (Except Errno NvramPriv) := do
  match ← (Prog.call (S := callSig) (.init interface path) : NProg (Except Errno PrivData)) with
  | .error e => return .error e
  | .ok data => return .ok ⟨path, data⟩

def size (priv : Option NvramPriv) : NProg (Except Errno ℕ) :=
  Prog.call (S := callSig) (.size interface priv)

def read (priv : Option NvramPriv) (size : ℕ) :
    NProg (Except Errno {buf : Bytes // buf.length = size}) :=
  Prog.call (S := callSig) (.read interface priv size)

def write (priv : Option NvramPriv) (buf : Bytes) : NProg (Except Errno Unit) :=
  Prog.call (S := callSig) (.write interface priv buf)

def sectionOf (priv : Option NvramPriv) : NProg (Option CString) :=
  Prog.call (S := callSig) (.sectionOf interface priv)

def destroy (priv : Option NvramPriv) : NProg Unit :=
  Prog.call (S := callSig) (.destroy interface priv)

end Interface

/-! ### A call followed by the rest of a program -/

section

variable {α : Type}

@[simp] theorem malloc_bind (n : ℕ) (f : Option {buf : Bytes // buf.length = n} → NProg α) :
    (malloc n >>= f) = .op (.malloc n) f := rfl

@[simp] theorem mallocStruct_bind (f : Bool → NProg α) :
    (mallocStruct >>= f) = .op .mallocStruct f := rfl

@[simp] theorem enableDebug_bind (f : Unit → NProg α) :
    (enableDebug >>= f) = .op .enableDebug f := rfl

@[simp] theorem prDbg_bind (fmt : String) (args : List Arg) (f : Unit → NProg α) :
    (prDbg fmt args >>= f) = .op (.printDebug ("dbg: " ++ fmt) args) f := rfl

@[simp] theorem fprintfStderr_bind (fmt : String) (args : List Arg) (f : Unit → NProg α) :
    (fprintfStderr fmt args >>= f) = .op (.fprintfStderr fmt args) f := rfl

@[simp] theorem prErr_bind (fmt : String) (args : List Arg) (f : Unit → NProg α) :
    (prErr fmt args >>= f) = .op (.fprintfStderr ("error: " ++ fmt) args) f := rfl

@[simp] theorem print_bind (text : Bytes) (f : Unit → NProg α) :
    (print text >>= f) = .op (.print text) f := rfl

@[simp] theorem openLock_bind (path : CString) (f : Except Errno Fd → NProg α) :
    (openLock path >>= f) = .op (.openLock path) f := rfl

@[simp] theorem flock_bind (fd : Fd) (f : Except Errno Unit → NProg α) :
    (flock fd >>= f) = .op (.flock fd) f := rfl

@[simp] theorem usleep_bind (us : ℕ) (f : Unit → NProg α) :
    (usleep us >>= f) = .op (.usleep us) f := rfl

@[simp] theorem errnoIsErange_bind (f : Bool → NProg α) :
    (errnoIsErange >>= f) = .op .errnoIsErange f := rfl

@[simp] theorem close_bind (fd : Fd) (f : Except Errno Unit → NProg α) :
    (close fd >>= f) = .op (.close fd) f := rfl

@[simp] theorem unlink_bind (path : CString) (f : Except Errno Unit → NProg α) :
    (unlink path >>= f) = .op (.unlink path) f := rfl

@[simp] theorem libnvramListSet_bind (list : List Entry) (entry : Entry)
    (f : Except Errno (List Entry) → NProg α) :
    (libnvramListSet list entry >>= f) = .op (.listSet list entry) f := rfl

@[simp] theorem libnvramDeserialize_bind (data : Bytes) (hdr : LibnvramHeader)
    (f : Except Errno (List Entry) → NProg α) :
    (libnvramDeserialize data hdr >>= f) = .op (.deserialize data hdr) f := rfl

namespace Interface

variable (interface : Interface) (priv : Option NvramPriv)

@[simp] theorem init_bind (path : CString) (f : Except Errno NvramPriv → NProg α) :
    (interface.init path >>= f) =
      .op (.init interface path) fun r => f (r.map (NvramPriv.mk path)) := by
  unfold init
  rw [bind_assoc]
  refine congrArg (Prog.op (S := callSig) (.init interface path)) (funext fun r => ?_)
  cases r <;> rfl

@[simp] theorem size_bind (f : Except Errno ℕ → NProg α) :
    (interface.size priv >>= f) = .op (.size interface priv) f := rfl

@[simp] theorem read_bind (n : ℕ)
    (f : Except Errno {buf : Bytes // buf.length = n} → NProg α) :
    (interface.read priv n >>= f) = .op (.read interface priv n) f := rfl

@[simp] theorem write_bind (buf : Bytes) (f : Except Errno Unit → NProg α) :
    (interface.write priv buf >>= f) = .op (.write interface priv buf) f := rfl

@[simp] theorem sectionOf_bind (f : Option CString → NProg α) :
    (interface.sectionOf priv >>= f) = .op (.sectionOf interface priv) f := rfl

@[simp] theorem destroy_bind (f : Unit → NProg α) :
    (interface.destroy priv >>= f) = .op (.destroy interface priv) f := rfl

end Interface

end

end Nvram
