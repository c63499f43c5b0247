import Nvram.Config

/-!
# The command line program

`main.c`: parse the arguments, check the operations, take the lockfile, load the system and
the user side that the mode allows, execute the operations, commit what changed, release the
lockfile.  The bit sets of `enum op` and `enum mode` are records of their bits, and an
operation carries exactly the strings its command takes.
-/

namespace Nvram

open Errno

def NVRAM_LOCKFILE : CString := lit "/run/lock/nvram.lock"

section

variable (cfg : BuildConfig) (env : Environ)

def systemUnlocked : Bool := env "NVRAM_SYSTEM_UNLOCK" = some (lit "16440")

/-- Whether the system prefix is enforced; an empty one disables it. -/
def sysPrefixEnforced : Bool := 0 < cfg.systemPrefix.strlen

def startsWithSysPrefix (str : CString) : Bool :=
  cfg.systemPrefix.strlen < str.strlen &&
    str.bytes.take cfg.systemPrefix.strlen = cfg.systemPrefix.bytes

end

/-! ### The lockfile -/

/-- The loop of `acquire_lockfile`, with the value of `retries` at its test. -/
def acquireRetry (path : CString) (fd : Fd) : ℕ → NProg (Except Errno Fd)
  | 0 => do
    prDbg "%s: locked\n" [.str path]
    return .ok fd
  | retries + 1 => do
    match ← flock fd with
    | .error r =>
      if r ≠ ewouldblock then
        prErr "failed locking lockfile: %s [%d]: %s\n" [.str path, .num r.code, .strerror r]
        let _ ← close fd
        return .error r
      if retries = 0 then
        prErr "failed locking lockfile: %s [%d]: %s\n"
          [.str path, .num r.code, .strerror etimedout]
        let _ ← close fd
        return .error etimedout
      usleep 10000
      acquireRetry path fd retries
    | .ok () =>
      prDbg "%s: locked\n" [.str path]
      return .ok fd

def allowedRetries : ℕ := 10

def acquireLockfile (path : CString) : NProg (Except Errno Fd) := do
  match ← openLock path with
  | .error r =>
    prErr "failed opening lockfile: %s [%d]: %s\n" [.str path, .num r.code, .strerror r]
    return .error r
  | .ok fd => acquireRetry path fd allowedRetries

/-- `fdlock` is `none` when the lockfile was not acquired. -/
def releaseLockfile (path : CString) (fdlock : Option Fd) : NProg (Except Errno Unit) := do
  match fdlock with
  | some fd =>
    match ← close fd with
    | .error r =>
      prErr "failed closing lockfile: %s [%d]: %s" [.str path, .num r.code, .strerror r]
      return .error r
    | .ok () =>
      match ← unlink path with
      | .error r =>
        prErr "failed removing lockfile: %s [%d]: %s" [.str path, .num r.code, .strerror r]
        return .error r
      | .ok () =>
        prDbg "%s: unlocked\n" [.str path]
        return .ok ()
  | none =>
    prDbg "%s: unlocked\n" [.str path]
    return .ok ()

/-! ### Printing -/

/-- `enum print_options`. -/
structure PrintOptions where
  key : Bool
  value : Bool
  deriving DecidableEq

def hexByte (b : UInt8) : Bytes :=
  [b / 16, b % 16].map fun d => if d < 10 then 48 + d else 87 + d

/-- Print as string if null-terminated, else as hex. -/
def printArrU8 (data : Bytes) : NProg Unit :=
  if data.getLast? = some 0 then
    print (CString.ofBuf data).bytes
  else
    print (48 :: 120 :: data.flatMap hexByte)

def printEntry (entry : Entry) (opts : PrintOptions) : NProg (Except Errno Unit) := do
  if intMax < entry.key.length ∨ intMax < entry.value.length then
    return .error einval
  if ¬ opts.key ∧ ¬ opts.value then
    return .error einval
  if opts.key then
    printArrU8 entry.key
  if opts.key ∧ opts.value then
    print [equals]
  if opts.value then
    printArrU8 entry.value
  print [newline]
  return .ok ()

section

variable (lib : Libnvram)

def printListEntry (listName : String) (list : List Entry) (key : CString) :
    NProg (Except Errno Unit) := do
  prDbg "getting key from %s: %s\n" [.lit listName, .str key]
  match lib.listGet list key.bytesZ with
  | none => return .error enoent
  | some entry => printEntry entry ⟨false, true⟩

end

/-- The loop of `print_list`. -/
def printEntries : List Entry → NProg Unit
  | [] => return
  | entry :: list => do
    let _ ← printEntry entry ⟨true, true⟩
    printEntries list

def printList (listName : String) (list : List Entry) : NProg Unit := do
  prDbg "listing %s\n" [.lit listName]
  printEntries list

/-! ### Changing a list -/

section

variable (lib : Libnvram)

/-- `none` if the entry already exists, `some` with the new list if added. -/
def addListEntry (listName : String) (list : List Entry) (key value : CString) :
    NProg (Except Errno (Option (List Entry))) := do
  prDbg "setting: %s: %s=%s\n" [.lit listName, .str key, .str value]
  let entry := lib.listGet list key.bytesZ
  if entry.map Entry.value = some value.bytesZ then
    return .ok none
  match ← libnvramListSet list ⟨key.bytesZ, value.bytesZ⟩ with
  | .error r =>
    prErr "failed setting to %s list [%d]: %s\n" [.lit listName, .num r.code, .strerror r]
    return .error r
  | .ok list => return .ok (some list)

/-- `none` if not found, `some` with the list that is left if removed. -/
def removeListEntry (listName : String) (list : List Entry) (key : CString) :
    NProg (Option (List Entry)) := do
  prDbg "deleting %s: %s\n" [.lit listName, .str key]
  return lib.listRemove list key.bytesZ

end

/-! ### Operations -/

/-- `enum mode`. -/
structure Mode where
  userRead : Bool
  userWrite : Bool
  systemRead : Bool
  systemWrite : Bool
  deriving DecidableEq, Repr

/-- `struct operation`: `enum op` with the key and the value the command has. -/
inductive Operation where
  | list
  | set (key value : CString)
  | get (key : CString)
  | del (key : CString)
  deriving DecidableEq, Repr

namespace Operation

/-- The value of `enum op`. -/
def code : Operation → ℕ
  | list => 1
  | set _ _ => 2
  | get _ => 4
  | del _ => 8

def key? : Operation → Option CString
  | list => none
  | set key _ => some key
  | get key => some key
  | del key => some key

def value? : Operation → Option CString
  | set _ value => some value
  | _ => none

end Operation

section

variable (cfg : BuildConfig) (env : Environ)

def validateSet (key : CString) (mode : Mode) : NProg (Except Errno Unit) := do
  if mode.systemWrite then
    if sysPrefixEnforced cfg ∧ ¬ startsWithSysPrefix cfg key then
      prErr "required prefix \"%s\" missing in system attribute\n" [.str cfg.systemPrefix]
      return .error einval
    if ¬ systemUnlocked env then
      prErr "system write locked\n" []
      return .error eacces
  if mode.userWrite then
    if sysPrefixEnforced cfg ∧ startsWithSysPrefix cfg key then
      prErr "forbidden prefix \"%s\" in user attribute\n" [.str cfg.systemPrefix]
      return .error einval
  return .ok ()

def validateDel (mode : Mode) : NProg (Except Errno Unit) := do
  if mode.systemWrite ∧ ¬ systemUnlocked env then
    prErr "system write locked\n" []
    return .error eacces
  return .ok ()

/-- `it->validate`, where there is one. -/
def Operation.validate (mode : Mode) : Operation → NProg (Except Errno Unit)
  | .list => return .ok ()
  | .set key _ => validateSet cfg env key mode
  | .get _ => return .ok ()
  | .del _ => validateDel env mode

end

/-- The lists and `write_performed` while operations execute. -/
structure ExecState where
  listSystem : List Entry
  listUser : List Entry
  writePerformed : Bool
  deriving DecidableEq

section

variable (lib : Libnvram) (mode : Mode)

def execList (st : ExecState) : NProg (Except Errno ExecState) := do
  if mode.systemRead then
    printList "system" st.listSystem
  if mode.userRead then
    printList "user" st.listUser
  return .ok st

def execSet (key value : CString) (st : ExecState) : NProg (Except Errno ExecState) := do
  if mode.systemWrite then
    match ← addListEntry lib "system" st.listSystem key value with
    | .error r => return .error r
    | .ok none => return .ok st
    | .ok (some list) =>
      prDbg "written\n" []
      return .ok { st with listSystem := list, writePerformed := true }
  else if mode.userWrite then
    match ← addListEntry lib "user" st.listUser key value with
    | .error r => return .error r
    | .ok none => return .ok st
    | .ok (some list) =>
      prDbg "written\n" []
      return .ok { st with listUser := list, writePerformed := true }
  else
    return .error einval

def execGet (key : CString) (st : ExecState) : NProg (Except Errno ExecState) := do
  -- Prefer retrieving from system if allowed
  let r ← if mode.systemRead then printListEntry lib "system" st.listSystem key
    else pure (.error enoent)
  -- Retrieve from user if not already found and allowed
  let r ← match r with
    | .ok () => pure r
    | .error _ => if mode.userRead then printListEntry lib "user" st.listUser key else pure r
  match r with
  | .ok () => return .ok st
  | .error e =>
    prDbg "key not found: %s\n" [.str key]
    return .error e

def execDel (key : CString) (st : ExecState) : NProg (Except Errno ExecState) := do
  if mode.systemWrite then
    match ← removeListEntry lib "system" st.listSystem key with
    | none => return .ok st
    | some list =>
      prDbg "deleted\n" []
      return .ok { st with listSystem := list, writePerformed := true }
  else if mode.userWrite then
    match ← removeListEntry lib "user" st.listUser key with
    | none => return .ok st
    | some list =>
      prDbg "deleted\n" []
      return .ok { st with listUser := list, writePerformed := true }
  else
    return .ok st

/-- `it->execute`. -/
def Operation.execute : Operation → ExecState → NProg (Except Errno ExecState)
  | .list => execList mode
  | .set key value => execSet lib mode key value
  | .get key => execGet lib mode key
  | .del key => execDel lib mode key

end

/-! ### Options and the argument loop -/

/-- `struct opts` and the overrides of `main`. -/
structure Opts where
  mode : Mode
  operations : List Operation
  interfaceOverride : Option CString
  formatOverride : Option CString
  userAOverride : Option CString
  userBOverride : Option CString
  systemAOverride : Option CString
  systemBOverride : Option CString
  deriving DecidableEq

/-- `MODE_USER_READ | MODE_USER_WRITE | MODE_SYSTEM_READ` -/
def defaultMode : Mode := ⟨true, true, true, false⟩
/-- `MODE_SYSTEM_READ | MODE_SYSTEM_WRITE` -/
def sysMode : Mode := ⟨false, false, true, true⟩
/-- `MODE_USER_READ | MODE_USER_WRITE` -/
def userMode : Mode := ⟨true, true, false, false⟩

def Opts.initial : Opts := ⟨defaultMode, [], none, none, none, none, none, none⟩

def addOperation (opts : Opts) (operation : Operation) : NProg (Except Errno Opts) := do
  if ¬ (← mallocStruct) then
    prErr "Failed allocating operation memory\n" []
    return .error enomem
  return .ok { opts with operations := opts.operations ++ [operation] }

/-- The branches of the loop that take one string: the names of the option, what it is
called in the error message, and what it does with the string. -/
structure StringOption where
  names : List CString
  title : String
  store : Opts → CString → Opts

/-- `-f`, `-i` and the section overrides, in the order of the tests. -/
def stringOptions : List StringOption :=
  [⟨[lit "-f", lit "--format"], "-f, --format", fun o s => { o with formatOverride := some s }⟩,
   ⟨[lit "-i", lit "--interface"], "-i, --interface",
    fun o s => { o with interfaceOverride := some s }⟩,
   ⟨[lit "--user_a"], "--user_a", fun o s => { o with userAOverride := some s }⟩,
   ⟨[lit "--user_b"], "--user_b", fun o s => { o with userBOverride := some s }⟩,
   ⟨[lit "--sys_a"], "--sys_a", fun o s => { o with systemAOverride := some s }⟩,
   ⟨[lit "--sys_b"], "--sys_b", fun o s => { o with systemBOverride := some s }⟩]

/-- `print_usage`, with the section names it prints. -/
def printUsage (cfg : BuildConfig) (env : Environ) : NProg Unit :=
  Effects.Prog.call (S := callSig) (.printUsage
    ([Section.systemA, .systemB, .userA, .userB].map
      (nvramGetInterfaceSection cfg env cfg.interfaceDefault)))

section

variable (cfg : BuildConfig) (env : Environ)

/-- The argument loop of `main` on the arguments from `argv[i]` on. -/
def parseArgs (opts : Opts) : List CString → NProg (Except Errno Opts)
  | [] => return .ok opts
  | arg :: rest =>
    if arg = lit "--set" ∨ arg = lit "set" then
      match rest with
      | key :: value :: rest => do
        match ← addOperation opts (.set key value) with
        | .error r => return .error r
        | .ok opts => parseArgs opts rest
      | _ => do
        fprintfStderr "Too few arguments for command set\n" []
        return .error einval
    else if arg = lit "--get" ∨ arg = lit "get" then
      match rest with
      | key :: rest => do
        match ← addOperation opts (.get key) with
        | .error r => return .error r
        | .ok opts => parseArgs opts rest
      | [] => do
        fprintfStderr "Too few arguments for command get\n" []
        return .error einval
    else if arg = lit "--list" ∨ arg = lit "list" then do
      match ← addOperation opts .list with
      | .error r => return .error r
      | .ok opts => parseArgs opts rest
    else if arg = lit "--del" ∨ arg = lit "delete" then
      match rest with
      | key :: rest => do
        match ← addOperation opts (.del key) with
        | .error r => return .error r
        | .ok opts => parseArgs opts rest
      | [] => do
        fprintfStderr "Too few arguments for command delete\n" []
        return .error einval
    else if arg = lit "--sys" then
      parseArgs { opts with mode := sysMode } rest
    else if arg = lit "--user" then
      parseArgs { opts with mode := userMode } rest
    else if arg = lit "-h" ∨ arg = lit "--help" then do
      printUsage cfg env
      return .error einval
    else
      match stringOptions.find? (arg ∈ ·.names) with
      | some opt =>
        match rest with
        | str :: rest => parseArgs (opt.store opts str) rest
        | [] => do
          fprintfStderr ("Too few arguments for " ++ opt.title ++ "\n") []
          return .error einval
      | none => do
        fprintfStderr "unknown argument: %s\n" [.str arg]
        return .error einval

end

/-! ### Validation and execution -/

/-- The bits of `found_op_types`. -/
structure OpTypes where
  list : Bool
  set : Bool
  get : Bool
  del : Bool
  deriving DecidableEq

/-- `found_op_types |= it->op` -/
def OpTypes.add (found : OpTypes) : Operation → OpTypes
  | .list => { found with list := true }
  | .set _ _ => { found with set := true }
  | .get _ => { found with get := true }
  | .del _ => { found with del := true }

section

variable (cfg : BuildConfig) (env : Environ) (mode : Mode)

/-- The loop of `validate_operations`. -/
def validateEach (found : OpTypes) : List Operation → NProg (Except Errno OpTypes)
  | [] => return .ok found
  | it :: ops => do
    prDbg "operation: %d, key: %s, val: %s\n" [.num it.code, .str it.key?, .str it.value?]
    match ← it.validate cfg env mode with
    | .error r => return .error r
    | .ok () => validateEach (found.add it) ops

def validateOperations (operations : List Operation) : NProg (Except Errno Unit) := do
  match ← validateEach cfg env mode ⟨false, false, false, false⟩ operations with
  | .error r => return .error r
  | .ok found =>
    if (found.get ∨ found.list) ∧ (found.set ∨ found.del) then
      prErr "can't mix read and write operations\n" []
      return .error einval
    if found.list ∧ found.get then
      prErr "can't mix --get and --list operations\n" []
      return .error einval
    return .ok ()

end

section

variable (lib : Libnvram) (mode : Mode)

/-- The loop of `execute_operations`. -/
def executeEach : List Operation → ExecState → NProg (Except Errno ExecState)
  | [], st => return .ok st
  | it :: ops, st => do
    match ← it.execute lib mode st with
    | .error r => return .error r
    | .ok st => executeEach ops st

/-- The commit of `execute_operations` and its error message. -/
def commitList (format : NvramFormat) (nvram : Option format.StructNvram) (list : List Entry) :
    NProg (Except Errno Unit) := do
  match nvram with
  -- not reached: a side that may be written was initialised
  | none => return .error ebadf
  | some nvram =>
    match ← format.commit nvram list with
    | (.error r, _) =>
      prErr "Failed committing changes [%d]: %s\n" [.num r.code, .strerror r]
      return .error r
    | (.ok (), _) => return .ok ()

def executeOperations (format : NvramFormat) (operations : List Operation)
    (nvramSystem : Option format.StructNvram) (listSystem : List Entry)
    (nvramUser : Option format.StructNvram) (listUser : List Entry) : NProg (Except Errno Unit) := do
  match ← executeEach lib mode operations ⟨listSystem, listUser, false⟩ with
  | .error r => return .error r
  | .ok st =>
    if st.writePerformed then
      prDbg "Commit changes\n" []
      if mode.systemWrite then
        commitList format nvramSystem st.listSystem
      else if mode.userWrite then
        commitList format nvramUser st.listUser
      else
        return .ok ()
    else
      return .ok ()

end

/-! ### `main` -/

/-- What `main` holds at the label `exit`. -/
structure AtExit (format : NvramFormat) where
  r : Except Errno Unit
  nvramSystem : Option format.StructNvram
  nvramUser : Option format.StructNvram

def yesNo (b : Bool) : Arg := .lit (if b then "yes" else "no")

section

variable (lib : Libnvram) (crc32 : Bytes → UInt32) (cfg : BuildConfig) (env : Environ)

/-- The section of one kind: the override, else the one of the interface. -/
def resolveSection (interfaceName : CString) (override : Option CString) (sect : Section) :
    Option CString :=
  match override with
  | some s => some s
  | none => nvramGetInterfaceSection cfg env interfaceName sect

/-- One `format->init` of `main`: `none` for a side that the mode leaves out. -/
def initSide (format : NvramFormat) (interface : Interface) (wanted : Bool) (labelA labelB : String)
    (sectionA sectionB : Option CString) :
    NProg (Except Errno (Option format.StructNvram × List Entry)) := do
  if wanted then
    prDbg labelA [.str sectionA]
    prDbg labelB [.str sectionB]
    match ← format.init interface sectionA sectionB with
    | .error r => return .error r
    | .ok (nvram, list) => return .ok (some nvram, list)
  else
    return .ok (none, [])

/-- The part of `main` that runs under the lock. -/
def withLock (format : NvramFormat) (interface : Interface) (interfaceName : CString)
    (opts : Opts) : NProg (AtExit format) := do
  let sect := resolveSection cfg env interfaceName
  match ← initSide format interface (opts.mode.systemWrite || opts.mode.systemRead)
      "NVRAM_SYSTEM_A: %s\n" "NVRAM_SYSTEM_B: %s\n"
      (sect opts.systemAOverride .systemA) (sect opts.systemBOverride .systemB) with
  | .error r => return ⟨.error r, none, none⟩
  | .ok (nvramSystem, listSystem) =>
    match ← initSide format interface (opts.mode.userWrite || opts.mode.userRead)
        "NVRAM_USER_A: %s\n" "NVRAM_USER_B: %s\n"
        (sect opts.userAOverride .userA) (sect opts.userBOverride .userB) with
    | .error r => return ⟨.error r, nvramSystem, none⟩
    | .ok (nvramUser, listUser) =>
      let r ← executeOperations lib opts.mode format opts.operations
        nvramSystem listSystem nvramUser listUser
      return ⟨r, nvramSystem, nvramUser⟩

/-- The label `exit` up to the lock: an earlier error wins over one of the release. -/
def exitRelease (r : Except Errno Unit) (fdLock : Option Fd) : NProg (Except Errno Unit) := do
  let lockRet ← releaseLockfile NVRAM_LOCKFILE fdLock
  match r with
  | .ok () => return lockRet
  | .error e => return .error e

/-- The label `exit` once the format is known. -/
def exitClose (format : NvramFormat) (fdLock : Option Fd) (done : AtExit format) :
    NProg (Except Errno Unit) := do
  let r ← exitRelease done.r fdLock
  format.close done.nvramSystem
  format.close done.nvramUser
  return r

/-- `return -r`. -/
def exitStatus : Except Errno Unit → ℕ
  | .ok () => 0
  | .error e => e.code

/-- `main` from the validation of the operations on, with format and interface resolved. -/
def session (format : NvramFormat) (interface : Interface) (interfaceName formatName : CString)
    (opts : Opts) : NProg (Except Errno Unit) := do
  prDbg "interface: %s\n" [.str interfaceName]
  prDbg "format: %s\n" [.str formatName]
  prDbg "system_write: %s\n" [yesNo opts.mode.systemWrite]
  prDbg "system_read: %s\n" [yesNo opts.mode.systemRead]
  prDbg "user_write: %s\n" [yesNo opts.mode.userWrite]
  prDbg "user_read: %s\n" [yesNo opts.mode.userRead]
  match ← validateOperations cfg env opts.mode opts.operations with
  | .error r => exitClose format none ⟨.error r, none, none⟩
  | .ok () =>
    match ← acquireLockfile NVRAM_LOCKFILE with
    -- `goto exit` with `r` still 0
    | .error _ => exitClose format none ⟨.ok (), none, none⟩
    | .ok fdLock =>
      exitClose format (some fdLock)
        (← withLock lib cfg env format interface interfaceName opts)

/-- `main` after the argument loop. -/
def resolveAndRun (opts : Opts) : NProg (Except Errno Unit) := do
  let interfaceName :=
    opts.interfaceOverride.getD (getEnvStr env "NVRAM_INTERFACE" cfg.interfaceDefault)
  match nvramGetInterface cfg interfaceName with
  | none =>
    fprintfStderr "Unresolved interface: %s\n" [.str interfaceName]
    exitRelease (.error einval) none
  | some interface =>
    let formatName := opts.formatOverride.getD (getEnvStr env "NVRAM_FORMAT" cfg.formatDefault)
    match nvramGetFormat lib crc32 cfg formatName with
    | none =>
      fprintfStderr "Unresolved format: %s\n" [.str formatName]
      exitRelease (.error einval) none
    | some format => session lib cfg env format interface interfaceName formatName opts

/-- A lone list operation when there is none. -/
def defaultOperation (opts : Opts) : NProg (Except Errno Opts) :=
  if opts.operations = [] then addOperation opts .list else return .ok opts

/-- `main` on the arguments after the program name; the exit status. -/
def main (args : List CString) : NProg ℕ := do
  if getEnvLong env "NVRAM_DEBUG" ≠ 0 then
    enableDebug
  match ← parseArgs cfg env Opts.initial args with
  | .error r => return exitStatus (← exitRelease (.error r) none)
  | .ok opts =>
    match ← defaultOperation opts with
    | .error r => return exitStatus (← exitRelease (.error r) none)
    | .ok opts => return exitStatus (← resolveAndRun lib crc32 cfg env opts)

end

end Nvram
