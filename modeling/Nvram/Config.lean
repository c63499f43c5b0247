import Nvram.Format.V2
import Nvram.Format.Platform

/-!
# Formats and interfaces of a build

`nvram_format.c` and `nvram_interface.c`: which formats and interfaces are compiled in, and
the names and sections they are found under.  A build fixes the defaults; the environment
may override the sections.
-/

namespace Nvram

/-- `getenv`. -/
abbrev Environ := String → Option CString

def getEnvStr (env : Environ) (name : String) (defaultStr : CString) : CString :=
  match env name with
  | some str => str
  | none => defaultStr

/-- `get_env_long`. -/
def getEnvLong (env : Environ) (name : String) : ℤ :=
  match env name with
  | some val => strtol10 val
  | none => 0

/-- The section names compiled in for one interface. -/
structure SectionDefaults where
  systemA : CString
  systemB : CString
  userA : CString
  userB : CString

/-- The make variables.  An interface or a format that is not compiled in is absent. -/
structure BuildConfig where
  /-- `NVRAM_SYSTEM_PREFIX` -/
  systemPrefix : CString
  /-- A macro argument made a string has no white space in front. -/
  systemPrefix_head : ∀ b, systemPrefix.bytes.head? = some b → isSpaceByte b = false
  interfaceDefault : CString
  formatDefault : CString
  interfaceFile : Option SectionDefaults
  interfaceMtd : Option SectionDefaults
  interfaceEfi : Option SectionDefaults
  formatV2 : Bool
  formatLegacy : Bool
  formatPlatform : Option PlatformBuild

/-! ### Interfaces -/

structure InterfaceDesc where
  name : CString
  interface : Interface
  systemADefault : CString
  systemAEnv : String
  systemBDefault : CString
  systemBEnv : String
  userADefault : CString
  userAEnv : String
  userBDefault : CString
  userBEnv : String

/-- `enum section`. -/
inductive Section where
  | systemA
  | systemB
  | userA
  | userB
  deriving DecidableEq, Repr

section

variable (cfg : BuildConfig)

def availableInterfaces : List InterfaceDesc :=
  (cfg.interfaceFile.map fun d =>
    { name := lit "file", interface := .file
      systemADefault := d.systemA, systemAEnv := "NVRAM_FILE_SYSTEM_A"
      systemBDefault := d.systemB, systemBEnv := "NVRAM_FILE_SYSTEM_B"
      userADefault := d.userA, userAEnv := "NVRAM_FILE_USER_A"
      userBDefault := d.userB, userBEnv := "NVRAM_FILE_USER_B" : InterfaceDesc }).toList ++
  (cfg.interfaceMtd.map fun d =>
    { name := lit "mtd", interface := .mtd
      systemADefault := d.systemA, systemAEnv := "NVRAM_MTD_SYSTEM_A"
      systemBDefault := d.systemB, systemBEnv := "NVRAM_MTD_SYSTEM_B"
      userADefault := d.userA, userAEnv := "NVRAM_MTD_USER_A"
      userBDefault := d.userB, userBEnv := "NVRAM_MTD_USER_B" : InterfaceDesc }).toList ++
  (cfg.interfaceEfi.map fun d =>
    { name := lit "efi", interface := .efi
      systemADefault := d.systemA, systemAEnv := "NVRAM_EFI_SYSTEM_A"
      systemBDefault := d.systemB, systemBEnv := "NVRAM_EFI_SYSTEM_B"
      userADefault := d.userA, userAEnv := "NVRAM_EFI_USER_A"
      userBDefault := d.userB, userBEnv := "NVRAM_EFI_USER_B" : InterfaceDesc }).toList

/-- `none` if not found. -/
def nvramGetInterface (interfaceName : CString) : Option Interface :=
  ((availableInterfaces cfg).find? (·.name = interfaceName)).map (·.interface)

/-- `none` if not found. -/
def nvramGetInterfaceSection (env : Environ) (interfaceName : CString) (sect : Section) :
    Option CString :=
  ((availableInterfaces cfg).find? (·.name = interfaceName)).map fun desc =>
    match sect with
    | .systemA => getEnvStr env desc.systemAEnv desc.systemADefault
    | .systemB => getEnvStr env desc.systemBEnv desc.systemBDefault
    | .userA => getEnvStr env desc.userAEnv desc.userADefault
    | .userB => getEnvStr env desc.userBEnv desc.userBDefault

end

/-! ### Formats -/

/-- `struct nvram_format`, with the type of its `struct nvram`. -/
structure NvramFormat where
  StructNvram : Type
  init : Interface → Option CString → Option CString →
    NProg (Except Errno (StructNvram × List Entry))
  commit : StructNvram → List Entry → NProg (Except Errno Unit × StructNvram)
  close : Option StructNvram → NProg Unit

section

variable (lib : Libnvram) (crc32 : Bytes → UInt32)

def nvramV2Format : NvramFormat where
  StructNvram := V2Nvram
  init := v2Init lib
  commit := v2Commit lib
  close := v2Close

def nvramLegacyFormat : NvramFormat where
  StructNvram := SingleNvram
  init := legacyInit
  commit nvram list := do return (← legacyCommit nvram list, nvram)
  close := legacyClose

def nvramPlatformFormat (build : PlatformBuild) : NvramFormat where
  StructNvram := SingleNvram
  init := platformInit crc32 build
  commit nvram list := do return (← platformCommit crc32 build nvram list, nvram)
  close := legacyClose

def availableFormats (cfg : BuildConfig) : List (CString × NvramFormat) :=
  (if cfg.formatV2 then [(lit "v2", nvramV2Format lib)] else []) ++
  (if cfg.formatLegacy then [(lit "legacy", nvramLegacyFormat)] else []) ++
  (cfg.formatPlatform.map fun build => (lit "platform", nvramPlatformFormat crc32 build)).toList

/-- `none` if not found. -/
def nvramGetFormat (cfg : BuildConfig) (formatName : CString) : Option NvramFormat :=
  ((availableFormats lib crc32 cfg).find? (·.1 = formatName)).map (·.2)

end

/-- A build with two files a side and the v2 format. -/
def sampleConfig : BuildConfig where
  systemPrefix := lit "SYS_"
  systemPrefix_head := by
    intro b hb
    cases hb
    rfl
  interfaceDefault := lit "file"
  formatDefault := lit "v2"
  interfaceFile := some ⟨lit "sa", lit "sb", lit "ua", lit "ub"⟩
  interfaceMtd := none
  interfaceEfi := none
  formatV2 := true
  formatLegacy := false
  formatPlatform := none

end Nvram
