import Nvram.CLib
import Nvram.Zlib
import Nvram.Format.Legacy

/-!
# The platform format

`nvram_format_platform.c`.  One header of 1024 bytes with little-endian fields and a
checksum.  The checksum function is zlib's `crc32`, a parameter here; the supported header
version and whether writing is allowed are set when the program is built.
-/

namespace Nvram

open Errno

def HEADER_MAGIC : UInt32 := 0x54414c50
def PLATFORM_HEADER_SIZE : ℕ := 1024

/-- `struct platform_header`. -/
structure PlatformHeader where
  hdrMagic : UInt32
  hdrVersion : UInt32
  name : Bytes
  nameLength : name.length = 64
  ddrcBlobOffset : UInt32
  ddrcBlobSize : UInt32
  ddrcBlobType : UInt32
  ddrcBlobCrc32 : UInt32
  ddrcSize : UInt64
  config1 : UInt32
  config2 : UInt32
  config3 : UInt32
  config4 : UInt32
  rsvd : Bytes
  rsvdLength : rsvd.length = 904
  totalSize : UInt32
  hdrCrc32 : UInt32
  deriving DecidableEq

/-- `memset(&header, 0, sizeof(header))` -/
def PlatformHeader.zero : PlatformHeader where
  hdrMagic := 0
  hdrVersion := 0
  name := List.replicate 64 0
  nameLength := List.length_replicate
  ddrcBlobOffset := 0
  ddrcBlobSize := 0
  ddrcBlobType := 0
  ddrcBlobCrc32 := 0
  ddrcSize := 0
  config1 := 0
  config2 := 0
  config3 := 0
  config4 := 0
  rsvd := List.replicate 904 0
  rsvdLength := List.length_replicate
  totalSize := 0
  hdrCrc32 := 0

/-! ### Fields -/

/-- `enum field_name`. -/
inductive FieldName where
  | name
  | ddrcBlobOffset
  | ddrcBlobSize
  | ddrcBlobType
  | ddrcBlobCrc32
  | ddrcSize
  | config1
  | config2
  | config3
  | config4
  | totalSize
  deriving DecidableEq, Repr

/-- `enum field_type`. -/
inductive FieldType where
  | u32
  | u64
  | string
  deriving DecidableEq, Repr

structure Field where
  key : CString
  type : FieldType
  deriving DecidableEq

/-- The table `fields`. -/
def fields : FieldName → Field
  | .name => ⟨lit "name", .string⟩
  | .ddrcBlobOffset => ⟨lit "ddrc_blob_offset", .u32⟩
  | .ddrcBlobSize => ⟨lit "ddrc_blob_size", .u32⟩
  | .ddrcBlobType => ⟨lit "ddrc_blob_type", .u32⟩
  | .ddrcBlobCrc32 => ⟨lit "ddrc_blob_crc32", .u32⟩
  | .ddrcSize => ⟨lit "ddrc_size", .u64⟩
  | .config1 => ⟨lit "config1", .u32⟩
  | .config2 => ⟨lit "config2", .u32⟩
  | .config3 => ⟨lit "config3", .u32⟩
  | .config4 => ⟨lit "config4", .u32⟩
  | .totalSize => ⟨lit "total_size", .u32⟩

def version0Fields : List FieldName :=
  [.name, .ddrcBlobOffset, .ddrcBlobSize, .ddrcBlobType, .ddrcBlobCrc32, .ddrcSize, .config1,
    .config2, .config3, .config4, .totalSize]

/-- `union data`, with the member in use. -/
inductive Data where
  | u32 (v : UInt32)
  | u64 (v : UInt64)
  | str (s : CString)
  deriving DecidableEq

def Data.type : Data → FieldType
  | .u32 _ => .u32
  | .u64 _ => .u64
  | .str _ => .string

/-! ### Header and bytes -/

/-- The four bytes at `pos` of a buffer. -/
def letou32 (buf : Bytes) (pos : ℕ) : UInt32 :=
  (buf.getD (pos + 3) 0).toUInt32 <<< 24 ||| (buf.getD (pos + 2) 0).toUInt32 <<< 16 |||
    (buf.getD (pos + 1) 0).toUInt32 <<< 8 ||| (buf.getD pos 0).toUInt32

def letou64 (buf : Bytes) (pos : ℕ) : UInt64 :=
  (buf.getD (pos + 7) 0).toUInt64 <<< 56 ||| (buf.getD (pos + 6) 0).toUInt64 <<< 48 |||
    (buf.getD (pos + 5) 0).toUInt64 <<< 40 ||| (buf.getD (pos + 4) 0).toUInt64 <<< 32 |||
    (buf.getD (pos + 3) 0).toUInt64 <<< 24 ||| (buf.getD (pos + 2) 0).toUInt64 <<< 16 |||
    (buf.getD (pos + 1) 0).toUInt64 <<< 8 ||| (buf.getD pos 0).toUInt64

def u32tole (host : UInt32) : Bytes :=
  [(host &&& 0xff).toUInt8, (host >>> 8 &&& 0xff).toUInt8, (host >>> 16 &&& 0xff).toUInt8,
    (host >>> 24 &&& 0xff).toUInt8]

def u64tole (host : UInt64) : Bytes :=
  [(host &&& 0xff).toUInt8, (host >>> 8 &&& 0xff).toUInt8, (host >>> 16 &&& 0xff).toUInt8,
    (host >>> 24 &&& 0xff).toUInt8, (host >>> 32 &&& 0xff).toUInt8, (host >>> 40 &&& 0xff).toUInt8,
    (host >>> 48 &&& 0xff).toUInt8, (host >>> 56 &&& 0xff).toUInt8]

/-- `offsetof(struct platform_header, ...)`. -/
def offsetHdrMagic : ℕ := 0
def offsetHdrVersion : ℕ := 4
def offsetName : ℕ := 8
def offsetDdrcBlobOffset : ℕ := 72
def offsetDdrcBlobSize : ℕ := 76
def offsetDdrcBlobType : ℕ := 80
def offsetDdrcBlobCrc32 : ℕ := 84
def offsetDdrcSize : ℕ := 88
def offsetConfig1 : ℕ := 96
def offsetConfig2 : ℕ := 100
def offsetConfig3 : ℕ := 104
def offsetConfig4 : ℕ := 108
def offsetRsvd : ℕ := 112
def offsetTotalSize : ℕ := 1016
def offsetHdrCrc32 : ℕ := 1020

section

variable (crc32 : Bytes → UInt32)

theorem slice_length {buf : Bytes} {pos len n : ℕ} (h : buf.length = n) (hn : pos + len ≤ n) :
    ((buf.drop pos).take len).length = len := by
  rw [List.length_take, List.length_drop]
  omega

/-- `parse_header`: `none` for `-EINVAL`. -/
def parseHeader (buf : Bytes) : Option PlatformHeader :=
  if hsize : buf.length = PLATFORM_HEADER_SIZE then
    let hdrCrc32 := letou32 buf offsetHdrCrc32
    if hdrCrc32 ≠ crc32 (buf.take offsetHdrCrc32) then none
    else
      let hdrMagic := letou32 buf offsetHdrMagic
      if hdrMagic ≠ HEADER_MAGIC then none
      else
        let name := (buf.drop offsetName).take 64
        -- Verify null-terminator present
        if (0 : UInt8) ∉ name then none
        else some {
          hdrMagic := hdrMagic
          hdrVersion := letou32 buf offsetHdrVersion
          name := name
          nameLength := slice_length hsize (by decide)
          ddrcBlobOffset := letou32 buf offsetDdrcBlobOffset
          ddrcBlobSize := letou32 buf offsetDdrcBlobSize
          ddrcBlobType := letou32 buf offsetDdrcBlobType
          ddrcBlobCrc32 := letou32 buf offsetDdrcBlobCrc32
          ddrcSize := letou64 buf offsetDdrcSize
          config1 := letou32 buf offsetConfig1
          config2 := letou32 buf offsetConfig2
          config3 := letou32 buf offsetConfig3
          config4 := letou32 buf offsetConfig4
          rsvd := (buf.drop offsetRsvd).take 904
          rsvdLength := slice_length hsize (by decide)
          totalSize := letou32 buf offsetTotalSize
          hdrCrc32 := hdrCrc32 }
  else none

/-- `serialize_header` into a buffer of `PLATFORM_HEADER_SIZE` bytes. -/
def serializeHeader (header : PlatformHeader) : Bytes :=
  let buf := List.replicate PLATFORM_HEADER_SIZE 0
  let buf := overwrite buf offsetHdrMagic (u32tole header.hdrMagic)
  let buf := overwrite buf offsetHdrVersion (u32tole header.hdrVersion)
  let buf := overwrite buf offsetName header.name
  let buf := overwrite buf offsetDdrcBlobOffset (u32tole header.ddrcBlobOffset)
  let buf := overwrite buf offsetDdrcBlobSize (u32tole header.ddrcBlobSize)
  let buf := overwrite buf offsetDdrcBlobType (u32tole header.ddrcBlobType)
  let buf := overwrite buf offsetDdrcBlobCrc32 (u32tole header.ddrcBlobCrc32)
  let buf := overwrite buf offsetDdrcSize (u64tole header.ddrcSize)
  let buf := overwrite buf offsetConfig1 (u32tole header.config1)
  let buf := overwrite buf offsetConfig2 (u32tole header.config2)
  let buf := overwrite buf offsetConfig3 (u32tole header.config3)
  let buf := overwrite buf offsetConfig4 (u32tole header.config4)
  let buf := overwrite buf offsetTotalSize (u32tole header.totalSize)
  overwrite buf offsetHdrCrc32 (u32tole (crc32 (buf.take offsetHdrCrc32)))

/-! ### Header to list -/

/-- The member of the header a field stands for: the first switch of `value_to_list`. -/
def headerData (header : PlatformHeader) : FieldName → Data
  | .name => .str (CString.ofBuf header.name)
  | .ddrcBlobOffset => .u32 header.ddrcBlobOffset
  | .ddrcBlobSize => .u32 header.ddrcBlobSize
  | .ddrcBlobType => .u32 header.ddrcBlobType
  | .ddrcBlobCrc32 => .u32 header.ddrcBlobCrc32
  | .ddrcSize => .u64 header.ddrcSize
  | .config1 => .u32 header.config1
  | .config2 => .u32 header.config2
  | .config3 => .u32 header.config3
  | .config4 => .u32 header.config4
  | .totalSize => .u32 header.totalSize

/-- The text of a value with its NUL; numbers go through a buffer of 64 bytes. -/
def dataText : Data → Except String Bytes
  | .u32 v =>
    if 64 ≤ (hexText v.toNat).length then .error "failed converting u32 to string\n"
    else .ok (hexText v.toNat ++ [0])
  | .u64 v =>
    if 64 ≤ (hexText v.toNat).length then .error "failed converting u64 to string\n"
    else .ok (hexText v.toNat ++ [0])
  | .str s => .ok s.bytesZ

def valueToList (header : PlatformHeader) (fieldName : FieldName) (field : Field)
    (list : List Entry) : NProg (Except Errno (List Entry)) := do
  let data := headerData header fieldName
  if field.type ≠ data.type then
    return .error ebadf
  match dataText data with
  | .error msg =>
    prErr msg []
    return .error einval
  | .ok value =>
    match ← libnvramListSet list ⟨field.key.bytesZ, value⟩ with
    | .error _ =>
      prErr "Failed adding entry to list\n" []
      return .error enomem
    | .ok list => return .ok list

def headerToListVersionIterator (header : PlatformHeader) :
    List FieldName → List Entry → NProg (Except Errno (List Entry))
  | [], list => return .ok list
  | fieldName :: rest, list => do
    match ← valueToList header fieldName (fields fieldName) list with
    | .error e => return .error e
    | .ok list => headerToListVersionIterator header rest list

def headerToList (header : PlatformHeader) (list : List Entry) :
    NProg (Except Errno (List Entry)) := do
  if header.hdrVersion = 0 then
    headerToListVersionIterator header version0Fields list
  else
    prErr "Unknown header version: %u\n" [.num header.hdrVersion.toNat]
    return .error einval

/-! ### List to header -/

/-- An error code and the message printed with it, if any. -/
abbrev FieldError := Errno × Option String

/-- The second switch of `value_to_header`: store a converted value. -/
def storeData (header : PlatformHeader) (fieldName : FieldName) (value : Bytes) (data : Data) :
    Except FieldError PlatformHeader :=
  match fieldName, data with
  | .name, .str _ =>
    if h : value.length ≤ 64 then
      .ok { header with
        name := overwrite header.name 0 value
        nameLength := (overwrite_length (by rw [header.nameLength]; omega)).trans
          header.nameLength }
    else
      .error (einval, some "field id [%d] with key \"%s\" too long value\n")
  | .ddrcBlobOffset, .u32 v => .ok { header with ddrcBlobOffset := v }
  | .ddrcBlobSize, .u32 v => .ok { header with ddrcBlobSize := v }
  | .ddrcBlobType, .u32 v => .ok { header with ddrcBlobType := v }
  | .ddrcBlobCrc32, .u32 v => .ok { header with ddrcBlobCrc32 := v }
  | .ddrcSize, .u64 v => .ok { header with ddrcSize := v }
  | .config1, .u32 v => .ok { header with config1 := v }
  | .config2, .u32 v => .ok { header with config2 := v }
  | .config3, .u32 v => .ok { header with config3 := v }
  | .config4, .u32 v => .ok { header with config4 := v }
  | .totalSize, .u32 v => .ok { header with totalSize := v }
  | _, _ => .error (ebadf, none)

/-- Conversion of a value by its field type.  `erange` says that `errno` is `ERANGE`: earlier
calls may have left it so, `strtoul` sets it on overflow and never clears it. -/
def convertValue (erange : Bool) (type : FieldType) (value : Bytes) :
    Except String Data × Bool :=
  match type with
  | .u32 =>
    let (val, endptr, overflow) := strtoul (CString.ofBuf value)
    let erange := erange || overflow
    if (val = 0 ∧ endptr = none) ∨ (val = ULONG_MAX ∧ erange) ∨ 2 ^ 32 - 1 < val then
      (.error "field id [%d] with key \"%s\" not of type u32\n", erange)
    else (.ok (.u32 (UInt32.ofNat val)), erange)
  | .u64 =>
    let (val, endptr, overflow) := strtoul (CString.ofBuf value)
    let erange := erange || overflow
    if (val = 0 ∧ endptr = none) ∨ (val = ULONG_MAX ∧ erange) ∨ 2 ^ 64 - 1 < val then
      (.error "field id [%d] with key \"%s\" not of type u64\n", erange)
    else (.ok (.u64 (UInt64.ofNat val)), erange)
  | .string => (.ok (.str (CString.ofBuf value)), erange)

/-- The updated header or the error with its message, and what `errno` is afterwards. -/
def valueToHeader (erange : Bool) (header : PlatformHeader) (fieldName : FieldName)
    (field : Field) (entry : Entry) : Except FieldError PlatformHeader × Bool :=
  -- Ensure value to parse is null terminated
  if entry.value.getLast? ≠ some 0 then
    (.error (einval, some "field id [%d] with key \"%s\" not of type string\n"), erange)
  else
    match convertValue erange field.type entry.value with
    | (.error msg, erange) => (.error (einval, some msg), erange)
    | (.ok data, erange) => (storeData header fieldName entry.value data, erange)

/-- `strncmp(key, buf, len) == 0` for a buffer of `len` bytes. -/
def strncmpEq (key : CString) (buf : Bytes) : Bool :=
  CString.ofBuf (key.bytesZ.take buf.length) = CString.ofBuf buf

/-- The first field with the entry's key takes the value; `none` if there is no such field. -/
def listToHeaderVersionIterator (erange : Bool) (header : PlatformHeader) :
    List FieldName → Entry → Option (FieldName × Except FieldError PlatformHeader × Bool)
  | [], _ => none
  | fieldName :: rest, entry =>
    if strncmpEq (fields fieldName).key entry.key then
      some (fieldName, valueToHeader erange header fieldName (fields fieldName) entry)
    else listToHeaderVersionIterator erange header rest entry

/-- The loop of `list_to_header`. -/
def listToHeaderFrom (erange : Bool) (header : PlatformHeader) :
    List Entry → NProg (Except Errno PlatformHeader)
  | [] => return .ok header
  | entry :: list => do
    if header.hdrVersion = 0 then
      match listToHeaderVersionIterator erange header version0Fields entry with
      | none =>
        prErr "field with key \"%s\" unresolved\n" [.str (CString.ofBuf entry.key)]
        return .error einval
      | some (_, .error (e, none), _) => return .error e
      | some (fieldName, .error (e, some msg), _) =>
        prErr msg [.num (version0Fields.idxOf fieldName), .str (fields fieldName).key]
        return .error e
      | some (_, .ok header, erange) => listToHeaderFrom erange header list
    else
      prErr "Unknown header version: %u\n" [.num header.hdrVersion.toNat]
      return .error einval

/-- Build time choices for the platform format. -/
structure PlatformBuild where
  /-- `HEADER_VERSION` -/
  version : UInt32
  /-- `ALLOW_WRITE` -/
  allowWrite : Bool

def listToHeader (build : PlatformBuild) (erange : Bool) (list : List Entry) :
    NProg (Except Errno PlatformHeader) :=
  listToHeaderFrom erange
    { PlatformHeader.zero with hdrMagic := HEADER_MAGIC, hdrVersion := build.version } list

/-! ### Init and commit -/

/-- The part of `platform_init` after the interface handle was created. -/
def platformLoad (build : PlatformBuild) (interface : Interface) (path : CString)
    (priv : NvramPriv) : NProg (Except Errno (List Entry)) := do
  match ← interface.size (some priv) with
  | .error e =>
    prErr "%s: failed checking size [%d]: %s\n" [.str path, .num e.code, .strerror e]
    return .error e
  | .ok size =>
    -- Can't be valid if too small
    if PLATFORM_HEADER_SIZE ≤ size then
      match ← malloc PLATFORM_HEADER_SIZE with
      | none => return .error enomem
      | some _ =>
        match ← interface.read (some priv) PLATFORM_HEADER_SIZE with
        | .error e =>
          prErr "%s: failed reading [%d]: %s\n" [.str path, .num e.code, .strerror e]
          return .error e
        | .ok buf =>
          match parseHeader crc32 buf.val with
          | some header =>
            if build.version < header.hdrVersion then
              prErr "%s: found header version [%u] greater than supported version [%u]\n"
                [.str path, .num header.hdrVersion.toNat, .num build.version.toNat]
              return .error einval
            prDbg "header valid\n" []
            match ← headerToList header [] with
            | .error e =>
              prErr "%s: Failed populating list from header [%d]: %s\n"
                [.str path, .num e.code, .strerror e]
              return .error e
            | .ok list => return .ok list
          | none =>
            prDbg "header invalid\n" []
            return .ok []
    else
      prDbg "header not found\n" []
      return .ok []

def platformInit (build : PlatformBuild) (interface : Interface)
    (sectionA sectionB : Option CString) : NProg (Except Errno (SingleNvram × List Entry)) := do
  match sectionA with
  | none => return .error einval
  | some path =>
    if path.strlen < 1 then
      return .error einval
    if ¬ emptySection sectionB then
      prErr "platform interface supports single (A) section only\n" []
      return .error einval
    if ¬ (← mallocStruct) then
      return .error enomem
    match ← interface.init path with
    | .error e =>
      prErr "%s: failed initializing [%d]: %s\n" [.str path, .num e.code, .strerror e]
      legacyClose (some ⟨interface, none⟩)
      return .error e
    | .ok priv =>
      match ← platformLoad crc32 build interface path priv with
      | .error e =>
        legacyClose (some ⟨interface, some priv⟩)
        return .error e
      | .ok list => return .ok (⟨interface, some priv⟩, list)

def platformCommit (build : PlatformBuild) (nvram : SingleNvram) (list : List Entry) :
    NProg (Except Errno Unit) := do
  if ¬ build.allowWrite then
    return .error enotsup
  match ← listToHeader build (← errnoIsErange) list with
  | .error e => return .error e
  | .ok header =>
    match ← malloc PLATFORM_HEADER_SIZE with
    | none => return .error enomem
    | some _ =>
      match ← nvram.interface.write nvram.interfacePriv (serializeHeader crc32 header) with
      | .error e =>
        prErr "%s: Failed writing header [%d]: %s\n"
          [.str (← nvram.interface.sectionOf nvram.interfacePriv), .num e.code, .strerror e]
        return .error e
      | .ok () => return .ok ()

end

end Nvram
