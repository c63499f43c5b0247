import Nvram.Call

/-!
# The v2 format

`nvram_format_v2.c`.  The data is serialised by libnvram, into one section or into two used
in turn.  A `NULL` buffer of size 0 is the empty list of bytes.
-/

namespace Nvram

open Errno

/-- `struct nvram` of the v2 format. -/
structure V2Nvram where
  interface : Interface
  trans : LibnvramTransaction
  privA : Option NvramPriv
  privB : Option NvramPriv
  deriving DecidableEq

def v2Close (nvram : Option V2Nvram) : NProg Unit := do
  match nvram with
  | none => return
  | some pnvram =>
    if pnvram.privA.isSome then
      pnvram.interface.destroy pnvram.privA
    if pnvram.privB.isSome then
      pnvram.interface.destroy pnvram.privB

def nvramActiveStr (active : LibnvramActive) : String :=
  match active with
  | ⟨true, false⟩ => "A"
  | ⟨false, true⟩ => "B"
  | _ => "NONE"

/-- The log text for a section state. -/
def verifiedStr (state : LibnvramState) : String :=
  if state = .allVerified then "valid" else "invalid"

section

variable (lib : Libnvram)

/-- `some` for a valid header, `none` for an invalid one. -/
def readHeader (interface : Interface) (priv : Option NvramPriv) :
    NProg (Except Errno (Option LibnvramHeader)) := do
  let size := lib.headerLen.toNat
  match ← malloc size with
  | none => return .error enomem
  | some _ =>
    match ← interface.read priv size with
    | .error e => return .error e
    | .ok buf => return .ok (lib.validateHeader buf.val)

/-- `data_size` of `read_section`: the sum is taken in 32 bits. -/
def Libnvram.dataSize (hdr : LibnvramHeader) : ℕ := (lib.headerLen + hdr.len).toNat

def readSection (interface : Interface) (priv : Option NvramPriv) :
    NProg (Except Errno Bytes) := do
  match ← interface.size priv with
  | .error e =>
    prErr "%s: failed checking size [%d]: %s\n"
      [.str (← interface.sectionOf priv), .num e.code, .strerror e]
    return .error e
  | .ok totalSize =>
    if lib.headerLen.toNat ≤ totalSize then
      match ← readHeader lib interface priv with
      | .ok (some hdr) =>
        let dataSize := lib.dataSize hdr
        match ← malloc dataSize with
        | none =>
          prErr "%s: failed allocating %zu byte read buffer\n"
            [.str (← interface.sectionOf priv), .num dataSize]
          return .error enomem
        | some _ =>
          match ← interface.read priv dataSize with
          | .error e =>
            prErr "%s: failed reading %zu bytes [%d]: %s\n"
              [.str (← interface.sectionOf priv), .num dataSize, .num e.code, .strerror e]
            return .error e
          | .ok buf => return .ok buf.val
      | .ok none => return .ok []
      | .error e =>
        prErr "%s: failed reading and validating header: [%d]: %s\n"
          [.str (← interface.sectionOf priv), .num e.code, .strerror e]
        return .error e
    else
      return .ok []

/-- The handle is returned next to the result: it is kept when the read fails. -/
def initAndRead (interface : Interface) (path : CString) (name : LibnvramActive) :
    NProg (Option NvramPriv × Except Errno Bytes) := do
  prDbg "%s: initializing: %s\n" [.lit (nvramActiveStr name), .str path]
  match ← interface.init path with
  | .error e =>
    prErr "%s: failed init [%d]: %s\n" [.str path, .num e.code, .strerror e]
    return (none, .error e)
  | .ok priv =>
    match ← readSection lib interface (some priv) with
    | .error e => return (some priv, .error e)
    | .ok buf =>
      prDbg "%s: size: %zu b\n" [.lit (nvramActiveStr name), .num buf.length]
      return (some priv, .ok buf)

/-- `section && strlen(section) > 0`, then `init_and_read`. -/
def initSection (interface : Interface) (path : Option CString) (name : LibnvramActive) :
    NProg (Option NvramPriv × Except Errno Bytes) := do
  match path with
  | none => return (none, .ok [])
  | some path =>
    if 0 < path.strlen then
      initAndRead lib interface path name
    else
      return (none, .ok [])

/-- The list of the active section. -/
def deserializeActive (trans : LibnvramTransaction) (bufA bufB : Bytes) :
    NProg (Except Errno (List Entry)) :=
  if trans.active.a then
    libnvramDeserialize (bufA.drop lib.headerLen.toNat) trans.sectionA.hdr
  else if trans.active.b then
    libnvramDeserialize (bufB.drop lib.headerLen.toNat) trans.sectionB.hdr
  else
    return .ok []

def v2Init (interface : Interface) (sectionA sectionB : Option CString) :
    NProg (Except Errno (V2Nvram × List Entry)) := do
  if ¬ (← mallocStruct) then
    return .error enomem
  -- `memset` before anything is known: no section is active
  let noSection : LibnvramSection := ⟨.other, ⟨.list, 0, 0⟩⟩
  let noTrans : LibnvramTransaction := ⟨⟨false, false⟩, noSection, noSection⟩
  let (privA, resA) ← initSection lib interface sectionA ⟨true, false⟩
  match resA with
  | .error e =>
    v2Close (some ⟨interface, noTrans, privA, none⟩)
    return .error e
  | .ok bufA =>
    let (privB, resB) ← initSection lib interface sectionB ⟨false, true⟩
    match resB with
    | .error e =>
      v2Close (some ⟨interface, noTrans, privA, privB⟩)
      return .error e
    | .ok bufB =>
      let trans := lib.initTransaction bufA bufB
      prDbg "A: %s\n" [.lit (verifiedStr trans.sectionA.state)]
      prDbg "B: %s\n" [.lit (verifiedStr trans.sectionB.state)]
      prDbg "%s: active\n" [.lit (nvramActiveStr trans.active)]
      match ← deserializeActive lib trans bufA bufB with
      | .error e =>
        prErr "failed deserializing data [%d]: %s\n" [.num e.code, .strerror e]
        v2Close (some ⟨interface, trans, privA, privB⟩)
        return .error e
      | .ok list => return .ok (⟨interface, trans, privA, privB⟩, list)

def writeBuf (interface : Interface) (priv : Option NvramPriv) (buf : Bytes) (size : UInt32) :
    NProg (Except Errno Unit) := do
  prDbg "%s: write: %u b\n" [.str (← interface.sectionOf priv), .num size.toNat]
  match ← interface.write priv buf with
  | .error e =>
    prErr "%s: failed writing %u b [%d]: %s\n"
      [.str (← interface.sectionOf priv), .num size.toNat, .num e.code, .strerror e]
    return .error e
  | .ok () => return .ok ()

/-- The header as `v2_commit` hands it to libnvram: only the type is set. -/
def listHeader : LibnvramHeader := ⟨.list, 0, 0⟩

/-- The writes of `v2_commit`: one to the only section, or one to the section the transaction
names and, on a counter reset, a second to the other. -/
def v2Write (nvram : V2Nvram) (op : LibnvramOperation) (buf : Bytes) (size : UInt32) :
    NProg (Except Errno Unit) := do
  if nvram.privA.isNone ∨ nvram.privB.isNone then
    -- Transactional write disabled
    writeBuf nvram.interface (if nvram.privA.isSome then nvram.privA else nvram.privB) buf size
  else
    match ← writeBuf nvram.interface (if op.writeA then nvram.privA else nvram.privB) buf size with
    | .error e => return .error e
    | .ok () =>
      if op.counterReset then
        writeBuf nvram.interface (if op.writeA then nvram.privB else nvram.privA) buf size
      else
        return .ok ()

def v2Commit (nvram : V2Nvram) (list : List Entry) : NProg (Except Errno Unit × V2Nvram) := do
  let size := lib.serializeSize list
  match ← malloc size.toNat with
  | none =>
    prErr "failed allocating %u byte write buffer\n" [.num size.toNat]
    return (.error enomem, nvram)
  | some mem =>
    let (op, hdr) := lib.nextTransaction nvram.trans listHeader
    let out := lib.serialize list size hdr
    if out.bytes.length = 0 then
      prErr "failed serializing nvram data\n" []
      -- `goto exit` with `r` still 0
      return (.ok (), nvram)
    else
      -- the whole buffer is written, not only the bytes `libnvram_serialize` produced
      let buf := out.bytes ++ mem.val.drop out.bytes.length
      match ← v2Write nvram op buf size with
      | .error e => return (.error e, nvram)
      | .ok () =>
        let trans := lib.updateTransaction nvram.trans op out.hdr
        prDbg "%s: active\n" [.lit (nvramActiveStr trans.active)]
        return (.ok (), { nvram with trans := trans })

end

end Nvram
