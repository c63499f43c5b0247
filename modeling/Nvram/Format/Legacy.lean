import Nvram.Call

/-!
# The legacy format

`nvram_format_legacy.c`.  The data is text, one `KEY=VALUE` line for each entry, in one
section.  Positions in a buffer are taken relative to the bytes that are left of it, and
`NPOS` is `none`.
-/

namespace Nvram

open Errno

def newline : UInt8 := 10
def equals : UInt8 := 61
def space : UInt8 := 32
def tab : UInt8 := 9

/-- `key=value` and a newline. -/
def textRow (t : CString × CString) : Bytes := t.1.bytes ++ equals :: t.2.bytes ++ [newline]

/-- `struct nvram` of the legacy and the platform format. -/
structure SingleNvram where
  interface : Interface
  interfacePriv : Option NvramPriv
  deriving DecidableEq

def legacyClose (nvram : Option SingleNvram) : NProg Unit := do
  match nvram with
  | none => return
  | some pnvram =>
    if pnvram.interfacePriv.isSome then
      pnvram.interface.destroy pnvram.interfacePriv

/-- Position of `key` in `buf`, or `none` if not found. -/
def find (key : UInt8) : Bytes → Option ℕ
  | [] => none
  | b :: buf => if b = key then some 0 else (find key buf).map (· + 1)

/-- The entry at the start of the buffer with the position after it, `none` for the return
value 0. -/
def findEntry (buf : Bytes) : Option (Entry × ℕ) :=
  match find equals buf with
  -- empty key or not found
  | none => none
  | some 0 => none
  | some keyEnd =>
    -- verify no newline in key
    if find newline (buf.take keyEnd) ≠ none then
      none
    else
      -- skip '=' for value start
      let valueStart := keyEnd + 1
      -- No space left for value
      if buf.length ≤ valueStart then
        none
      else
        let r := find newline (buf.drop valueStart)
        -- empty value
        if r = some 0 then
          none
        else
          -- Set value to remaining buf if no terminating newline
          let valueEnd := match r with
            | none => buf.length
            | some n => valueStart + n
          some (⟨buf.take keyEnd, (buf.drop valueStart).take (valueEnd - valueStart)⟩,
            -- skip newline from pos unless end of buf
            if valueEnd < buf.length then valueEnd + 1 else valueEnd)

/-- `append_null_terminator`: two allocations, then the two copies. -/
def appendNullTerminator (entry : Entry) : NProg (Except Errno Entry) := do
  match ← malloc (entry.key.length + 1) with
  | none => return .error enomem
  | some _ =>
    match ← malloc (entry.value.length + 1) with
    | none => return .error enomem
    | some _ => return .ok ⟨entry.key ++ [0], entry.value ++ [0]⟩

/-- Whitespace in beginning of line and empty lines. -/
def isBlank (b : UInt8) : Bool := b = space || b = tab || b = newline

/-- The loop of `populate_list` on the bytes from `pos` on; `fuel` bounds the rounds. -/
def populateFrom : ℕ → List Entry → Bytes → NProg (Except Errno (List Entry))
  | _, list, [] => return .ok list
  -- not reached: every round consumes a byte
  | 0, _, _ :: _ => return .error einval
  | fuel + 1, list, b :: buf => do
    if isBlank b then
      populateFrom fuel list buf
    else
      match findEntry (b :: buf) with
      | none => return .error einval
      | some (entry, r) =>
        match ← appendNullTerminator entry with
        | .error _ => return .error enomem
        | .ok new =>
          match ← libnvramListSet list new with
          | .error _ => return .error enomem
          | .ok list => populateFrom fuel list ((b :: buf).drop r)

def populateList (list : List Entry) (buf : Bytes) : NProg (Except Errno (List Entry)) :=
  populateFrom buf.length list buf

/-- `!section || strlen(section) < 1` -/
def emptySection : Option CString → Bool
  | none => true
  | some path => path.strlen < 1

/-- The part of `legacy_init` after the interface handle was created. -/
def legacyLoad (interface : Interface) (path : CString) (priv : NvramPriv) :
    NProg (Except Errno (List Entry)) := do
  match ← interface.size (some priv) with
  | .error e =>
    prErr "%s: failed checking size [%d]: %s\n" [.str path, .num e.code, .strerror e]
    return .error e
  | .ok bufSize =>
    if 0 < bufSize then
      match ← malloc bufSize with
      | none =>
        prErr "%s: failed allocating read buffer [%d]: %s\n"
          [.str path, .num enomem.code, .strerror enomem]
        return .error enomem
      | some _ =>
        match ← interface.read (some priv) bufSize with
        | .error e =>
          prErr "%s: failed reading [%d]: %s\n" [.str path, .num e.code, .strerror e]
          return .error e
        | .ok buf =>
          match ← populateList [] buf.val with
          | .error e =>
            prErr "%s: data corrupted [%d]: %s\n" [.str path, .num e.code, .strerror e]
            return .error e
          | .ok list => return .ok list
    else
      return .ok []

def legacyInit (interface : Interface) (sectionA sectionB : Option CString) :
    NProg (Except Errno (SingleNvram × List Entry)) := do
  match sectionA with
  | none => return .error einval
  | some path =>
    if path.strlen < 1 then
      return .error einval
    if ¬ emptySection sectionB then
      prErr "legacy interface supports single (A) section only\n" []
      return .error einval
    if ¬ (← mallocStruct) then
      return .error enomem
    match ← interface.init path with
    | .error e =>
      prErr "%s: failed initializing [%d]: %s\n" [.str path, .num e.code, .strerror e]
      legacyClose (some ⟨interface, none⟩)
      return .error e
    | .ok priv =>
      match ← legacyLoad interface path priv with
      | .error e =>
        legacyClose (some ⟨interface, some priv⟩)
        return .error e
      | .ok list => return .ok (⟨interface, some priv⟩, list)

/-- `"%s=%s\n"`: each `%s` ends at the first NUL. -/
def row (entry : Entry) : Bytes :=
  (CString.ofBuf entry.key).bytes ++ equals :: (CString.ofBuf entry.value).bytes ++ [newline]

/-- `snprintf` into `room` bytes: the text cut to what leaves space for the NUL, and the
length of the whole text, negative (`none`) past `INT_MAX`. -/
def snprintf (room : ℕ) (text : Bytes) : Option (Bytes × ℕ) :=
  if intMax < text.length then none
  else some (if room = 0 then [] else text.take (room - 1) ++ [0], text.length)

/-- The first pass of `legacy_commit`: check the entries and add up the sizes. -/
def legacySize : ℕ → List Entry → NProg (Except Errno ℕ)
  | bufSize, [] => return .ok bufSize
  | bufSize, entry :: list => do
    if find equals entry.key ≠ none then
      prErr "legacy format: key contains invalid character \"=\"\n" []
      return .error einval
    if find newline entry.key ≠ none then
      prErr "legacy format: key contains invalid character \"\\n\"\n" []
      return .error einval
    if find newline entry.value ≠ none then
      prErr "legacy format: value contains invalid character \"\\n\"\n" []
      return .error einval
    match snprintf 0 (row entry) with
    | none => return .error einval
    | some (_, r) => legacySize (bufSize + r) list

/-- `memcpy(buf + pos, data, ...)`. -/
def overwrite (buf : Bytes) (pos : ℕ) (data : Bytes) : Bytes :=
  buf.take pos ++ data ++ buf.drop (pos + data.length)

theorem overwrite_length {buf data : Bytes} {pos : ℕ} (h : pos + data.length ≤ buf.length) :
    (overwrite buf pos data).length = buf.length := by
  simp only [overwrite, List.length_append, List.length_take, List.length_drop]
  omega

/-- The second pass: print every row at its position. -/
def legacyFill (buf : Bytes) : ℕ → List Entry → Except Errno Bytes
  | _, [] => .ok buf
  | pos, entry :: list =>
    match snprintf (buf.length - pos) (row entry) with
    | none => .error einval
    | some (text, r) => legacyFill (overwrite buf pos text) (pos + r) list

def legacyCommit (nvram : SingleNvram) (list : List Entry) : NProg (Except Errno Unit) := do
  match ← legacySize 0 list with
  | .error e => return .error e
  | .ok size =>
    -- include space for null-terminator
    let bufSize := size + 1
    match ← malloc bufSize with
    | none =>
      prErr "%s: failed allocating write buffer [%d]: %s\n"
        [.str (← nvram.interface.sectionOf nvram.interfacePriv), .num enomem.code,
          .strerror enomem]
      return .error enomem
    | some mem =>
      match legacyFill mem.val 0 list with
      | .error e => return .error e
      | .ok buf =>
        match ← nvram.interface.write nvram.interfacePriv (buf.take (bufSize - 1)) with
        | .error e =>
          prErr "%s: failed writing [%d]: %s\n"
            [.str (← nvram.interface.sectionOf nvram.interfacePriv), .num e.code, .strerror e]
          return .error e
        | .ok () => return .ok ()

end Nvram
