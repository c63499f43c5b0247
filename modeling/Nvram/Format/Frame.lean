import Nvram.Config

/-!
# What a format may touch

The calls a format makes are confined to the sections it was given: it leaves the lockfile
and the standard output alone, it addresses no other path, and only a commit writes.  This
holds of every format, however its calls are answered.
-/

namespace Nvram

open Effects

/-! ### Classes of calls -/

namespace Call

def isWrite : Call → Bool
  | write _ _ _ => true
  | _ => false

/-- The writes among the calls of a run. -/
def writesIn (evs : List CallEvent) : List Call := (evs.map Event.op).filter isWrite

/-- The system calls on the lockfile. -/
def isLock : Call → Bool
  | openLock _ => true
  | flock _ => true
  | close _ => true
  | unlink _ => true
  | _ => false

/-- The text a call prints. -/
def printed : Call → Bytes
  | print text => text
  | _ => []

/-- The interface of a section call. -/
def interface? : Call → Option Interface
  | init i _ => some i
  | size i _ => some i
  | read i _ _ => some i
  | write i _ _ => some i
  | sectionOf i _ => some i
  | destroy i _ => some i
  | _ => none

/-- The section that a call addresses. -/
def path? : Call → Option CString
  | init _ path => some path
  | size _ priv => priv.map NvramPriv.path
  | read _ priv _ => priv.map NvramPriv.path
  | write _ priv _ => priv.map NvramPriv.path
  | sectionOf _ priv => priv.map NvramPriv.path
  | destroy _ priv => priv.map NvramPriv.path
  | _ => none

/-- A call that a format on the sections `paths` of interface `i` may make. -/
def Within (i : Interface) (paths : CString → Prop) (o : Call) : Prop :=
  (∀ j, o.interface? = some j → j = i) ∧ (∀ path, o.path? = some path → paths path) ∧
    o.isLock = false ∧ o.printed = []

/-- One that writes nothing. -/
def Reads (i : Interface) (paths : CString → Prop) (o : Call) : Prop :=
  o.Within i paths ∧ o.isWrite = false

/-- A call that is no section call, leaves the lockfile alone and prints nothing. -/
def Inner (o : Call) : Prop :=
  o.interface? = none ∧ o.path? = none ∧ o.isLock = false ∧ o.printed = [] ∧ o.isWrite = false

theorem Inner.reads {i : Interface} {paths : CString → Prop} {o : Call} (h : o.Inner) :
    o.Reads i paths := by
  obtain ⟨hi, hpath, hlock, hprinted, hwrite⟩ := h
  exact ⟨⟨by simp [hi], by simp [hpath], hlock, hprinted⟩, hwrite⟩

@[simp] theorem writesIn_nil : writesIn [] = [] := rfl

@[simp] theorem writesIn_append (evs evs' : List CallEvent) :
    writesIn (evs ++ evs') = writesIn evs ++ writesIn evs' := by
  rw [writesIn, List.map_append, List.filter_append]
  rfl

theorem writesIn_cons {e : CallEvent} (h : e.op.isWrite = false) (evs : List CallEvent) :
    writesIn (e :: evs) = writesIn evs :=
  List.filter_cons_of_neg (by simp [h])

theorem writesIn_write (i : Interface) (priv : Option NvramPriv) (buf : Bytes)
    (r : Except Errno Unit) (evs : List CallEvent) :
    writesIn (⟨.write i priv buf, r⟩ :: evs) = .write i priv buf :: writesIn evs := rfl

theorem writesIn_eq_nil {evs : List CallEvent} (h : ∀ e ∈ evs, e.op.isWrite = false) :
    writesIn evs = [] := by
  refine List.filter_eq_nil_iff.mpr fun o ho => ?_
  obtain ⟨e, he, rfl⟩ := List.mem_map.mp ho
  simp [h e he]

@[simp] theorem inner_malloc (n : ℕ) : (malloc n).Inner := ⟨rfl, rfl, rfl, rfl, rfl⟩

@[simp] theorem inner_mallocStruct : mallocStruct.Inner := ⟨rfl, rfl, rfl, rfl, rfl⟩

@[simp] theorem inner_enableDebug : enableDebug.Inner := ⟨rfl, rfl, rfl, rfl, rfl⟩

@[simp] theorem inner_printDebug (fmt : String) (args : List Arg) : (printDebug fmt args).Inner :=
  ⟨rfl, rfl, rfl, rfl, rfl⟩

@[simp] theorem inner_fprintfStderr (fmt : String) (args : List Arg) :
    (fprintfStderr fmt args).Inner := ⟨rfl, rfl, rfl, rfl, rfl⟩

@[simp] theorem inner_printUsage (sections : List (Option CString)) :
    (printUsage sections).Inner := ⟨rfl, rfl, rfl, rfl, rfl⟩

@[simp] theorem inner_usleep (us : ℕ) : (usleep us).Inner := ⟨rfl, rfl, rfl, rfl, rfl⟩

@[simp] theorem inner_errnoIsErange : errnoIsErange.Inner := ⟨rfl, rfl, rfl, rfl, rfl⟩

@[simp] theorem inner_listSet (list : List Entry) (entry : Entry) : (listSet list entry).Inner :=
  ⟨rfl, rfl, rfl, rfl, rfl⟩

@[simp] theorem inner_deserialize (data : Bytes) (hdr : LibnvramHeader) :
    (deserialize data hdr).Inner := ⟨rfl, rfl, rfl, rfl, rfl⟩

end Call

section

variable {α : Type} {i : Interface} {paths : CString → Prop} {Q : α → Prop}

/-! ### Section calls on a handle -/

theorem Call.reads_init {path : CString} (h : paths path) : (Call.init i path).Reads i paths :=
  ⟨⟨by simp [interface?], by simpa [path?] using h, rfl, rfl⟩, rfl⟩

variable {priv : Option NvramPriv}

theorem Call.reads_size (h : ∀ p ∈ priv, paths p.path) : (Call.size i priv).Reads i paths :=
  ⟨⟨by simp [interface?], by simpa [path?] using h, rfl, rfl⟩, rfl⟩

theorem Call.reads_read (h : ∀ p ∈ priv, paths p.path) (n : ℕ) :
    (Call.read i priv n).Reads i paths :=
  ⟨⟨by simp [interface?], by simpa [path?] using h, rfl, rfl⟩, rfl⟩

theorem Call.reads_sectionOf (h : ∀ p ∈ priv, paths p.path) :
    (Call.sectionOf i priv).Reads i paths :=
  ⟨⟨by simp [interface?], by simpa [path?] using h, rfl, rfl⟩, rfl⟩

theorem Call.reads_destroy (h : ∀ p ∈ priv, paths p.path) :
    (Call.destroy i priv).Reads i paths :=
  ⟨⟨by simp [interface?], by simpa [path?] using h, rfl, rfl⟩, rfl⟩

theorem Call.within_write (h : ∀ p ∈ priv, paths p.path) (buf : Bytes) :
    (Call.write i priv buf).Within i paths :=
  ⟨by simp [interface?], by simpa [path?] using h, rfl, rfl⟩

/-! ### Calls through one handle -/

/-- `P` has the calls that touch no section and those that read through the handle `priv`. -/
structure ReadsThrough (P : Call → Prop) (i : Interface) (priv : Option NvramPriv) : Prop where
  inner : ∀ o, Call.Inner o → P o
  size : P (.size i priv)
  read : ∀ n, P (.read i priv n)
  sectionOf : P (.sectionOf i priv)

/-- `P` has the writes through the handle of the buffers in `B` as well. -/
structure WritesThrough (P : Call → Prop) (B : Bytes → Prop) (i : Interface)
    (priv : Option NvramPriv) : Prop extends ReadsThrough P i priv where
  write : ∀ buf, B buf → P (.write i priv buf)

theorem Call.readsThrough (h : ∀ p ∈ priv, paths p.path) :
    ReadsThrough (Call.Reads i paths) i priv where
  inner _ ho := ho.reads
  size := Call.reads_size h
  read := Call.reads_read h
  sectionOf := Call.reads_sectionOf h

theorem Call.writesThrough (h : ∀ p ∈ priv, paths p.path) :
    WritesThrough (Call.Within i paths) (fun _ => True) i priv where
  inner _ ho := ho.reads.1
  size := (Call.reads_size h).1
  read n := (Call.reads_read h n).1
  sectionOf := (Call.reads_sectionOf h).1
  write buf _ := Call.within_write h buf

variable {P : Call → Prop} {B : Bytes → Prop}

/-- An error is logged and returned. -/
theorem confined_logged (hinner : ∀ o, Call.Inner o → P o) (fmt : String) (args : List Arg)
    (e : Errno) :
    Confined P (fun _ => True) (do
      prErr fmt args
      return (.error e : Except Errno α)) :=
  ⟨hinner _ (Call.inner_fprintfStderr _ _), fun _ => trivial⟩

/-- An error is logged with the section's name. -/
theorem ReadsThrough.logged (h : ReadsThrough P i priv) (fmt : String)
    (args : Option CString → List Arg) (e : Errno) :
    Confined P (fun _ => True) (do
      prErr fmt (args (← i.sectionOf priv))
      return (.error e : Except Errno α)) :=
  ⟨h.sectionOf, fun _ => ⟨h.inner _ (Call.inner_fprintfStderr _ _), fun _ => trivial⟩⟩

/-! ### The v2 format -/

section

variable (lib : Libnvram)

theorem confined_readHeader (h : ReadsThrough P i priv) :
    Confined P (fun _ => True) (readHeader lib i priv) := by
  simp only [readHeader, malloc_bind]
  refine ⟨h.inner _ (Call.inner_malloc _), fun m => ?_⟩
  cases m with
  | none => trivial
  | some mem =>
      simp only [Interface.read_bind]
      refine ⟨h.read _, fun r => ?_⟩
      cases r <;> trivial

theorem confined_readSection (h : ReadsThrough P i priv) :
    Confined P (fun _ => True) (readSection lib i priv) := by
  simp only [readSection, Interface.size_bind]
  refine ⟨h.size, fun r => ?_⟩
  cases r with
  | error e => exact h.logged _ (fun s => [.str s, .num e.code, .strerror e]) e
  | ok totalSize =>
      dsimp only
      split
      · refine confined_seq (confined_readHeader lib h) fun r _ => ?_
        cases r with
        | error e => exact h.logged _ (fun s => [.str s, .num e.code, .strerror e]) e
        | ok hdr =>
            cases hdr with
            | none => trivial
            | some hdr =>
                simp only [malloc_bind]
                refine ⟨h.inner _ (Call.inner_malloc _), fun m => ?_⟩
                cases m with
                | none => exact h.logged _ (fun s => [.str s, .num (lib.dataSize hdr)]) _
                | some mem =>
                    simp only [Interface.read_bind]
                    refine ⟨h.read _, fun r => ?_⟩
                    cases r with
                    | error e =>
                        exact h.logged _ (fun s => [.str s, .num (lib.dataSize hdr), .num e.code,
                          .strerror e]) e
                    | ok buf => trivial
      · trivial

theorem reads_initSection {path : Option CString} (h : ∀ p ∈ path, paths p)
    (name : LibnvramActive) :
    Confined (Call.Reads i paths) (fun r => ∀ p ∈ r.1, paths p.path)
      (initSection lib i path name) := by
  cases path with
  | none => exact fun p hp => by simp at hp
  | some path =>
      have hpath : paths path := h path rfl
      simp only [initSection]
      split
      · simp only [initAndRead, prDbg_bind, Interface.init_bind]
        refine ⟨(Call.inner_printDebug _ _).reads, fun _ => ?_⟩
        refine ⟨Call.reads_init hpath, fun r => ?_⟩
        cases r with
        | error e => exact ⟨(Call.inner_fprintfStderr _ _).reads, fun _ p hp => by simp at hp⟩
        | ok data =>
            have hpriv : ∀ p ∈ some (NvramPriv.mk path data), paths p.path := by simpa using hpath
            refine confined_seq (confined_readSection lib (Call.readsThrough hpriv)) fun r _ => ?_
            cases r with
            | error e => exact hpriv
            | ok buf => exact ⟨(Call.inner_printDebug _ _).reads, fun _ => hpriv⟩
      · exact fun p hp => by simp at hp

/-- The handles of `nvram` are on sections in `paths` of interface `i`. -/
def V2Nvram.On (i : Interface) (paths : CString → Prop) (nvram : V2Nvram) : Prop :=
  nvram.interface = i ∧ (∀ p ∈ nvram.privA, paths p.path) ∧ ∀ p ∈ nvram.privB, paths p.path

theorem reads_v2Close {nvram : Option V2Nvram} (h : ∀ n ∈ nvram, n.On i paths) :
    Confined (Call.Reads i paths) (fun _ => True) (v2Close nvram) := by
  cases nvram with
  | none => trivial
  | some nvram =>
      obtain ⟨rfl, hA, hB⟩ := h nvram rfl
      simp only [v2Close]
      split
      · refine ⟨Call.reads_destroy hA, fun _ => ?_⟩
        split
        · exact ⟨Call.reads_destroy hB, fun _ => trivial⟩
        · trivial
      · split
        · exact ⟨Call.reads_destroy hB, fun _ => trivial⟩
        · trivial

/-- The list comes from an inner call; without an active section it is empty. -/
theorem inner_deserializeActive (trans : LibnvramTransaction) (bufA bufB : Bytes) :
    Confined Call.Inner (fun r => trans.active = ⟨false, false⟩ → r = .ok [])
      (deserializeActive lib trans bufA bufB) := by
  unfold deserializeActive
  split
  · rename_i ha
    refine ⟨Call.inner_deserialize _ _, fun _ hnone => ?_⟩
    simp [hnone] at ha
  · split
    · rename_i hb
      refine ⟨Call.inner_deserialize _ _, fun _ hnone => ?_⟩
      simp [hnone] at hb
    · exact fun _ => rfl

theorem reads_v2Init {sectionA sectionB : Option CString} (hA : ∀ p ∈ sectionA, paths p)
    (hB : ∀ p ∈ sectionB, paths p) :
    Confined (Call.Reads i paths) (fun r => ∀ nvram list, r = .ok (nvram, list) → nvram.On i paths)
      (v2Init lib i sectionA sectionB) := by
  simp only [v2Init, mallocStruct_bind]
  refine ⟨Call.inner_mallocStruct.reads, fun ok => ?_⟩
  dsimp only
  split
  · exact fun _ _ h => by cases h
  refine confined_seq (reads_initSection lib hA _) fun ra ha => ?_
  obtain ⟨privA, resA⟩ := ra
  cases resA with
  | error e =>
      refine confined_seq (reads_v2Close ?_) fun _ _ _ _ h => by cases h
      simpa [V2Nvram.On] using ha
  | ok bufA =>
      refine confined_seq (reads_initSection lib hB _) fun rb hb => ?_
      obtain ⟨privB, resB⟩ := rb
      have hon : ∀ trans, V2Nvram.On i paths ⟨i, trans, privA, privB⟩ := fun _ => ⟨rfl, ha, hb⟩
      cases resB with
      | error e =>
          refine confined_seq (reads_v2Close ?_) fun _ _ _ _ h => by cases h
          simpa using hon _
      | ok bufB =>
          simp only [prDbg_bind]
          iterate 3 refine ⟨(Call.inner_printDebug _ _).reads, fun _ => ?_⟩
          refine confined_seq ((inner_deserializeActive lib _ _ _).mono (fun _ h => h.reads)
            fun _ _ => trivial) fun r _ => ?_
          cases r with
          | error e =>
              simp only [prErr_bind]
              refine ⟨(Call.inner_fprintfStderr _ _).reads, fun _ => ?_⟩
              refine confined_seq (reads_v2Close ?_) fun _ _ _ _ h => by cases h
              simpa using hon _
          | ok list =>
              intro nvram list' h
              cases h
              exact hon _

theorem confined_writeBuf (h : WritesThrough P B i priv) {buf : Bytes} (hbuf : B buf)
    (size : UInt32) :
    Confined P (fun _ => True) (writeBuf i priv buf size) := by
  simp only [writeBuf, Interface.sectionOf_bind, Interface.write_bind]
  refine ⟨h.sectionOf, fun _ => ?_⟩
  refine ⟨h.inner _ (Call.inner_printDebug _ _), fun _ => ?_⟩
  refine ⟨h.write buf hbuf, fun r => ?_⟩
  cases r with
  | error e => exact h.logged _ (fun s => [.str s, .num size.toNat, .num e.code, .strerror e]) e
  | ok u => trivial

/-- The handles that a commit can write through. -/
def V2Nvram.Target (nvram : V2Nvram) (priv : Option NvramPriv) : Prop :=
  if nvram.privA.isNone ∨ nvram.privB.isNone then
    priv = if nvram.privA.isSome then nvram.privA else nvram.privB
  else priv = nvram.privA ∨ priv = nvram.privB

theorem confined_v2Write {nvram : V2Nvram}
    (h : ∀ priv, nvram.Target priv → WritesThrough P B nvram.interface priv)
    (op : LibnvramOperation) {buf : Bytes} (hbuf : B buf) (size : UInt32) :
    Confined P (fun _ => True) (v2Write nvram op buf size) := by
  unfold v2Write
  split
  · rename_i hsingle
    refine confined_writeBuf (h _ ?_) hbuf size
    rw [V2Nvram.Target, if_pos hsingle]
  · rename_i hboth
    have hpick : ∀ b : Bool, WritesThrough P B nvram.interface
        (if b then nvram.privA else nvram.privB) := by
      intro b
      refine h _ ?_
      rw [V2Nvram.Target, if_neg hboth]
      cases b
      · exact Or.inr rfl
      · exact Or.inl rfl
    refine confined_seq (confined_writeBuf (hpick _) hbuf size) fun r _ => ?_
    cases r with
    | error e => trivial
    | ok u =>
        dsimp only
        split
        · have hother : WritesThrough P B nvram.interface
              (if op.writeA then nvram.privB else nvram.privA) := by
            have hnot := hpick (!op.writeA)
            cases hw : op.writeA <;> simpa [hw] using hnot
          exact confined_writeBuf hother hbuf size
        · trivial

theorem confined_v2Commit {nvram : V2Nvram} (hinner : ∀ o, Call.Inner o → P o)
    (h : ∀ priv, nvram.Target priv → WritesThrough P B nvram.interface priv) (list : List Entry)
    (hbuf : ∀ mem : {buf : Bytes // buf.length = (lib.serializeSize list).toNat},
      let out := lib.serialize list (lib.serializeSize list)
        (lib.nextTransaction nvram.trans listHeader).2
      out.bytes.length ≠ 0 → B (out.bytes ++ mem.val.drop out.bytes.length)) :
    Confined P (fun _ => True) (v2Commit lib nvram list) := by
  simp only [v2Commit, malloc_bind]
  refine ⟨hinner _ (Call.inner_malloc _), fun m => ?_⟩
  cases m with
  | none => exact ⟨hinner _ (Call.inner_fprintfStderr _ _), fun _ => trivial⟩
  | some mem =>
      dsimp only
      split
      · exact ⟨hinner _ (Call.inner_fprintfStderr _ _), fun _ => trivial⟩
      · rename_i hbytes
        refine confined_seq (confined_v2Write h _ (hbuf mem hbytes) _) fun r _ => ?_
        cases r with
        | error e => trivial
        | ok u => exact ⟨hinner _ (Call.inner_printDebug _ _), fun _ => trivial⟩

theorem within_v2Commit {nvram : V2Nvram} (h : nvram.On i paths) (list : List Entry) :
    Confined (Call.Within i paths) (fun _ => True) (v2Commit lib nvram list) := by
  obtain ⟨rfl, hA, hB⟩ := h
  refine confined_v2Commit (B := fun _ => True) lib (fun _ ho => ho.reads.1)
    (fun priv htarget => ?_) list fun _ _ => trivial
  refine Call.writesThrough ?_
  unfold V2Nvram.Target at htarget
  split at htarget
  · rw [htarget]
    split
    · exact hA
    · exact hB
  · rcases htarget with rfl | rfl
    · exact hA
    · exact hB

end

/-! ### The legacy and the platform format -/

/-- The handle of `nvram` is on a section in `paths` of interface `i`. -/
def SingleNvram.On (i : Interface) (paths : CString → Prop) (nvram : SingleNvram) : Prop :=
  nvram.interface = i ∧ ∀ p ∈ nvram.interfacePriv, paths p.path

theorem SingleNvram.On.writesThrough {nvram : SingleNvram} (h : nvram.On i paths) :
    WritesThrough (Call.Within i paths) (fun _ => True) nvram.interface nvram.interfacePriv := by
  obtain ⟨rfl, hpriv⟩ := h
  exact Call.writesThrough hpriv

theorem reads_legacyClose {nvram : Option SingleNvram} (h : ∀ n ∈ nvram, n.On i paths) :
    Confined (Call.Reads i paths) (fun _ => True) (legacyClose nvram) := by
  cases nvram with
  | none => trivial
  | some nvram =>
      obtain ⟨rfl, hpriv⟩ := h nvram rfl
      simp only [legacyClose]
      split
      · exact ⟨Call.reads_destroy hpriv, fun _ => trivial⟩
      · trivial

theorem inner_appendNullTerminator (entry : Entry) :
    Confined Call.Inner (fun _ => True) (appendNullTerminator entry) := by
  simp only [appendNullTerminator, malloc_bind]
  refine ⟨Call.inner_malloc _, fun m => ?_⟩
  cases m with
  | none => trivial
  | some _ =>
      refine ⟨Call.inner_malloc _, fun m => ?_⟩
      cases m <;> trivial

theorem inner_populateFrom (fuel : ℕ) (list : List Entry) (buf : Bytes) :
    Confined Call.Inner (fun _ => True) (populateFrom fuel list buf) := by
  induction fuel generalizing list buf with
  | zero => cases buf <;> trivial
  | succ fuel ih =>
      cases buf with
      | nil => trivial
      | cons b buf =>
          simp only [populateFrom]
          split
          · exact ih list buf
          · split
            · trivial
            · refine confined_seq (inner_appendNullTerminator _) fun r _ => ?_
              cases r with
              | error e => trivial
              | ok new =>
                  refine ⟨Call.inner_listSet _ _, fun r => ?_⟩
                  cases r with
                  | error e => trivial
                  | ok list => exact ih list _

theorem confined_legacyLoad {path : CString} {priv : NvramPriv}
    (h : ReadsThrough P i (some priv)) :
    Confined P (fun _ => True) (legacyLoad i path priv) := by
  simp only [legacyLoad, Interface.size_bind]
  refine ⟨h.size, fun r => ?_⟩
  cases r with
  | error e => exact confined_logged h.inner _ _ e
  | ok bufSize =>
      dsimp only
      split
      · simp only [malloc_bind]
        refine ⟨h.inner _ (Call.inner_malloc _), fun m => ?_⟩
        cases m with
        | none => exact confined_logged h.inner _ _ _
        | some _ =>
            simp only [Interface.read_bind]
            refine ⟨h.read _, fun r => ?_⟩
            cases r with
            | error e => exact confined_logged h.inner _ _ e
            | ok buf =>
                refine confined_seq ((inner_populateFrom _ _ _).mono h.inner fun _ h => h)
                  fun r _ => ?_
                cases r with
                | error e => exact confined_logged h.inner _ _ e
                | ok list => trivial
      · trivial

/-- The init of a format with one section: the sections are checked, the handle is opened,
then `load` reads it. -/
def singleInit (msg : String) (load : CString → NvramPriv → NProg (Except Errno (List Entry)))
    (interface : Interface) (sectionA sectionB : Option CString) :
    NProg (Except Errno (SingleNvram × List Entry)) := do
  match sectionA with
  | none => return .error Errno.einval
  | some path =>
    if path.strlen < 1 then
      return .error Errno.einval
    if ¬ emptySection sectionB then
      prErr msg []
      return .error Errno.einval
    if ¬ (← mallocStruct) then
      return .error Errno.enomem
    match ← interface.init path with
    | .error e =>
      prErr "%s: failed initializing [%d]: %s\n" [.str path, .num e.code, .strerror e]
      legacyClose (some ⟨interface, none⟩)
      return .error e
    | .ok priv =>
      match ← load path priv with
      | .error e =>
        legacyClose (some ⟨interface, some priv⟩)
        return .error e
      | .ok list => return .ok (⟨interface, some priv⟩, list)

theorem legacyInit_eq (interface : Interface) (sectionA sectionB : Option CString) :
    legacyInit interface sectionA sectionB =
      singleInit "legacy interface supports single (A) section only\n" (legacyLoad interface)
        interface sectionA sectionB := rfl

theorem platformInit_eq (crc32 : Bytes → UInt32) (build : PlatformBuild) (interface : Interface)
    (sectionA sectionB : Option CString) :
    platformInit crc32 build interface sectionA sectionB =
      singleInit "platform interface supports single (A) section only\n"
        (platformLoad crc32 build interface) interface sectionA sectionB := rfl

theorem reads_singleInit (msg : String)
    {load : CString → NvramPriv → NProg (Except Errno (List Entry))}
    (hload : ∀ path priv, paths priv.path →
      Confined (Call.Reads i paths) (fun _ => True) (load path priv))
    {sectionA : Option CString} (sectionB : Option CString) (hA : ∀ p ∈ sectionA, paths p) :
    Confined (Call.Reads i paths)
      (fun r => ∀ nvram list, r = .ok (nvram, list) → SingleNvram.On i paths nvram)
      (singleInit msg load i sectionA sectionB) := by
  have herr : ∀ e : Errno, ∀ nvram : SingleNvram, ∀ list : List Entry,
      (.error e : Except Errno (SingleNvram × List Entry)) = .ok (nvram, list) →
        nvram.On i paths := fun e nvram list h => by cases h
  cases sectionA with
  | none => exact herr _
  | some path =>
      have hpath : paths path := hA path rfl
      simp only [singleInit]
      split
      · exact herr _
      split
      · exact ⟨(Call.inner_fprintfStderr _ _).reads, fun _ => herr _⟩
      simp only [mallocStruct_bind]
      refine ⟨Call.inner_mallocStruct.reads, fun ok => ?_⟩
      dsimp only
      split
      · exact herr _
      simp only [Interface.init_bind]
      refine ⟨Call.reads_init hpath, fun r => ?_⟩
      cases r with
      | error e =>
          simp only [Except.map, prErr_bind]
          refine ⟨(Call.inner_fprintfStderr _ _).reads, fun _ => ?_⟩
          refine confined_seq (reads_legacyClose ?_) fun _ _ => herr _
          simp [SingleNvram.On]
      | ok data =>
          refine confined_seq (hload path _ hpath) fun r _ => ?_
          cases r with
          | error e =>
              refine confined_seq (reads_legacyClose ?_) fun _ _ => herr _
              simpa [SingleNvram.On] using hpath
          | ok list =>
              intro nvram list' hr
              cases hr
              simpa [SingleNvram.On] using hpath

theorem reads_legacyInit {sectionA sectionB : Option CString} (hA : ∀ p ∈ sectionA, paths p) :
    Confined (Call.Reads i paths)
      (fun r => ∀ nvram list, r = .ok (nvram, list) → nvram.On i paths)
      (legacyInit i sectionA sectionB) := by
  rw [legacyInit_eq]
  refine reads_singleInit _ (fun path priv hpriv => ?_) sectionB hA
  exact confined_legacyLoad (Call.readsThrough (by simpa using hpriv))

theorem inner_sizePass (bufSize : ℕ) (list : List Entry) :
    Confined Call.Inner (fun _ => True) (legacySize bufSize list) := by
  induction list generalizing bufSize with
  | nil => trivial
  | cons entry list ih =>
      simp only [legacySize]
      split
      · exact confined_logged (fun _ h => h) _ _ _
      · split
        · exact confined_logged (fun _ h => h) _ _ _
        · split
          · exact confined_logged (fun _ h => h) _ _ _
          · split
            · trivial
            · exact ih _

/-- The commit with what its first pass says of the size, and the buffers it then fills. -/
theorem confined_legacyCommit {nvram : SingleNvram}
    (h : WritesThrough P B nvram.interface nvram.interfacePriv) {list : List Entry}
    {R : Except Errno ℕ → Prop} (hsize : Confined Call.Inner R (legacySize 0 list))
    (hbuf : ∀ size, R (.ok size) → ∀ (mem : {buf : Bytes // buf.length = size + 1}) buf,
      legacyFill mem.val 0 list = .ok buf → B (buf.take (size + 1 - 1))) :
    Confined P (fun _ => True) (legacyCommit nvram list) := by
  unfold legacyCommit
  refine confined_seq (hsize.mono h.inner fun _ h => h) fun r hr => ?_
  cases r with
  | error e => trivial
  | ok size =>
      simp only [malloc_bind]
      refine ⟨h.inner _ (Call.inner_malloc _), fun m => ?_⟩
      cases m with
      | none => exact h.logged _ (fun s => [.str s, .num Errno.enomem.code, .strerror _]) _
      | some mem =>
          dsimp only
          cases hfill : legacyFill mem.val 0 list with
          | error e => trivial
          | ok buf =>
              refine ⟨h.write _ (hbuf size hr mem buf hfill), fun r => ?_⟩
              cases r with
              | error e => exact h.logged _ (fun s => [.str s, .num e.code, .strerror e]) e
              | ok u => trivial

section

variable (crc32 : Bytes → UInt32) (build : PlatformBuild)

theorem inner_valueToList (header : PlatformHeader) (fieldName : FieldName) (field : Field)
    (list : List Entry) :
    Confined Call.Inner (fun _ => True) (valueToList header fieldName field list) := by
  simp only [valueToList]
  split
  · trivial
  · split
    · exact confined_logged (fun _ h => h) _ _ _
    · refine ⟨Call.inner_listSet _ _, fun r => ?_⟩
      cases r with
      | error e => exact confined_logged (fun _ h => h) _ _ _
      | ok list => trivial

theorem inner_headerToList (header : PlatformHeader) (list : List Entry) :
    Confined Call.Inner (fun _ => True) (headerToList header list) := by
  have hiter : ∀ names list, Confined Call.Inner (fun _ => True)
      (headerToListVersionIterator header names list) := by
    intro names
    induction names with
    | nil => exact fun _ => trivial
    | cons fieldName names ih =>
        intro list
        refine confined_seq (inner_valueToList header fieldName _ list) fun r _ => ?_
        cases r with
        | error e => trivial
        | ok list => exact ih list
  unfold headerToList
  split
  · exact hiter _ _
  · exact ⟨Call.inner_fprintfStderr _ _, fun _ => trivial⟩

theorem confined_platformLoad {path : CString} {priv : NvramPriv}
    (h : ReadsThrough P i (some priv)) :
    Confined P (fun _ => True) (platformLoad crc32 build i path priv) := by
  simp only [platformLoad, Interface.size_bind]
  refine ⟨h.size, fun r => ?_⟩
  cases r with
  | error e => exact confined_logged h.inner _ _ e
  | ok size =>
      dsimp only
      split
      · simp only [malloc_bind]
        refine ⟨h.inner _ (Call.inner_malloc _), fun m => ?_⟩
        cases m with
        | none => trivial
        | some _ =>
            simp only [Interface.read_bind]
            refine ⟨h.read _, fun r => ?_⟩
            cases r with
            | error e => exact confined_logged h.inner _ _ e
            | ok buf =>
                dsimp only
                split
                · split
                  · exact confined_logged h.inner _ _ _
                  · simp only [prDbg_bind]
                    refine ⟨h.inner _ (Call.inner_printDebug _ _), fun _ => ?_⟩
                    refine confined_seq ((inner_headerToList _ _).mono h.inner fun _ h => h)
                      fun r _ => ?_
                    cases r with
                    | error e => exact confined_logged h.inner _ _ e
                    | ok list => trivial
                · exact ⟨h.inner _ (Call.inner_printDebug _ _), fun _ => trivial⟩
      · exact ⟨h.inner _ (Call.inner_printDebug _ _), fun _ => trivial⟩

theorem reads_platformInit {sectionA sectionB : Option CString} (hA : ∀ p ∈ sectionA, paths p) :
    Confined (Call.Reads i paths)
      (fun r => ∀ nvram list, r = .ok (nvram, list) → nvram.On i paths)
      (platformInit crc32 build i sectionA sectionB) := by
  rw [platformInit_eq]
  refine reads_singleInit _ (fun path priv hpriv => ?_) sectionB hA
  exact confined_platformLoad crc32 build (Call.readsThrough (by simpa using hpriv))

theorem inner_listToHeader (erange : Bool) (list : List Entry) :
    Confined Call.Inner (fun _ => True) (listToHeader build erange list) := by
  unfold listToHeader
  generalize ({ PlatformHeader.zero with hdrMagic := HEADER_MAGIC, hdrVersion := build.version } :
    PlatformHeader) = header
  induction list generalizing erange header with
  | nil => trivial
  | cons entry list ih =>
      simp only [listToHeaderFrom]
      split
      · split
        · exact confined_logged (fun _ h => h) _ _ _
        · trivial
        · exact confined_logged (fun _ h => h) _ _ _
        · exact ih _ _
      · exact confined_logged (fun _ h => h) _ _ _

theorem confined_platformCommit {nvram : SingleNvram}
    (h : WritesThrough P (fun _ => True) nvram.interface nvram.interfacePriv)
    (list : List Entry) :
    Confined P (fun _ => True) (platformCommit crc32 build nvram list) := by
  unfold platformCommit
  split
  · trivial
  · simp only [errnoIsErange_bind]
    refine ⟨h.inner _ Call.inner_errnoIsErange, fun erange => ?_⟩
    refine confined_seq ((inner_listToHeader build erange list).mono h.inner fun _ h => h)
      fun r _ => ?_
    cases r with
    | error e => trivial
    | ok header =>
        refine ⟨h.inner _ (Call.inner_malloc _), fun m => ?_⟩
        cases m with
        | none => trivial
        | some _ =>
            refine ⟨h.write _ trivial, fun r => ?_⟩
            cases r with
            | error e => exact h.logged _ (fun s => [.str s, .num e.code, .strerror e]) e
            | ok u => trivial

end

end

/-! ### Every format -/

/-- What is known of the calls of a format. -/
structure NvramFormat.Frame (format : NvramFormat) where
  On : Interface → (CString → Prop) → format.StructNvram → Prop
  init : ∀ i paths sectionA sectionB, (∀ p ∈ sectionA, paths p) → (∀ p ∈ sectionB, paths p) →
    Confined (Call.Reads i paths) (fun r => ∀ nvram list, r = .ok (nvram, list) → On i paths nvram)
      (format.init i sectionA sectionB)
  commit : ∀ i paths nvram list, On i paths nvram →
    Confined (Call.Within i paths) (fun _ => True) (format.commit nvram list)
  close : ∀ i paths nvram, (∀ n ∈ nvram, On i paths n) →
    Confined (Call.Reads i paths) (fun _ => True) (format.close nvram)

section

variable (lib : Libnvram) (crc32 : Bytes → UInt32)

def nvramV2Format.frame : (nvramV2Format lib).Frame where
  On := V2Nvram.On
  init _ _ _ _ hA hB := reads_v2Init lib hA hB
  commit _ _ _ list h := within_v2Commit lib h list
  close _ _ _ h := reads_v2Close h

def nvramLegacyFormat.frame : nvramLegacyFormat.Frame where
  On := SingleNvram.On
  init _ _ _ _ hA _ := reads_legacyInit hA
  commit _ _ _ list h :=
    confined_seq (confined_legacyCommit h.writesThrough (inner_sizePass 0 list)
      fun _ _ _ _ _ => trivial) fun _ _ => trivial
  close _ _ _ h := reads_legacyClose h

def nvramPlatformFormat.frame (build : PlatformBuild) : (nvramPlatformFormat crc32 build).Frame where
  On := SingleNvram.On
  init _ _ _ _ hA _ := reads_platformInit crc32 build hA
  commit _ _ _ list h :=
    confined_seq (confined_platformCommit crc32 build h.writesThrough list) fun _ _ => trivial
  close _ _ _ h := reads_legacyClose h

/-- A format that is found is the one of its name. -/
theorem nvramGetFormat_cases {cfg : BuildConfig} {name : CString} {format : NvramFormat}
    (h : nvramGetFormat lib crc32 cfg name = some format) :
    (name = lit "v2" ∧ format = nvramV2Format lib) ∨
      (name = lit "legacy" ∧ format = nvramLegacyFormat) ∨
      ∃ build, (name = lit "platform" ∧ cfg.formatPlatform = some build) ∧
        format = nvramPlatformFormat crc32 build := by
  obtain ⟨found, hfound, rfl⟩ := Option.map_eq_some_iff.mp h
  have hmem : found ∈ availableFormats lib crc32 cfg := List.mem_of_find?_eq_some hfound
  have hname : found.1 = name := by simpa using List.find?_some hfound
  simp only [availableFormats, List.mem_append, Option.mem_toList, Option.map_eq_some_iff] at hmem
  rcases hmem with (hmem | hmem) | ⟨build, hbuild, rfl⟩
  · split at hmem
    · obtain rfl := List.mem_singleton.mp hmem
      exact Or.inl ⟨hname.symm, rfl⟩
    · cases hmem
  · split at hmem
    · obtain rfl := List.mem_singleton.mp hmem
      exact Or.inr (Or.inl ⟨hname.symm, rfl⟩)
    · cases hmem
  · exact Or.inr (Or.inr ⟨build, ⟨hname.symm, hbuild⟩, rfl⟩)

theorem nvramGetFormat_frame {cfg : BuildConfig} {name : CString} {format : NvramFormat}
    (h : nvramGetFormat lib crc32 cfg name = some format) : Nonempty format.Frame := by
  rcases nvramGetFormat_cases lib crc32 h with ⟨_, rfl⟩ | ⟨_, rfl⟩ | ⟨build, _, rfl⟩
  · exact ⟨nvramV2Format.frame lib⟩
  · exact ⟨nvramLegacyFormat.frame⟩
  · exact ⟨nvramPlatformFormat.frame crc32 build⟩

/-- A close destroys handles and does nothing else. -/
theorem confined_close {P : Call → Prop} (hdestroy : ∀ i priv, P (.destroy i priv))
    {cfg : BuildConfig} {name : CString} {format : NvramFormat}
    (h : nvramGetFormat lib crc32 cfg name = some format) (nvram : Option format.StructNvram) :
    Confined P (fun _ => True) (format.close nvram) := by
  have hcall : ∀ (i : Interface) (priv : Option NvramPriv),
      Confined P (fun _ => True) (if priv.isSome then i.destroy priv else pure ()) := by
    intro i priv
    split
    · exact ⟨hdestroy i priv, fun _ => trivial⟩
    · trivial
  have hlegacy : ∀ nvram : Option SingleNvram, Confined P (fun _ => True) (legacyClose nvram) := by
    intro nvram
    cases nvram with
    | none => trivial
    | some nvram => exact hcall _ _
  rcases nvramGetFormat_cases lib crc32 h with ⟨_, rfl⟩ | ⟨_, rfl⟩ | ⟨build, _, rfl⟩
  · cases nvram with
    | none => trivial
    | some nvram =>
        show Confined P (fun _ => True) (v2Close (some nvram))
        unfold v2Close
        dsimp only
        split
        · exact ⟨hdestroy _ _, fun _ => hcall _ _⟩
        · exact hcall _ _
  · exact hlegacy nvram
  · exact hlegacy nvram

end

end Nvram
