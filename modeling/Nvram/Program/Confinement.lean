import Nvram.Program.Frame
import Nvram.Machine
import Nvram.Libnvram.Plain

/-!
# Which sections a mode reaches

The mode of an invocation is that of the last `--sys` or `--user`, wherever it stands on the
command line.  It bounds what the invocation can touch: only `--sys` with the unlock writes a
system section, and then no user section is touched; the contents of the other side have no
influence; reading operations write nothing, and a batch that mixes them with writing ones
is refused and touches no section.
-/

namespace Nvram

open Effects Errno

/-- The call addresses a section in `paths`. -/
def Call.Touches (paths : CString → Prop) (o : Call) : Prop :=
  ∃ path, o.path? = some path ∧ paths path

/-- The call writes a section in `paths`. -/
def Call.Writes (paths : CString → Prop) (o : Call) : Prop :=
  o.isWrite = true ∧ o.Touches paths

section

variable (lib : Libnvram) (crc32 : Bytes → UInt32) (cfg : BuildConfig) (env : Environ)

/-! ### The calls of `main` -/

/-- A call that addresses no section, or one in the footprint of an accepted batch. -/
def Bounded (interface : Interface) (interfaceName : CString) (opts : Opts) (o : Call) : Prop :=
  (o.path? = none ∧ o.isWrite = false ∧ ∀ j, o.interface? = some j → j = interface) ∨
    (Accepted cfg env opts.mode opts.operations ∧
      (footprint cfg env interfaceName opts interface).Admits o)

section

variable {cfg env} {interface : Interface} {interfaceName : CString} {opts : Opts} {o : Call}

theorem Call.Inner.bounded (h : o.Inner) : Bounded cfg env interface interfaceName opts o :=
  Or.inl ⟨h.2.1, h.2.2.2.2, by simp [h.1]⟩

theorem Call.bounded_of_isLock (h : o.isLock = true) :
    Bounded cfg env interface interfaceName opts o := by
  cases o <;> first | exact Or.inl ⟨rfl, rfl, by simp [Call.interface?]⟩ | cases h

theorem Call.Reads.bounded (h : o.Reads interface fun _ => False) :
    Bounded cfg env interface interfaceName opts o :=
  Or.inl ⟨Option.eq_none_iff_forall_ne_some.mpr fun p hp => h.1.2.1 p hp, h.2, h.1.1⟩

end

theorem bounded_acquireLockfile (interface : Interface) (interfaceName : CString) (opts : Opts) :
    Confined (Bounded cfg env interface interfaceName opts) (fun _ => True)
      (acquireLockfile NVRAM_LOCKFILE) := by
  rw [acquireLockfile, openLock_bind]
  refine ⟨Call.bounded_of_isLock rfl, fun r => ?_⟩
  cases r with
  | error e => exact ⟨(Call.inner_fprintfStderr _ _).bounded, fun _ => trivial⟩
  | ok fd =>
      exact confined_acquireRetry (fun _ h => h.bounded) (Call.bounded_of_isLock rfl)
        (Call.bounded_of_isLock rfl) _ _

theorem bounded_session {format : NvramFormat} (F : format.Frame) (interface : Interface)
    (interfaceName formatName : CString) (opts : Opts) :
    Confined (Bounded cfg env interface interfaceName opts)
      (fun r => r = .ok () → Accepted cfg env opts.mode opts.operations)
      (session lib cfg env format interface interfaceName formatName opts) := by
  have hnone : ∀ r : Except Errno Unit, (r = .ok () → Accepted cfg env opts.mode opts.operations) →
      Confined (Bounded cfg env interface interfaceName opts)
        (fun r' => r' = .ok () → Accepted cfg env opts.mode opts.operations)
        (exitClose format none ⟨r, none, none⟩) := by
    intro r hr
    have hhandles : ∀ n ∈ (none : Option format.StructNvram), F.On interface (fun _ => False) n :=
      fun _ h => by cases h
    exact (confined_exitClose F ⟨r, none, none⟩ (fun _ h => h.bounded)
      (fun _ => Call.bounded_of_isLock rfl) (fun _ => Call.bounded_of_isLock rfl)
      (fun _ h => h.bounded) (fun _ h => h.bounded) hhandles hhandles none).mono
      (fun _ h => h) fun _ h hok => hr (h.1 hok)
  unfold session
  iterate 6
    rw [prDbg_bind]
    refine ⟨(Call.inner_printDebug _ _).bounded, fun _ => ?_⟩
  refine confined_seq ((inner_validateOperations cfg env opts.mode opts.operations).mono
    (fun _ h => h.bounded) fun _ h => h) fun r hr => ?_
  cases r with
  | error e => exact hnone _ fun h => by cases h
  | ok u =>
      have haccepted := hr.mp rfl
      have hadmits : ∀ o, (footprint cfg env interfaceName opts interface).Admits o →
          Bounded cfg env interface interfaceName opts o := fun o h => Or.inr ⟨haccepted, h⟩
      refine confined_seq (bounded_acquireLockfile cfg env interface interfaceName opts)
        fun r _ => ?_
      cases r with
      | error e => exact hnone _ fun _ => haccepted
      | ok fd =>
          refine confined_seq ((admits_withLock lib cfg env interfaceName opts interface F).mono
            hadmits fun _ h => h) fun done hdone => ?_
          exact (confined_exitClose F done (fun _ h => h.bounded)
            (fun _ => Call.bounded_of_isLock rfl) (fun _ => Call.bounded_of_isLock rfl)
            (fun _ h => hadmits _ (Footprint.admits_reads h fun _ hp => Or.inl hp))
            (fun _ h => hadmits _ (Footprint.admits_reads h fun _ hp => Or.inr hp))
            hdone.1 hdone.2 (some fd)).mono (fun _ h => h) fun _ _ _ => haccepted

theorem bounded_resolveAndRun {opts : Opts} {P : Call → Prop} (hinner : ∀ o, Call.Inner o → P o)
    (hbounded : ∀ interface, nvramGetInterface cfg (interfaceNameOf cfg env opts) = some interface →
      ∀ o, Bounded cfg env interface (interfaceNameOf cfg env opts) opts o → P o) :
    Confined P (fun r => r = .ok () → Accepted cfg env opts.mode opts.operations)
      (resolveAndRun lib crc32 cfg env opts) := by
  have hrefused : ∀ (fmt : String) (args : List Arg),
      Confined P (fun r => r = .ok () → Accepted cfg env opts.mode opts.operations) (do
        fprintfStderr fmt args
        exitRelease (.error einval) none) := by
    intro fmt args
    refine (inner_exitUnresolved fmt args).mono hinner fun r hr hok => ?_
    cases hr.symm.trans hok
  unfold resolveAndRun
  dsimp only
  split
  · exact hrefused _ _
  · rename_i interface hinterface
    split
    · exact hrefused _ _
    · rename_i format hformat
      obtain ⟨F⟩ := nvramGetFormat_frame lib crc32 hformat
      exact (bounded_session lib cfg env F interface (interfaceNameOf cfg env opts) _ opts).mono
        (hbounded interface hinterface) fun _ h => h

/-- The calls of `main`: those of the argument loop and, where the arguments split into
items, those of a session on the options they select.  It returns 0 only for a batch that is
accepted. -/
theorem confined_main {args : List CString} {P : Call → Prop} (hinner : ∀ o, Call.Inner o → P o)
    (hbounded : ∀ items, commandLine args = some items → ∀ interface,
      nvramGetInterface cfg (interfaceNameOf cfg env (finalOpts items)) = some interface → ∀ o,
        Bounded cfg env interface (interfaceNameOf cfg env (finalOpts items)) (finalOpts items) o →
          P o) :
    Confined P (fun c => c = 0 → ∃ items, commandLine args = some items ∧
      Accepted cfg env (lastMode items) (requested items)) (main lib crc32 cfg env args) := by
  have hstatus : ∀ (e : Errno), Confined P (fun c => c = 0 → ∃ items,
      commandLine args = some items ∧ Accepted cfg env (lastMode items) (requested items))
      (do return exitStatus (← exitRelease (.error e) none)) := by
    intro e
    refine (inner_exitEarly e).mono hinner fun c hc hzero => ?_
    cases exitStatus_eq_zero_iff.mp (hc.symm.trans hzero)
  rw [main_eq]
  refine confined_seq ((inner_enableDebugOf env).mono hinner fun _ h => h) fun _ _ => ?_
  refine confined_seq ((confined_parseArgs cfg env _ args).mono hinner fun _ h => h)
    fun r hr => ?_
  cases r with
  | error e => exact hstatus e
  | ok opts =>
      obtain ⟨items, hitems, rfl⟩ := hr opts rfl
      refine confined_seq ((confined_defaultOperation items).mono hinner fun _ h => h)
        fun r hr => ?_
      rcases hr with ⟨e, rfl⟩ | rfl
      · exact hstatus e
      · refine confined_seq (bounded_resolveAndRun lib crc32 cfg env hinner
          (hbounded items hitems)) fun r hr => fun hzero => ⟨items, hitems, ?_⟩
        simpa using hr (exitStatus_eq_zero_iff.mp hzero)

end

/-! ### The modes -/

section

variable (lib : Libnvram) (crc32 : Bytes → UInt32) (cfg : BuildConfig) (env : Environ)
  (items : List Item)

/-- The system sections of a command line, after overrides and environment. -/
def SystemOf : CString → Prop :=
  SystemSection cfg env (interfaceNameOf cfg env (finalOpts items)) (finalOpts items)

/-- The user sections of a command line. -/
def UserOf : CString → Prop :=
  UserSection cfg env (interfaceNameOf cfg env (finalOpts items)) (finalOpts items)

/-- A call of the selected interface, or of none, that addresses no section in `paths`. -/
def Beside (paths : CString → Prop) (o : Call) : Prop :=
  ¬ o.Touches paths ∧ ∀ j, o.interface? = some j →
    nvramGetInterface cfg (interfaceNameOf cfg env (finalOpts items)) = some j

/-- What the mode of a command line that splits into `items` keeps the invocation from. -/
structure ModeConfined (args : List CString) : Prop where
  /-- A system section is written only under `--sys` with the unlock, and then no user section
  is touched. -/
  systemWrite : ∀ evs c, Runs (main lib crc32 cfg env args) evs c →
    (∃ ev ∈ evs, ev.op.Writes (SystemOf cfg env items)) →
      lastFlag items = some .sys ∧ systemUnlocked env = true ∧
        ∀ ev ∈ evs, ¬ ev.op.Touches (UserOf cfg env items)
  /-- Under `--user` the calls, their answers and the status do not depend on what only system
  sections tell. -/
  systemUnseen : lastFlag items = some .user → ∀ {σ : Type} (h : Handler callSig σ) (s t : σ),
    Indistinguishable h (Beside cfg env items (SystemOf cfg env items)) s t →
      (run h (main lib crc32 cfg env args) s).1 = (run h (main lib crc32 cfg env args) t).1 ∧
        trace h (main lib crc32 cfg env args) s = trace h (main lib crc32 cfg env args) t
  /-- Under `--sys` they do not depend on what only user sections tell. -/
  userUnseen : lastFlag items = some .sys → ∀ {σ : Type} (h : Handler callSig σ) (s t : σ),
    Indistinguishable h (Beside cfg env items (UserOf cfg env items)) s t →
      (run h (main lib crc32 cfg env args) s).1 = (run h (main lib crc32 cfg env args) t).1 ∧
        trace h (main lib crc32 cfg env args) s = trace h (main lib crc32 cfg env args) t
  /-- Without a mode flag no system section is written. -/
  noFlag : lastFlag items = none → ∀ evs c, Runs (main lib crc32 cfg env args) evs c →
    ∀ ev ∈ evs, ¬ ev.op.Writes (SystemOf cfg env items)
  /-- Operations that only show write nothing. -/
  showOnly : (∀ it ∈ requested items, it.Shows) → ∀ evs c,
    Runs (main lib crc32 cfg env args) evs c → ∀ ev ∈ evs, ev.op.isWrite = false
  /-- A mixed batch is refused, and touches no section. -/
  mixed : (∃ it ∈ requested items, it.Shows) → (∃ it ∈ requested items, it.Changes) → ∀ evs c,
    Runs (main lib crc32 cfg env args) evs c → c ≠ 0 ∧ ∀ ev ∈ evs, ev.op.path? = none

end

/-- A call of an invocation under the mode that the flags select. -/
def CallOf (cfg : BuildConfig) (env : Environ) (items : List Item) (o : Call) : Prop :=
  (∀ j, o.interface? = some j →
      nvramGetInterface cfg (interfaceNameOf cfg env (finalOpts items)) = some j) ∧
    ((o.path? = none ∧ o.isWrite = false) ∨
      ∃ interface, Accepted cfg env (lastMode items) (requested items) ∧
        (footprint cfg env (interfaceNameOf cfg env (finalOpts items)) (finalOpts items)
          interface).Admits o)

section

variable {lib : Libnvram} {crc32 : Bytes → UInt32} {cfg : BuildConfig} {env : Environ}
  {args : List CString} {items : List Item}

theorem confined_main_callOf (hitems : commandLine args = some items) :
    Confined (CallOf cfg env items)
      (fun c => c = 0 → Accepted cfg env (lastMode items) (requested items))
      (main lib crc32 cfg env args) := by
  refine (confined_main lib crc32 cfg env (P := CallOf cfg env items) (fun o h => ?_)
    fun items' hitems' interface hi o h => ?_).mono (fun _ h => h) fun c hc hzero => ?_
  · exact ⟨by simp [h.1], Or.inl ⟨h.2.1, h.2.2.2.2⟩⟩
  · obtain rfl : items = items' := Option.some.inj (hitems.symm.trans hitems')
    rcases h with ⟨hpath, hwrite, hj⟩ | ⟨haccepted, hadmits⟩
    · exact ⟨fun j hoj => hj j hoj ▸ hi, Or.inl ⟨hpath, hwrite⟩⟩
    · refine ⟨fun j hoj => ?_, Or.inr ⟨interface, ?_, hadmits⟩⟩
      · rw [hadmits.1 j hoj]
        exact hi
      · simpa using haccepted
  · obtain ⟨items', hitems', haccepted⟩ := hc hzero
    obtain rfl := Option.some.inj (hitems.symm.trans hitems')
    exact haccepted

/-- An invocation calls the interface it resolves to. -/
theorem confined_main_interface {i : Interface}
    (hinterface : ∀ items j, commandLine args = some items →
      nvramGetInterface cfg (interfaceNameOf cfg env (finalOpts items)) = some j → j = i) :
    Confined (fun o : Call => ∀ j, o.interface? = some j → j = i) (fun _ => True)
      (main lib crc32 cfg env args) := by
  refine (confined_main lib crc32 cfg env (fun o h => by simp [h.1])
    fun items hitems j hj o h => ?_).mono (fun _ h => h) fun _ _ => trivial
  obtain rfl := hinterface items j hitems hj
  rcases h with ⟨-, -, hon⟩ | ⟨-, hadmits⟩
  · exact hon
  · exact hadmits.1

/-- Only a side that the mode names is touched. -/
theorem CallOf.touches {o : Call} (h : CallOf cfg env items o) {path : CString}
    (hpath : o.path? = some path) :
    Accepted cfg env (lastMode items) (requested items) ∧
      ((((lastMode items).systemWrite || (lastMode items).systemRead) = true ∧
          SystemOf cfg env items path) ∨
        (((lastMode items).userWrite || (lastMode items).userRead) = true ∧
          UserOf cfg env items path)) := by
  rcases h.2 with ⟨hnone, _⟩ | ⟨interface, haccepted, hadmits⟩
  · rw [hnone] at hpath
    cases hpath
  · have hread := hadmits.2.1 path hpath
    simp only [footprint, SystemReach, UserReach, finalOpts_mode] at hread
    exact ⟨haccepted, hread⟩

/-- Only the side that the mode may write is written, for an operation that changes it. -/
theorem CallOf.writes {o : Call} (h : CallOf cfg env items o) (hwrite : o.isWrite = true) :
    Accepted cfg env (lastMode items) (requested items) ∧
      (∃ it ∈ requested items, it.Changes) ∧ ∀ path, o.path? = some path →
        ((lastMode items).systemWrite = true ∧ SystemOf cfg env items path) ∨
          ((lastMode items).systemWrite = false ∧ UserOf cfg env items path) := by
  rcases h.2 with ⟨_, hread⟩ | ⟨interface, haccepted, hadmits⟩
  · rw [hread] at hwrite
    cases hwrite
  · obtain ⟨hchanges, hpaths⟩ := hadmits.2.2.1 hwrite
    refine ⟨haccepted, hchanges, fun path hpath => ?_⟩
    have hwritable := hpaths path hpath
    simp only [footprint, SystemReach, UserReach, finalOpts_mode] at hwritable
    rcases hwritable with ⟨hsw, _, hsystem⟩ | ⟨hsw, _, _, huser⟩
    · exact Or.inl ⟨hsw, hsystem⟩
    · exact Or.inr ⟨hsw, huser⟩

theorem lastMode_of_lastFlag {flag : ModeFlag} (h : lastFlag items = some flag) :
    lastMode items = flag.mode := by
  rw [lastMode, h]
  rfl

theorem lastFlag_of_systemWrite (h : (lastMode items).systemWrite = true) :
    lastFlag items = some .sys := by
  unfold lastMode at h
  cases hf : lastFlag items with
  | none =>
      rw [hf] at h
      cases h
  | some flag =>
      rw [hf] at h
      cases flag with
      | sys => rfl
      | user => cases h

/-- A set or a delete of a batch accepted under `--sys` needs the unlock. -/
theorem Accepted.unlocked {mode : Mode} {operations : List Operation}
    (h : Accepted cfg env mode operations) (hsw : mode.systemWrite = true)
    (hchanges : ∃ it ∈ operations, it.Changes) : systemUnlocked env = true := by
  obtain ⟨it, hit, hchange⟩ := hchanges
  have hpermitted := h.permitted it hit
  cases it with
  | list => cases hchange
  | get key => cases hchange
  | set key value => exact (hpermitted.1 hsw).2
  | del key => exact hpermitted hsw

/-- For every command line on distinct sections: one that does not split into items touches no
section, and the others are confined by their last mode flag. -/
theorem main_modeConfined (lib : Libnvram) (crc32 : Bytes → UInt32) (cfg : BuildConfig)
    (env : Environ) (args : List CString)
    (hdistinct : ∀ items, commandLine args = some items →
      ∀ path, SystemOf cfg env items path → ¬ UserOf cfg env items path) :
    (commandLine args = none → ∀ evs c, Runs (main lib crc32 cfg env args) evs c →
        ∀ ev ∈ evs, ev.op.path? = none) ∧
      ∀ items, commandLine args = some items → ModeConfined lib crc32 cfg env items args := by
  refine ⟨fun hnone evs c h => ?_, fun items hitems => ?_⟩
  · refine ((confined_main lib crc32 cfg env (P := fun o => o.path? = none) (fun o h => h.2.1)
      fun items hitems => ?_).runs h).1
    rw [hnone] at hitems
    cases hitems
  have hcalls : Confined (CallOf cfg env items)
      (fun c => c = 0 → Accepted cfg env (lastMode items) (requested items))
      (main lib crc32 cfg env args) := confined_main_callOf hitems
  have hunseen : ∀ {paths : CString → Prop} {σ : Type} (h : Handler callSig σ) (s t : σ),
      (∀ o, CallOf cfg env items o → ¬ o.Touches paths) →
      Indistinguishable h (Beside cfg env items paths) s t →
      (run h (main lib crc32 cfg env args) s).1 = (run h (main lib crc32 cfg env args) t).1 ∧
        trace h (main lib crc32 cfg env args) s = trace h (main lib crc32 cfg env args) t := by
    intro paths σ h s t hbeside hst
    exact run_indistinguishable (hcalls.mono (fun o ho => ⟨hbeside o ho, ho.1⟩) fun _ h => h) hst
  constructor
  · rintro evs c h ⟨ev, hev, hwrite, path, hpath, hsystem⟩
    have hops := (hcalls.runs h).1
    obtain ⟨haccepted, hchanges, hside⟩ := (hops ev hev).writes hwrite
    rcases hside path hpath with ⟨hsw, _⟩ | ⟨_, huser⟩
    · have hflag := lastFlag_of_systemWrite hsw
      refine ⟨hflag, haccepted.unlocked hsw hchanges, ?_⟩
      rintro ev' hev' ⟨path', hpath', huser⟩
      rcases ((hops ev' hev').touches hpath').2 with ⟨_, hsystem'⟩ | ⟨hmode, _⟩
      · exact hdistinct items hitems path' hsystem' huser
      · rw [lastMode_of_lastFlag hflag] at hmode
        cases hmode
    · exact absurd huser (hdistinct items hitems path hsystem)
  · intro hflag σ h s t
    refine hunseen h s t ?_
    rintro o ho ⟨path, hpath, hsystem⟩
    rcases (ho.touches hpath).2 with ⟨hmode, _⟩ | ⟨_, huser⟩
    · rw [lastMode_of_lastFlag hflag] at hmode
      cases hmode
    · exact hdistinct items hitems path hsystem huser
  · intro hflag σ h s t
    refine hunseen h s t ?_
    rintro o ho ⟨path, hpath, huser⟩
    rcases (ho.touches hpath).2 with ⟨_, hsystem⟩ | ⟨hmode, _⟩
    · exact hdistinct items hitems path hsystem huser
    · rw [lastMode_of_lastFlag hflag] at hmode
      cases hmode
  · rintro hflag evs c h ev hev ⟨hwrite, path, hpath, hsystem⟩
    rcases ((((hcalls.runs h).1 ev hev).writes hwrite).2.2 path hpath) with
      ⟨hsw, _⟩ | ⟨_, huser⟩
    · rw [lastFlag_of_systemWrite hsw] at hflag
      cases hflag
    · exact hdistinct items hitems path hsystem huser
  · intro hshows evs c h ev hev
    by_contra hwrite
    obtain ⟨_, ⟨it, hit, hchange⟩, _⟩ := ((hcalls.runs h).1 ev hev).writes (by simpa using hwrite)
    have hshow := hshows it hit
    cases it <;> first | exact hshow | exact hchange
  · intro hshows hchanges evs c h
    have hruns := hcalls.runs h
    refine ⟨fun hzero => (hruns.2 hzero).unmixed ⟨hshows, hchanges⟩, fun ev hev => ?_⟩
    cases hpath : ev.op.path? with
    | none => rfl
    | some path =>
        have haccepted := ((hruns.1 ev hev).touches hpath).1
        exact absurd ⟨hshows, hchanges⟩ haccepted.unmixed

end

/-! ### On regular files -/

/-- Two machines that differ in the files at `paths` and in what was printed before. -/
structure FilesAgreeOff (paths : CString → Prop) (m m' : Machine FileSystem) : Prop where
  files : ∀ path, ¬ paths path → m.sys.files path = m'.sys.files path
  fds : m.sys.fds = m'.sys.fds
  nextFd : m.sys.nextFd = m'.sys.nextFd
  nextAddr : m.sys.nextAddr = m'.sys.nextAddr

/-- Calls on other files do not tell such machines apart. -/
theorem fileMachine_indistinguishable (lib : Libnvram) (gpio : Option CString)
    (fill : (n : ℕ) → {buf : Bytes // buf.length = n}) {paths : CString → Prop}
    {m m' : Machine FileSystem} (h : FilesAgreeOff paths m m') :
    Indistinguishable (fileMachine lib gpio fill)
      (fun o => ¬ o.Touches paths ∧ ∀ j, o.interface? = some j → j = .file) m m' := by
  refine indistinguishable_of_related (R := FilesAgreeOff paths) ?_ h
  rintro o m m' ⟨hoff, hj⟩ h
  have hpath : ∀ path, o.path? = some path → m.sys.files path = m'.sys.files path :=
    fun path hp => h.files path fun hin => hoff ⟨path, hp, hin⟩
  cases o with
  | init j path =>
      obtain rfl := hj j rfl
      have hinit : ∀ m : Machine FileSystem, fileMachine lib gpio fill (.init .file path) m =
          (.ok ⟨m.sys.nextAddr, none, none⟩,
            { m with sys := { m.sys with nextAddr := m.sys.nextAddr + 1 } }) := fun _ => rfl
      rw [hinit, hinit, h.nextAddr]
      exact ⟨rfl, h.files, h.fds, h.nextFd, rfl⟩
  | size j priv =>
      obtain rfl := hj j rfl
      cases priv with
      | none => exact ⟨rfl, h⟩
      | some priv =>
          have hsize : ∀ m : Machine FileSystem,
              fileMachine lib gpio fill (.size .file (some priv)) m =
                (.ok (m.sys.content priv.path).length, m) := fun m => by
            show (((run fileSystem (fileSize priv.path) m.sys).1,
              { m with sys := (run fileSystem (fileSize priv.path) m.sys).2 }) :
                Except Errno ℕ × Machine FileSystem) = _
            rw [run_fileSize]
          rw [hsize, hsize, FileSystem.content, FileSystem.content, hpath priv.path rfl]
          exact ⟨rfl, h⟩
  | read j priv n =>
      obtain rfl := hj j rfl
      cases priv with
      | none => exact ⟨rfl, h⟩
      | some priv =>
          have hread : ∀ m : Machine FileSystem,
              fileMachine lib gpio fill (.read .file (some priv) n) m =
                ((run fileSystem (fileRead priv.path n) m.sys).1,
                  { m with sys := (run fileSystem (fileRead priv.path n) m.sys).2 }) :=
            fun _ => rfl
          rw [hread, hread, run_fileRead, run_fileRead, hpath priv.path rfl]
          cases m'.sys.files priv.path with
          | none => exact ⟨rfl, h⟩
          | some bytes =>
              refine ⟨rfl, h.files, ?_, congrArg (· + 1) h.nextFd, h.nextAddr⟩
              show Function.update m.sys.fds m.sys.nextFd none = _
              rw [h.fds, h.nextFd]
  | write j priv buf =>
      obtain rfl := hj j rfl
      cases priv with
      | none => exact ⟨rfl, h⟩
      | some priv =>
          have hwrite : ∀ m : Machine FileSystem,
              fileMachine lib gpio fill (.write .file (some priv) buf) m =
                ((run fileSystem (fileWrite priv.path buf) m.sys).1,
                  { m with sys := (run fileSystem (fileWrite priv.path buf) m.sys).2 }) :=
            fun _ => rfl
          rw [hwrite, hwrite, run_fileWrite, run_fileWrite]
          refine ⟨rfl, fun path hp => ?_, ?_, congrArg (· + 1) h.nextFd, h.nextAddr⟩
          · show Function.update m.sys.files priv.path (some buf) path = _
            by_cases heq : path = priv.path
            · subst heq
              simp
            · rw [Function.update_of_ne heq]
              simpa [Function.update_of_ne heq] using h.files path hp
          · show Function.update m.sys.fds m.sys.nextFd none = _
            rw [h.fds, h.nextFd]
  | print text => exact ⟨rfl, h.files, h.fds, h.nextFd, h.nextAddr⟩
  | _ => exact ⟨rfl, h⟩

/-- A machine with one file. -/
def oneFile (path : CString) (bytes : Bytes) : Machine FileSystem :=
  ⟨⟨Function.update (fun _ => none) path (some bytes), fun _ => none, 3, 0⟩, []⟩

/-- `--user` shows the same whatever the file of the system side holds. -/
theorem main_modeConfined_sample :
    trace (fileMachine plainLibnvram none zeros) (main plainLibnvram zlibCrc32 sampleConfig
        (fun _ => none) [lit "--user", lit "list"]) (oneFile (lit "sa") [1]) =
      trace (fileMachine plainLibnvram none zeros) (main plainLibnvram zlibCrc32 sampleConfig
        (fun _ => none) [lit "--user", lit "list"]) (oneFile (lit "sa") [2, 3]) := by
  have hitems : commandLine [lit "--user", lit "list"] = some [.flag .user, .operation .list] := by
    rfl
  have hdistinct : ∀ items, commandLine [lit "--user", lit "list"] = some items →
      ∀ path, SystemOf sampleConfig (fun _ => none) items path →
        ¬ UserOf sampleConfig (fun _ => none) items path := by
    intro items h path hsystem huser
    obtain rfl := Option.some.inj (hitems.symm.trans h)
    have hsystem' : some path = some (lit "sa") ∨ some path = some (lit "sb") := by
      rcases hsystem with h | h <;> rw [Option.mem_def.mp h.symm] <;> decide
    rcases huser with h | h <;> rw [← Option.mem_def.mp h] at hsystem' <;>
      exact absurd hsystem' (by decide)
  have hagree : FilesAgreeOff (SystemOf sampleConfig (fun _ => none)
      [.flag .user, .operation .list]) (oneFile (lit "sa") [1]) (oneFile (lit "sa") [2, 3]) := by
    refine ⟨fun path hpath => ?_, rfl, rfl, rfl⟩
    have hne : path ≠ lit "sa" := by
      rintro rfl
      exact hpath (Or.inl (by decide))
    show Function.update (fun _ => none) (lit "sa") (some [1]) path =
      Function.update (fun _ => none) (lit "sa") (some [2, 3]) path
    rw [Function.update_of_ne hne, Function.update_of_ne hne]
  have hconfined := (main_modeConfined plainLibnvram zlibCrc32 sampleConfig (fun _ => none)
    [lit "--user", lit "list"] hdistinct).2 _ hitems
  have hfile : nvramGetInterface sampleConfig (interfaceNameOf sampleConfig (fun _ => none)
      (finalOpts [.flag .user, .operation .list])) = some .file := by decide
  refine (hconfined.systemUnseen rfl _ _ _ ?_).2
  refine (fileMachine_indistinguishable plainLibnvram none zeros hagree).mono fun o ho => ?_
  refine ⟨ho.1, fun j hj => ?_⟩
  exact Option.some.inj ((ho.2 j hj).symm.trans hfile)

end Nvram
