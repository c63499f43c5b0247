import Nvram.Program.Frame

/-!
# The stages of an invocation

A run of `main` falls into stages, each a run of one part of the program: the arguments, the
names, the validation and the lock (`Front`); the two inits, the execution and the commit
(`Work`); the exit.  `runs_main` cuts a run into them, and says how it can end before.
-/

namespace Nvram

open Effects Errno

/-! ### Up to the lock -/

section

variable (lib : Libnvram) (crc32 : Bytes → UInt32) (cfg : BuildConfig) (env : Environ)

/-- The run of `main` up to the lock: the argument loop, the default operation, the validation
and the lock, each with success. -/
structure Front (args : List CString) (items : List Item) where
  debug : List CallEvent
  parse : List CallEvent
  opts : Opts
  addList : List CallEvent
  resolved : List CallEvent
  validate : List CallEvent
  lock : List CallEvent
  fd : Fd
  runs_debug : Runs (enableDebugOf env) debug ()
  runs_parse : Runs (parseArgs cfg env Opts.initial args) parse (.ok opts)
  runs_addList : Runs (defaultOperation opts) addList (.ok (finalOpts items))
  runs_resolved : Runs (printResolved (interfaceNameOf cfg env (finalOpts items))
    (formatNameOf cfg env (finalOpts items)) (finalOpts items).mode) resolved ()
  runs_validate : Runs (validateOperations cfg env (finalOpts items).mode
    (finalOpts items).operations) validate (.ok ())
  runs_lock : Runs (acquireLockfile NVRAM_LOCKFILE) lock (.ok fd)

end

namespace Front

variable {cfg : BuildConfig} {env : Environ} {args : List CString} {items : List Item}
  (front : Front cfg env args items)

/-- The calls before the lock. -/
def before : List CallEvent :=
  front.debug ++ front.parse ++ front.addList ++ front.resolved ++ front.validate

def events : List CallEvent := front.before ++ front.lock

theorem inner_before : ∀ ev ∈ front.before, ev.op.Inner := by
  have hparse := ((confined_parseArgs cfg env _ args).runs front.runs_parse)
  obtain ⟨items', _, hopts⟩ := hparse.2 _ rfl
  have hadd := front.runs_addList
  rw [hopts] at hadd
  intro ev hev
  simp only [before, List.mem_append] at hev
  rcases hev with (((hev | hev) | hev) | hev) | hev
  · exact ((inner_enableDebugOf env).runs front.runs_debug).1 ev hev
  · exact hparse.1 ev hev
  · exact ((confined_defaultOperation items').runs hadd).1 ev hev
  · exact ((inner_printResolved _ _ _).runs front.runs_resolved).1 ev hev
  · exact ((inner_validateOperations cfg env _ _).runs front.runs_validate).1 ev hev

include front in
theorem accepted : Accepted cfg env (lastMode items) (requested items) := by
  have hvalid := ((inner_validateOperations cfg env _ _).runs front.runs_validate).2.mp rfl
  rwa [finalOpts_mode] at hvalid

end Front

/-! ### Under the lock -/

section

variable (mode : Mode) (format : NvramFormat) (nvramSystem nvramUser : Option format.StructNvram)

/-- `execute_operations` after its loop. -/
def commitExecuted : Except Errno ExecState → NProg (Except Errno Unit)
  | .error r => return .error r
  | .ok st => do
    if st.writePerformed then
      prDbg "Commit changes\n" []
      if mode.systemWrite then
        commitList format nvramSystem st.listSystem
      else if mode.userWrite then
        commitList format nvramUser st.listUser
      else
        return .ok ()
    else
      return .ok ()

end

theorem executeOperations_eq (lib : Libnvram) (mode : Mode) (format : NvramFormat)
    (operations : List Operation) (nvramSystem : Option format.StructNvram)
    (listSystem : List Entry) (nvramUser : Option format.StructNvram) (listUser : List Entry) :
    executeOperations lib mode format operations nvramSystem listSystem nvramUser listUser =
      (executeEach lib mode operations ⟨listSystem, listUser, false⟩ >>=
        commitExecuted mode format nvramSystem nvramUser) := by
  unfold executeOperations
  refine congrArg (executeEach lib mode operations ⟨listSystem, listUser, false⟩ >>= ·)
    (funext fun r => ?_)
  cases r <;> rfl

/-- The run of the part under the lock, once both sides are loaded. -/
structure Work (lib : Libnvram) (cfg : BuildConfig) (env : Environ) (format : NvramFormat)
    (interface : Interface) (interfaceName : CString) (opts : Opts) where
  initSystem : List CallEvent
  nvramSystem : Option format.StructNvram
  listSystem : List Entry
  initUser : List CallEvent
  nvramUser : Option format.StructNvram
  listUser : List Entry
  execute : List CallEvent
  executed : Except Errno ExecState
  commit : List CallEvent
  result : Except Errno Unit
  runs_initSystem : Runs (initSide format interface (opts.mode.systemWrite || opts.mode.systemRead)
      "NVRAM_SYSTEM_A: %s\n" "NVRAM_SYSTEM_B: %s\n"
      (resolveSection cfg env interfaceName opts.systemAOverride .systemA)
      (resolveSection cfg env interfaceName opts.systemBOverride .systemB))
    initSystem (.ok (nvramSystem, listSystem))
  runs_initUser : Runs (initSide format interface (opts.mode.userWrite || opts.mode.userRead)
      "NVRAM_USER_A: %s\n" "NVRAM_USER_B: %s\n"
      (resolveSection cfg env interfaceName opts.userAOverride .userA)
      (resolveSection cfg env interfaceName opts.userBOverride .userB))
    initUser (.ok (nvramUser, listUser))
  runs_execute : Runs (executeEach lib opts.mode opts.operations ⟨listSystem, listUser, false⟩)
    execute executed
  runs_commit : Runs (commitExecuted opts.mode format nvramSystem nvramUser executed) commit result

namespace Work

variable {lib : Libnvram} {cfg : BuildConfig} {env : Environ} {format : NvramFormat}
  {interface : Interface} {interfaceName : CString} {opts : Opts}
  (work : Work lib cfg env format interface interfaceName opts)

/-- The calls before the commit. -/
def before : List CallEvent := work.initSystem ++ work.initUser ++ work.execute

def events : List CallEvent := work.before ++ work.commit

/-- What is left at the label `exit`. -/
def done : AtExit format := ⟨work.result, work.nvramSystem, work.nvramUser⟩

end Work

section

variable {lib : Libnvram} {cfg : BuildConfig} {env : Environ} {format : NvramFormat}
  {interface : Interface} {interfaceName : CString} {opts : Opts}

/-- Under the lock an init fails, or there is work. -/
theorem runs_withLock (F : format.Frame) {evs : List CallEvent} {done : AtExit format}
    (h : Runs (withLock lib cfg env format interface interfaceName opts) evs done) :
    ((∀ ev ∈ evs, ev.op.isWrite = false) ∧ ∃ e, done.r = .error e) ∨
      ∃ work : Work lib cfg env format interface interfaceName opts,
        evs = work.events ∧ done = work.done := by
  obtain ⟨evsSystem, rest, r, rfl, hsystem, hrest⟩ := runs_bind_iff.mp h
  have hreadSystem := ((reads_initSide F _ _ _).runs hsystem).1
  cases r with
  | error e =>
      obtain ⟨rfl, rfl⟩ := runs_ret_iff.mp hrest
      refine Or.inl ⟨fun ev hev => ?_, e, rfl⟩
      rw [List.append_nil] at hev
      exact (hreadSystem ev hev).2
  | ok system =>
      obtain ⟨nvramSystem, listSystem⟩ := system
      obtain ⟨evsUser, rest', r, rfl, huser, hrest'⟩ := runs_bind_iff.mp hrest
      have hreadUser := ((reads_initSide F _ _ _).runs huser).1
      cases r with
      | error e =>
          obtain ⟨rfl, rfl⟩ := runs_ret_iff.mp hrest'
          refine Or.inl ⟨fun ev hev => ?_, e, rfl⟩
          rw [List.append_nil] at hev
          rcases List.mem_append.mp hev with hev | hev
          · exact (hreadSystem ev hev).2
          · exact (hreadUser ev hev).2
      | ok user =>
          obtain ⟨nvramUser, listUser⟩ := user
          obtain ⟨evsWork, evsEnd, r, rfl, hwork, hend⟩ := runs_bind_iff.mp hrest'
          obtain ⟨rfl, rfl⟩ := runs_ret_iff.mp hend
          rw [executeOperations_eq] at hwork
          obtain ⟨evsExec, evsCommit, executed, rfl, hexecute, hcommit⟩ := runs_bind_iff.mp hwork
          refine Or.inr ⟨⟨evsSystem, nvramSystem, listSystem, evsUser, nvramUser, listUser,
            evsExec, executed, evsCommit, r, hsystem, huser, hexecute, hcommit⟩, ?_, rfl⟩
          simp only [Work.events, Work.before, List.append_nil, List.append_assoc]

end

/-! ### Every run -/

section

variable (lib : Libnvram) (crc32 : Bytes → UInt32) (cfg : BuildConfig) (env : Environ)

/-- How a run of `main` can go, with the result before it becomes the exit status: it ends
before the lock with an error, the lock is refused and it ends with 0, or it has the lock. -/
inductive Course (args : List CString) : List CallEvent → Except Errno Unit → Prop where
  | early {evs : List CallEvent} (e : Errno) : (∀ ev ∈ evs, ev.op.Inner) →
      Course args evs (.error e)
  | unlocked {before lock after : List CallEvent} {e : Errno} :
      (∀ ev ∈ before, ev.op.Inner) → Runs (acquireLockfile NVRAM_LOCKFILE) lock (.error e) →
      (∀ ev ∈ after, ev.op.Inner) → Course args (before ++ lock ++ after) (.ok ())
  | locked {items : List Item} {interface : Interface} {format : NvramFormat}
      {work after : List CallEvent} {done : AtExit format} {r : Except Errno Unit} :
      commandLine args = some items →
      nvramGetInterface cfg (interfaceNameOf cfg env (finalOpts items)) = some interface →
      nvramGetFormat lib crc32 cfg (formatNameOf cfg env (finalOpts items)) = some format →
      (front : Front cfg env args items) →
      Runs (withLock lib cfg env format interface (interfaceNameOf cfg env (finalOpts items))
        (finalOpts items)) work done →
      Runs (exitClose format (some front.fd) done) after r →
      Course args (front.events ++ work ++ after) r

variable {lib crc32 cfg env}

theorem close_none {name : CString} {format : NvramFormat}
    (h : nvramGetFormat lib crc32 cfg name = some format) : format.close none = pure () := by
  rcases nvramGetFormat_cases lib crc32 h with ⟨_, rfl⟩ | ⟨_, rfl⟩ | ⟨build, _, rfl⟩
  · rfl
  · rfl
  · rfl

/-- The exit without a lock and without handles returns what failed before. -/
theorem inner_exitClose {format : NvramFormat} (hclose : format.close none = pure ())
    (r : Except Errno Unit) :
    Confined Call.Inner (fun r' => r' = r) (exitClose format none ⟨r, none, none⟩) := by
  refine confined_seq (inner_exitRelease r) fun r' hr => ?_
  simp only [hclose]
  exact hr

theorem inner_append {evs evs' : List CallEvent} (h : ∀ ev ∈ evs, ev.op.Inner)
    (h' : ∀ ev ∈ evs', ev.op.Inner) : ∀ ev ∈ evs ++ evs', ev.op.Inner := by
  intro ev hev
  rcases List.mem_append.mp hev with hev | hev
  · exact h ev hev
  · exact h' ev hev

/-- Every run of `main` takes one of the courses. -/
theorem runs_main {args : List CString} {evs : List CallEvent} {c : ℕ}
    (h : Runs (main lib crc32 cfg env args) evs c) :
    ∃ r, c = exitStatus r ∧ Course lib crc32 cfg env args evs r := by
  -- the exits before a session
  have hrefuse : ∀ {before evs : List CallEvent} {e : Errno}, (∀ ev ∈ before, ev.op.Inner) →
      Runs (do return exitStatus (← exitRelease (.error e) none)) evs c →
      ∃ r, c = exitStatus r ∧ Course lib crc32 cfg env args (before ++ evs) r := by
    intro before evs e hbefore h
    obtain ⟨hinner, rfl⟩ := (inner_exitEarly e).runs h
    exact ⟨_, rfl, .early e (inner_append hbefore hinner)⟩
  rw [main_eq] at h
  obtain ⟨debug, evs₁, ⟨⟩, rfl, hdebug, h₁⟩ := runs_bind_iff.mp h
  obtain ⟨parse, evs₂, r, rfl, hparse, h₂⟩ := runs_bind_iff.mp h₁
  have hdebugInner := ((inner_enableDebugOf env).runs hdebug).1
  obtain ⟨hparseInner, hopts⟩ := (confined_parseArgs cfg env _ args).runs hparse
  rw [← List.append_assoc]
  cases r with
  | error e => exact hrefuse (inner_append hdebugInner hparseInner) h₂
  | ok opts =>
      obtain ⟨items, hitems, hfold⟩ := hopts opts rfl
      obtain ⟨addList, evs₃, r, rfl, haddList, h₃⟩ := runs_bind_iff.mp h₂
      have hadd : Confined Call.Inner
          (fun r => (∃ e, r = .error e) ∨ r = .ok (finalOpts items)) (defaultOperation opts) := by
        rw [hfold]
        exact confined_defaultOperation items
      obtain ⟨haddInner, hr⟩ := hadd.runs haddList
      rw [← List.append_assoc]
      have hsofar := inner_append (inner_append hdebugInner hparseInner) haddInner
      rcases hr with ⟨e, rfl⟩ | rfl
      · exact hrefuse hsofar h₃
      · obtain ⟨evs₄, evs₅, r, rfl, hresolve, hret⟩ := runs_bind_iff.mp h₃
        obtain ⟨rfl, rfl⟩ := runs_ret_iff.mp hret
        rw [List.append_nil]
        refine ⟨r, rfl, ?_⟩
        have hunresolved : ∀ {fmt : String} {fmtArgs : List Arg},
            Runs (do
              fprintfStderr fmt fmtArgs
              exitRelease (.error einval) none) evs₄ r →
            Course lib crc32 cfg env args (debug ++ parse ++ addList ++ evs₄) r := by
          intro fmt fmtArgs h
          obtain ⟨hinner, rfl⟩ := (inner_exitUnresolved fmt fmtArgs).runs h
          exact .early _ (inner_append hsofar hinner)
        unfold resolveAndRun at hresolve
        dsimp only at hresolve
        split at hresolve
        · exact hunresolved hresolve
        · rename_i interface hinterface
          split at hresolve
          · exact hunresolved hresolve
          · rename_i format hformat
            have hclose := close_none hformat
            rw [session_eq] at hresolve
            obtain ⟨resolved, evs₅, ⟨⟩, rfl, hresolved, h₅⟩ := runs_bind_iff.mp hresolve
            obtain ⟨validate, evs₆, v, rfl, hvalidate, h₆⟩ := runs_bind_iff.mp h₅
            have hbefore := inner_append (inner_append hsofar
              ((inner_printResolved _ _ _).runs hresolved).1)
              ((inner_validateOperations cfg env _ _).runs hvalidate).1
            rw [← List.append_assoc, ← List.append_assoc]
            cases v with
            | error e =>
                obtain ⟨hinner, rfl⟩ := (inner_exitClose hclose _).runs h₆
                exact .early e (inner_append hbefore hinner)
            | ok u =>
                obtain ⟨lock, evs₇, l, rfl, hlock, h₇⟩ := runs_bind_iff.mp h₆
                rw [← List.append_assoc]
                cases l with
                | error e =>
                    obtain ⟨hinner, rfl⟩ := (inner_exitClose hclose _).runs h₇
                    exact .unlocked hbefore hlock hinner
                | ok fd =>
                    obtain ⟨work, after, done, rfl, hwork, hafter⟩ := runs_bind_iff.mp h₇
                    rw [← List.append_assoc]
                    exact .locked hitems hinterface hformat ⟨debug, parse, opts, addList, resolved,
                      validate, lock, fd, hdebug, hparse, haddList, hresolved, hvalidate, hlock⟩
                      hwork hafter

end

end Nvram
