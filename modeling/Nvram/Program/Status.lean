import Nvram.Program.Stages
import Nvram.V2.Commit

/-!
# What exit status 0 means

A run of `main` is determined by the answers to its calls.  It is refused before the lock with
a status that is not 0, or the lock is refused, or the lock is taken; then status 0 means that
the operations were executed in the order of the command line and that a change was
committed.  When the lock is refused `main` leaves with its result variable still 0.
-/

namespace Nvram

open Effects Errno

/-! ### Answers about the lock -/

/-- The calls of `acquire_lockfile` on the lock. -/
def Call.takesLock : Call → Bool
  | openLock _ => true
  | flock _ => true
  | _ => false

/-- A `flock` that found the lock held. -/
def isBusy : CallEvent → Bool
  | ⟨.flock _, .error e⟩ => e = ewouldblock
  | _ => false

/-- The lockfile was not opened, or an attempt failed for another reason than the lock being
held, or the lock was held at every attempt. -/
def LockRefused (evs : List CallEvent) : Prop :=
  (∃ path e, (⟨.openLock path, .error e⟩ : CallEvent) ∈ evs) ∨
    (∃ fd e, (⟨.flock fd, .error e⟩ : CallEvent) ∈ evs ∧ e ≠ ewouldblock) ∨
    allowedRetries ≤ (evs.filter isBusy).length

/-- The lockfile was opened and locked. -/
def LockTaken (evs : List CallEvent) : Prop :=
  ∃ fd, (⟨.openLock NVRAM_LOCKFILE, .ok fd⟩ : CallEvent) ∈ evs ∧
    (⟨.flock fd, .ok ()⟩ : CallEvent) ∈ evs

theorem isBusy_takesLock {ev : CallEvent} (h : isBusy ev = true) : ev.op.takesLock = true := by
  obtain ⟨o, r⟩ := ev
  cases o <;> first | rfl | cases h

/-- Nothing about the lock is asked. -/
def Lockless (evs : List CallEvent) : Prop := ∀ ev ∈ evs, ev.op.takesLock = false

namespace Lockless

variable {evs evs' : List CallEvent}

theorem filter_isBusy (h : Lockless evs) : evs.filter isBusy = [] := by
  rw [List.filter_eq_nil_iff]
  intro ev hev hb
  have htakes := isBusy_takesLock hb
  rw [h ev hev] at htakes
  cases htakes

theorem no_open (h : Lockless evs) (path : CString) (r : Except Errno Fd) :
    (⟨.openLock path, r⟩ : CallEvent) ∉ evs := fun hev => by cases h _ hev

theorem no_flock (h : Lockless evs) (fd : Fd) (r : Except Errno Unit) :
    (⟨.flock fd, r⟩ : CallEvent) ∉ evs := fun hev => by cases h _ hev

theorem refused_append (h : Lockless evs') : LockRefused (evs ++ evs') ↔ LockRefused evs := by
  simp [LockRefused, h.filter_isBusy, h.no_open, h.no_flock]

theorem refused_prepend (h : Lockless evs) : LockRefused (evs ++ evs') ↔ LockRefused evs' := by
  simp [LockRefused, h.filter_isBusy, h.no_open, h.no_flock]

theorem not_refused (h : Lockless evs) : ¬ LockRefused evs := by
  simp [LockRefused, h.filter_isBusy, h.no_open, h.no_flock, allowedRetries]

theorem of_confined {α : Type} {Q : α → Prop} {p : NProg α} {a : α}
    (hp : Confined (fun o : Call => o.takesLock = false) Q p) (h : Runs p evs a) :
    Lockless evs ∧ Q a := hp.runs h

end Lockless

/-! ### The lock -/

/-- A run of the loop ends with the lock, or with an answer that refuses it. -/
theorem runs_acquireRetry {path : CString} {fd : Fd} {retries : ℕ} {evs : List CallEvent}
    {r : Except Errno Fd} (h : Runs (acquireRetry path fd (retries + 1)) evs r) :
    (r = .ok fd ∧ (⟨.flock fd, .ok ()⟩ : CallEvent) ∈ evs ∧
        (∀ fd' e, (⟨.flock fd', .error e⟩ : CallEvent) ∈ evs → e = ewouldblock) ∧
        (evs.filter isBusy).length ≤ retries) ∨
      ((∃ e, r = .error e) ∧ (∀ fd', (⟨.flock fd', .ok ()⟩ : CallEvent) ∉ evs) ∧
        ((∃ fd' e, (⟨.flock fd', .error e⟩ : CallEvent) ∈ evs ∧ e ≠ ewouldblock) ∨
          (evs.filter isBusy).length = retries + 1)) := by
  -- the descriptor is closed after a message
  have hfail : ∀ (e e' : Errno), Confined (fun o : Call => o.takesLock = false)
      (fun r => r = .error e') (do
        prErr "failed locking lockfile: %s [%d]: %s\n"
          [.str path, .num e.code, .strerror e']
        let _ ← close fd
        return (.error e' : Except Errno Fd)) :=
    fun e e' => ⟨rfl, fun _ => ⟨rfl, fun _ => rfl⟩⟩
  have hlocked : Confined (fun o : Call => o.takesLock = false)
      (fun r => r = .ok fd) (do
        prDbg "%s: locked\n" [.str path]
        return (.ok fd : Except Errno Fd)) := ⟨rfl, fun _ => rfl⟩
  induction retries generalizing evs with
  | zero =>
      rw [acquireRetry, flock_bind] at h
      obtain ⟨a, rest, rfl, hrun⟩ := runs_op_iff.mp h
      cases a with
      | ok u =>
          obtain ⟨hrest, rfl⟩ := Lockless.of_confined hlocked hrun
          left
          simp [isBusy, hrest.filter_isBusy, hrest.no_flock]
      | error e =>
          right
          dsimp only at hrun
          split at hrun
          · rename_i hne
            obtain ⟨hrest, rfl⟩ := Lockless.of_confined (hfail e e) hrun
            simp [isBusy, hrest.filter_isBusy, hrest.no_flock, hne]
          · rename_i heq
            rw [if_pos rfl] at hrun
            obtain ⟨hrest, rfl⟩ := Lockless.of_confined (hfail e etimedout) hrun
            simp [isBusy, hrest.filter_isBusy, hrest.no_flock, not_not.mp heq]
  | succ n ih =>
      rw [acquireRetry, flock_bind] at h
      obtain ⟨a, rest, rfl, hrun⟩ := runs_op_iff.mp h
      cases a with
      | ok u =>
          obtain ⟨hrest, rfl⟩ := Lockless.of_confined hlocked hrun
          left
          simp [isBusy, hrest.filter_isBusy, hrest.no_flock]
      | error e =>
          dsimp only at hrun
          split at hrun
          · rename_i hne
            right
            obtain ⟨hrest, rfl⟩ := Lockless.of_confined (hfail e e) hrun
            simp [isBusy, hrest.filter_isBusy, hrest.no_flock, hne]
          · rename_i heq
            rw [if_neg (Nat.succ_ne_zero n), usleep_bind] at hrun
            obtain ⟨_, rest, rfl, hrest⟩ := runs_op_iff.mp hrun
            obtain rfl := not_not.mp heq
            rcases ih hrest with ⟨rfl, hok, hsoft, hbusy⟩ | ⟨herror, hno, hwhy⟩
            · left
              refine ⟨rfl, by simp [hok], fun fd' e' hev => ?_, ?_⟩
              · simp only [List.mem_cons, Event.mk.injEq, reduceCtorEq, false_and,
                  false_or] at hev
                rcases hev with ⟨hfd, he⟩ | hev
                · cases hfd
                  simpa using he
                · exact hsoft fd' e' hev
              · simp only [List.filter_cons, isBusy, decide_true, if_true, List.length_cons]
                simpa using hbusy
            · right
              refine ⟨herror, fun fd' hev => ?_, ?_⟩
              · simp only [List.mem_cons, Event.mk.injEq, reduceCtorEq, false_and,
                  false_or] at hev
                rcases hev with ⟨hfd, he⟩ | hev
                · cases hfd
                  simp at he
                · exact hno fd' hev
              · rcases hwhy with ⟨fd', e', hev, hne⟩ | hbusy
                · exact Or.inl ⟨fd', e', by simp [hev], hne⟩
                · right
                  simp only [List.filter_cons, isBusy, decide_true, if_true, List.length_cons]
                  simpa using hbusy

theorem runs_acquireLockfile {evs : List CallEvent} {r : Except Errno Fd}
    (h : Runs (acquireLockfile NVRAM_LOCKFILE) evs r) :
    ((∃ fd, r = .ok fd) ∧ LockTaken evs ∧ ¬ LockRefused evs) ∨
      ((∃ e, r = .error e) ∧ (∀ fd, (⟨.flock fd, .ok ()⟩ : CallEvent) ∉ evs) ∧
        LockRefused evs) := by
  rw [acquireLockfile, openLock_bind] at h
  obtain ⟨a, rest, rfl, hrun⟩ := runs_op_iff.mp h
  cases a with
  | error e =>
      right
      have hlog : Confined (fun o : Call => o.takesLock = false)
          (fun r => r = .error e) (do
            prErr "failed opening lockfile: %s [%d]: %s\n"
              [.str NVRAM_LOCKFILE, .num e.code, .strerror e]
            return (.error e : Except Errno Fd)) := ⟨rfl, fun _ => rfl⟩
      obtain ⟨hrest, rfl⟩ := Lockless.of_confined hlog hrun
      refine ⟨⟨e, rfl⟩, fun fd hev => ?_, Or.inl ⟨NVRAM_LOCKFILE, e, by simp⟩⟩
      rcases List.mem_cons.mp hev with hev | hev
      · cases hev
      · exact hrest.no_flock fd _ hev
  | ok fd =>
      have honly : Confined (fun o : Call => ∀ p, o ≠ .openLock p) (fun _ => True)
          (acquireRetry NVRAM_LOCKFILE fd allowedRetries) :=
        confined_acquireRetry (fun o ho p hp => by subst hp; cases ho.2.2.1)
          (fun p hp => by cases hp) (fun p hp => by cases hp) _ _
      have hopen : ∀ path e, (⟨.openLock path, .error e⟩ : CallEvent) ∉ rest :=
        fun path e hev => (honly.runs hrun).1 _ hev path rfl
      have hfilter : (⟨.openLock NVRAM_LOCKFILE, .ok fd⟩ :: rest : List CallEvent).filter isBusy =
          rest.filter isBusy := rfl
      rcases runs_acquireRetry hrun with ⟨rfl, hok, hsoft, hbusy⟩ | ⟨herror, hno, hwhy⟩
      · left
        refine ⟨⟨fd, rfl⟩, ⟨fd, by simp, List.mem_cons_of_mem _ hok⟩, ?_⟩
        rintro (⟨path, e, hev⟩ | ⟨fd', e, hev, hne⟩ | hmany)
        · rcases List.mem_cons.mp hev with hev | hev
          · simp at hev
          · exact hopen path e hev
        · rcases List.mem_cons.mp hev with hev | hev
          · simp at hev
          · exact hne (hsoft fd' e hev)
        · rw [hfilter, allowedRetries] at hmany
          omega
      · right
        refine ⟨herror, fun fd' hev => ?_, ?_⟩
        · rcases List.mem_cons.mp hev with hev | hev
          · simp at hev
          · exact hno fd' hev
        · rcases hwhy with ⟨fd', e, hev, hne⟩ | hbusy
          · exact Or.inr (Or.inl ⟨fd', e, List.mem_cons_of_mem _ hev, hne⟩)
          · refine Or.inr (Or.inr ?_)
            rw [hfilter, hbusy, allowedRetries]

/-! ### Executed and committed -/

section

variable (lib : Libnvram) (mode : Mode)

/-- The operations ran one after the other and took the lists from the first state to the
second; the last index says whether one of them changed a list. -/
inductive Executed : List Operation → ExecState → List CallEvent → ExecState → Prop → Prop where
  | nil (st : ExecState) : Executed [] st [] st False
  | cons {it : Operation} {ops : List Operation} {st st₁ st₂ : ExecState}
      {evs evs' : List CallEvent} {changed : Prop} :
      Runs (it.execute lib mode st) evs (.ok st₁) → Executed ops st₁ evs' st₂ changed →
      Executed (it :: ops) st (evs ++ evs') st₂
        ((st₁.listSystem ≠ st.listSystem ∨ st₁.listUser ≠ st.listUser) ∨ changed)

/-- `format->commit` was called on the list and returned 0. -/
def Committed (format : NvramFormat) (nvram : Option format.StructNvram) (list : List Entry)
    (evs : List CallEvent) : Prop :=
  ∃ n n' before commit after, nvram = some n ∧ evs = before ++ commit ++ after ∧
    Runs (format.commit n list) commit (.ok (), n')

/-- The calls of a session that did its work, in their order, with what they returned. -/
structure SessionLog (format : NvramFormat) where
  before : List CallEvent
  lock : List CallEvent
  initSystem : List CallEvent
  nvramSystem : Option format.StructNvram
  listSystem : List Entry
  initUser : List CallEvent
  nvramUser : Option format.StructNvram
  listUser : List Entry
  execute : List CallEvent
  executed : ExecState
  changed : Prop
  commit : List CallEvent
  after : List CallEvent

def SessionLog.events {format : NvramFormat} (log : SessionLog format) : List CallEvent :=
  log.before ++ log.lock ++ log.initSystem ++ log.initUser ++ log.execute ++ log.commit ++
    log.after

variable (cfg : BuildConfig) (env : Environ)

/-- The lock was acquired, the sides that the mode names were loaded, every operation was
executed in order on what was loaded, and if one changed a list the resulting list of the
writable side was committed. -/
structure SessionLog.Done {format : NvramFormat} (log : SessionLog format)
    (interface : Interface) (interfaceName : CString) (opts : Opts) : Prop where
  lock : LockTaken log.lock
  initSystem : Runs (initSide format interface (opts.mode.systemWrite || opts.mode.systemRead)
      "NVRAM_SYSTEM_A: %s\n" "NVRAM_SYSTEM_B: %s\n"
      (resolveSection cfg env interfaceName opts.systemAOverride .systemA)
      (resolveSection cfg env interfaceName opts.systemBOverride .systemB))
    log.initSystem (.ok (log.nvramSystem, log.listSystem))
  initUser : Runs (initSide format interface (opts.mode.userWrite || opts.mode.userRead)
      "NVRAM_USER_A: %s\n" "NVRAM_USER_B: %s\n"
      (resolveSection cfg env interfaceName opts.userAOverride .userA)
      (resolveSection cfg env interfaceName opts.userBOverride .userB))
    log.initUser (.ok (log.nvramUser, log.listUser))
  execute : Executed lib opts.mode opts.operations ⟨log.listSystem, log.listUser, false⟩
    log.execute log.executed log.changed
  commit : log.changed →
    if opts.mode.systemWrite then
      Committed format log.nvramSystem log.executed.listSystem log.commit
    else Committed format log.nvramUser log.executed.listUser log.commit

end

/-! ### Runs of the parts -/

section

variable {lib : Libnvram} {mode : Mode}

theorem runs_executeEach {operations : List Operation} {st st' : ExecState}
    {evs : List CallEvent} (h : Runs (executeEach lib mode operations st) evs (.ok st')) :
    ∃ changed, Executed lib mode operations st evs st' changed ∧
      (changed ∨ st.writePerformed = true → st'.writePerformed = true) ∧
      (st'.writePerformed = true →
        st.writePerformed = true ∨ mode.systemWrite = true ∨ mode.userWrite = true) := by
  induction operations generalizing st evs with
  | nil =>
      obtain ⟨rfl, hst⟩ := runs_ret_iff.mp h
      cases hst
      exact ⟨False, .nil _, by simp, Or.inl⟩
  | cons it ops ih =>
      obtain ⟨evs₁, evs₂, r, rfl, hit, hrest⟩ := runs_bind_iff.mp h
      cases r with
      | error e =>
          obtain ⟨_, hr⟩ := runs_ret_iff.mp hrest
          cases hr
      | ok st₁ =>
          obtain ⟨changed, hexec, hperformed, hwhy⟩ := ih hrest
          refine ⟨_, .cons hit hexec, ?_, ?_⟩
          all_goals rcases ((local_execute lib mode it st).runs hit).2 st₁ rfl with
            rfl | ⟨_, hwrote⟩
          · simpa using hperformed
          · exact fun _ => hperformed (Or.inr hwrote.performed)
          · exact hwhy
          · intro _
            rcases hwrote.side with ⟨hsw, _⟩ | ⟨_, huw, _⟩
            · exact Or.inr (Or.inl hsw)
            · exact Or.inr (Or.inr huw)

variable {format : NvramFormat}

theorem runs_commitList {nvram : Option format.StructNvram} {list : List Entry}
    {evs : List CallEvent} (h : Runs (commitList format nvram list) evs (.ok ())) :
    Committed format nvram list evs := by
  cases nvram with
  | none =>
      obtain ⟨_, hr⟩ := runs_ret_iff.mp h
      cases hr
  | some n =>
      obtain ⟨evs₁, evs₂, ⟨r, n'⟩, rfl, hcommit, hrest⟩ := runs_bind_iff.mp h
      cases r with
      | error e =>
          simp only [prErr_bind, runs_op_iff, Prog.pure_eq, runs_ret_iff] at hrest
          obtain ⟨_, _, _, _, hr⟩ := hrest
          cases hr
      | ok u => exact ⟨n, n', [], evs₁, evs₂, rfl, rfl, hcommit⟩

/-- A commit that returns 0 leaves the changed list committed. -/
theorem runs_commitExecuted {nvramSystem nvramUser : Option format.StructNvram} {st : ExecState}
    {evs : List CallEvent} (hperformed : st.writePerformed = true)
    (hwhy : mode.systemWrite = true ∨ mode.userWrite = true)
    (h : Runs (commitExecuted mode format nvramSystem nvramUser (.ok st)) evs (.ok ())) :
    if mode.systemWrite then Committed format nvramSystem st.listSystem evs
      else Committed format nvramUser st.listUser evs := by
  rw [commitExecuted, if_pos hperformed, prDbg_bind] at h
  obtain ⟨a, rest, rfl, hcommit⟩ := runs_op_iff.mp h
  have hcons : ∀ {nvram : Option format.StructNvram} {list : List Entry},
      Committed format nvram list rest → Committed format nvram list (⟨_, a⟩ :: rest) := by
    rintro nvram list ⟨n, n', before, commit, after, hn, rfl, hruns⟩
    exact ⟨n, n', _ :: before, commit, after, hn, rfl, hruns⟩
  split
  · rename_i hsw
    rw [if_pos hsw] at hcommit
    exact hcons (runs_commitList hcommit)
  · rename_i hsw
    rw [if_neg hsw, if_pos (hwhy.resolve_left hsw)] at hcommit
    exact hcons (runs_commitList hcommit)

end

/-- Work that ends with 0 was done. -/
theorem Work.sessionLog {lib : Libnvram} {cfg : BuildConfig} {env : Environ}
    {format : NvramFormat} {interface : Interface} {interfaceName : CString} {opts : Opts}
    (work : Work lib cfg env format interface interfaceName opts) (hok : work.result = .ok ())
    (before : List CallEvent) {lock : List CallEvent} (hlock : LockTaken lock)
    (after : List CallEvent) :
    ∃ log : SessionLog format, log.Done lib cfg env interface interfaceName opts ∧
      log.events = before ++ lock ++ work.events ++ after := by
  have hcommit := work.runs_commit
  rw [hok] at hcommit
  cases hexecuted : work.executed with
  | error e =>
      rw [hexecuted] at hcommit
      obtain ⟨_, hr⟩ := runs_ret_iff.mp hcommit
      cases hr
  | ok st =>
      have hexecute := work.runs_execute
      rw [hexecuted] at hexecute hcommit
      obtain ⟨changed, hlog, hperformed, hwhy⟩ := runs_executeEach hexecute
      refine ⟨⟨before, lock, work.initSystem, work.nvramSystem, work.listSystem, work.initUser,
        work.nvramUser, work.listUser, work.execute, st, changed, work.commit, after⟩,
        ⟨hlock, work.runs_initSystem, work.runs_initUser, hlog, fun hchanged => ?_⟩, ?_⟩
      · have hwritten := hperformed (Or.inl hchanged)
        have hmode := (hwhy hwritten).resolve_left Bool.false_ne_true
        exact runs_commitExecuted hwritten hmode hcommit
      · simp only [SessionLog.events, Work.events, Work.before, List.append_assoc]

/-! ### The exits -/

theorem Call.takesLock_of_isLock {o : Call} (h : o.isLock = false) : o.takesLock = false := by
  cases o <;> first | rfl | cases h

/-- The exit takes no lock, and returns 0 only if nothing failed before. -/
theorem lockless_exitClose {format : NvramFormat} (F : format.Frame) (done : AtExit format)
    {interface : Interface} {paths paths' : CString → Prop}
    (hsystem : ∀ n ∈ done.nvramSystem, F.On interface paths n)
    (huser : ∀ n ∈ done.nvramUser, F.On interface paths' n) (fdLock : Option Fd) :
    Confined (fun o : Call => o.takesLock = false)
      (fun r => (r = .ok () → done.r = .ok ()) ∧ (fdLock = none → r = done.r))
      (exitClose format fdLock done) :=
  confined_exitClose F done (fun _ h => Call.takesLock_of_isLock h.2.2.1) (fun _ => rfl) (fun _ => rfl)
    (fun _ h => Call.takesLock_of_isLock h.1.2.2.1) (fun _ h => Call.takesLock_of_isLock h.1.2.2.1)
    hsystem huser fdLock

/-! ### `main` -/

section

variable (lib : Libnvram) (crc32 : Bytes → UInt32) (cfg : BuildConfig) (env : Environ)

/-- The run did what the command line asks for. -/
def WorkDone (args : List CString) (evs : List CallEvent) : Prop :=
  ∃ items interface format, commandLine args = some items ∧
    nvramGetInterface cfg (interfaceNameOf cfg env (finalOpts items)) = some interface ∧
    nvramGetFormat lib crc32 cfg (formatNameOf cfg env (finalOpts items)) = some format ∧
    ∃ log : SessionLog format, log.events = evs ∧
      log.Done lib cfg env interface (interfaceNameOf cfg env (finalOpts items)) (finalOpts items)

variable {lib crc32 cfg env}

theorem WorkDone.lockTaken {args : List CString} {evs : List CallEvent}
    (h : WorkDone lib crc32 cfg env args evs) : LockTaken evs := by
  obtain ⟨_, _, _, _, _, _, log, rfl, hdone⟩ := h
  obtain ⟨fd, hopen, hflock⟩ := hdone.lock
  exact ⟨fd, by simp [SessionLog.events, hopen], by simp [SessionLog.events, hflock]⟩

/-- In every run of `main` status 0 means that the work was done exactly when the lock was not
refused. -/
theorem main_zero_imp_workDone_iff {args : List CString} {evs : List CallEvent} {c : ℕ}
    (h : Runs (main lib crc32 cfg env args) evs c) :
    (c = 0 → WorkDone lib crc32 cfg env args evs) ↔ ¬ LockRefused evs := by
  obtain ⟨r, rfl, hcourse⟩ := runs_main h
  have hquiet : ∀ {evs : List CallEvent}, (∀ ev ∈ evs, ev.op.Inner) → Lockless evs :=
    fun hinner ev hev => Call.takesLock_of_isLock (hinner ev hev).2.2.1
  cases hcourse with
  | early e hinner =>
      have hstatus : exitStatus (.error e) ≠ 0 := e.pos.ne'
      exact ⟨fun _ => (hquiet hinner).not_refused, fun _ hzero => absurd hzero hstatus⟩
  | unlocked hbefore hlock hafter =>
      rename_i before lock after e
      rcases runs_acquireLockfile hlock with ⟨⟨fd, hr⟩, _⟩ | ⟨_, hno, hrefused⟩
      · cases hr
      have hrefused' : LockRefused (before ++ lock ++ after) := by
        rw [(hquiet hafter).refused_append, (hquiet hbefore).refused_prepend]
        exact hrefused
      refine ⟨fun hdone => ?_, fun hnot => absurd hrefused' hnot⟩
      obtain ⟨fd, _, hflock⟩ := (hdone rfl).lockTaken
      rcases List.mem_append.mp hflock with hflock | hflock
      · rcases List.mem_append.mp hflock with hflock | hflock
        · exact absurd hflock ((hquiet hbefore).no_flock fd _)
        · exact absurd hflock (hno fd)
      · exact absurd hflock ((hquiet hafter).no_flock fd _)
  | locked hitems hinterface hformat front hwork hafter =>
      rename_i items interface format work after done
      obtain ⟨F⟩ := nvramGetFormat_frame lib crc32 hformat
      rcases runs_acquireLockfile front.runs_lock with ⟨_, htaken, hnot⟩ | ⟨⟨e, hr⟩, _⟩
      swap
      · cases hr
      obtain ⟨hops, hsystem, huser⟩ :=
        (admits_withLock lib cfg env _ (finalOpts items) interface F).runs hwork
      have hworkQuiet : Lockless work := fun ev hev =>
        Call.takesLock_of_isLock (hops ev hev).2.2.2
      obtain ⟨hafterQuiet, hok, _⟩ :=
        Lockless.of_confined (lockless_exitClose F done hsystem huser (some front.fd)) hafter
      have hnot' : ¬ LockRefused (front.events ++ work ++ after) := by
        rw [hafterQuiet.refused_append, hworkQuiet.refused_append, Front.events,
          (hquiet front.inner_before).refused_prepend]
        exact hnot
      refine ⟨fun _ => hnot', fun _ hzero => ?_⟩
      have hr : r = .ok () := exitStatus_eq_zero_iff.mp hzero
      rcases runs_withLock F hwork with ⟨_, e, herror⟩ | ⟨work, rfl, rfl⟩
      · have hcontra := hok hr
        rw [herror] at hcontra
        cases hcontra
      · obtain ⟨log, hdone, hevents⟩ := work.sessionLog (hok hr) front.before htaken after
        exact ⟨items, interface, format, hitems, hinterface, hformat, log, hevents, hdone⟩

end

/-! ### Evaluated -/

theorem main_zero_imp_workDone_iff_sample :
    ((run obliging (main plainLibnvram zlibCrc32 sampleConfig (fun _ => none)
        [lit "set", lit "key", lit "value"]) ()).1 = 0 →
      WorkDone plainLibnvram zlibCrc32 sampleConfig (fun _ => none)
        [lit "set", lit "key", lit "value"]
        (trace obliging (main plainLibnvram zlibCrc32 sampleConfig (fun _ => none)
          [lit "set", lit "key", lit "value"]) ())) ↔
      ¬ LockRefused (trace obliging (main plainLibnvram zlibCrc32 sampleConfig (fun _ => none)
        [lit "set", lit "key", lit "value"]) ()) :=
  main_zero_imp_workDone_iff (runs_trace obliging _ ())

/-- The lockfile cannot be opened; every other call succeeds. -/
def lockless : Handler callSig Unit
  | .openLock _, u => (.error eacces, u)
  | o, u => obliging o u

def isGrant : CallEvent → Bool
  | ⟨.flock _, .ok _⟩ => true
  | _ => false

/-- The lockfile cannot be opened: nothing is set, and the status is 0. -/
theorem main_zero_without_work :
    ∃ evs, Runs (main plainLibnvram zlibCrc32 sampleConfig (fun _ => none)
        [lit "set", lit "key", lit "value"]) evs 0 ∧
      ¬ WorkDone plainLibnvram zlibCrc32 sampleConfig (fun _ => none)
        [lit "set", lit "key", lit "value"] evs := by
  have hstatus : (run lockless (main plainLibnvram zlibCrc32 sampleConfig (fun _ => none)
      [lit "set", lit "key", lit "value"]) ()).1 = 0 := by decide +kernel
  refine ⟨_, hstatus ▸ runs_trace lockless _ (), fun hdone => ?_⟩
  obtain ⟨fd, _, hflock⟩ := hdone.lockTaken
  have hnone : (trace lockless (main plainLibnvram zlibCrc32 sampleConfig (fun _ => none)
      [lit "set", lit "key", lit "value"]) ()).all (!isGrant ·) = true := by decide +kernel
  have hno := List.all_eq_true.mp hnone _ hflock
  simp [isGrant] at hno

end Nvram
