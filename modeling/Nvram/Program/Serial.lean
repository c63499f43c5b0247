import Nvram.Program.Exclusion
import Nvram.Program.Faults
import Nvram.V2.Stops
import Nvram.Library.Serial

/-!
# Processes that share a store run one after the other

Any number of processes run `main` on one lockfile and one store.  A process gets at the store
only between a successful `flock` and its `close`, and it takes the lock once.  Where no process
removes the name of the lockfile while another one has its inode open, every state that is
reached is one that the processes reach when each runs by itself, in the order in which they got
the lock.  The store is any world in which the other calls neither see nor change it.
-/

namespace Nvram

open Effects Errno

/-- A call that gets at what an interface stores. -/
def Call.accesses : Call → Bool
  | init _ _ => true
  | size _ _ => true
  | read _ _ _ => true
  | write _ _ _ => true
  | _ => false

/-! ### The turn of a process -/

/-- Before a process has got the lock, while it has it, and after it has closed it. -/
inductive LockTurn where
  | before
  | during
  | after
  deriving DecidableEq

def LockTurn.next : LockTurn → (o : Call) → Call.Res o → LockTurn
  | before, .flock _, .ok () => during
  | during, .close _, _ => after
  | m, _, _ => m

/-- The store is only got at while the process has the lock. -/
def turnMonitor : Monitor callSig LockTurn where
  allows m o := o.accesses = true → m = .during
  next := LockTurn.next

theorem turnMonitor_of_inner (m : LockTurn) {o : Call} (h : o.Inner) :
    turnMonitor.allows m o ∧ ∀ r, turnMonitor.next m o r = m := by
  obtain ⟨hinterface, -, hlock, -, -⟩ := h
  cases o <;> first
    | (cases hinterface; done)
    | (cases hlock; done)
    | exact ⟨fun hno => (by cases hno), fun _ => by cases m <;> rfl⟩

/-- Calls that neither get at the store nor at the lock keep the turn as far as it is the first
one. -/
theorem turn_of_confined {α : Type} {Q : α → Prop} {p : NProg α}
    (h : Confined (fun o : Call => o.accesses = false ∧ ∀ fd, o ≠ .flock fd) Q p) (m : LockTurn) :
    Monitored turnMonitor (fun m' a => (m' = .before ↔ m = .before) ∧ Q a) p m := by
  induction p generalizing m with
  | ret a => exact ⟨Iff.rfl, h⟩
  | op o k ih =>
      obtain ⟨⟨hno, hflock⟩, hk⟩ := h
      refine ⟨fun hyes => ?_, fun r => ?_⟩
      · rw [hno] at hyes
        cases hyes
      · have hnext : turnMonitor.next m o r = .before ↔ m = .before := by
          show LockTurn.next m o r = .before ↔ m = .before
          cases o <;> cases m <;> first
            | exact Iff.rfl
            | exact absurd rfl (hflock _)
            | exact iff_of_false (fun h => by cases h) fun h => by cases h
        refine (ih r (hk r) _).mono fun m' a hm => ?_
        exact ⟨hm.1.trans hnext, hm.2⟩

theorem turn_acquireRetry (path : CString) (fd : Fd) (retries : ℕ) :
    Monitored turnMonitor
      (fun m r => r = .ok fd ∧ m = .during ∨ (∃ e, r = .error e) ∧ m = .before)
      (acquireRetry path fd (retries + 1)) .before := by
  have hfail : ∀ (e e' : Errno), Monitored turnMonitor
      (fun m r => r = .ok fd ∧ m = .during ∨ (∃ e, r = .error e) ∧ m = .before) (do
        prErr "failed locking lockfile: %s [%d]: %s\n"
          [.str path, .num e.code, .strerror e']
        let _ ← close fd
        return (.error e' : Except Errno Fd)) .before := by
    intro e e'
    refine ⟨fun h => (by cases h), fun _ => ⟨fun h => (by cases h), fun _ => ?_⟩⟩
    exact Or.inr ⟨⟨e', rfl⟩, rfl⟩
  induction retries with
  | zero =>
      rw [acquireRetry, flock_bind]
      refine ⟨fun h => (by cases h), fun r => ?_⟩
      cases r with
      | ok u => exact ⟨fun h => (by cases h), fun _ => Or.inl ⟨rfl, rfl⟩⟩
      | error e =>
          dsimp only
          split
          · exact hfail e e
          · rw [if_pos rfl]
            exact hfail e etimedout
  | succ n ih =>
      rw [acquireRetry, flock_bind]
      refine ⟨fun h => (by cases h), fun r => ?_⟩
      cases r with
      | ok u => exact ⟨fun h => (by cases h), fun _ => Or.inl ⟨rfl, rfl⟩⟩
      | error e =>
          dsimp only
          split
          · exact hfail e e
          · rw [if_neg (Nat.succ_ne_zero n)]
            exact ⟨fun h => (by cases h), fun _ => ih⟩

/-- The turn begins exactly when the lockfile is acquired. -/
theorem turn_acquireLockfile :
    Monitored turnMonitor
      (fun m r => (∃ fd, r = .ok fd) ∧ m = .during ∨ (∃ e, r = .error e) ∧ m = .before)
      (acquireLockfile NVRAM_LOCKFILE) .before := by
  simp only [acquireLockfile, openLock_bind]
  refine ⟨fun h => (by cases h), fun r => ?_⟩
  cases r with
  | error e => exact ⟨fun h => (by cases h), fun _ => Or.inr ⟨⟨e, rfl⟩, rfl⟩⟩
  | ok fd =>
      refine (turn_acquireRetry NVRAM_LOCKFILE fd 9).mono fun m r h => ?_
      exact h.imp_left fun h => ⟨⟨fd, h.1⟩, h.2⟩

section

variable {lib : Libnvram} {crc32 : Bytes → UInt32} {cfg : BuildConfig} {env : Environ}
  {format : NvramFormat}

/-- The part under the lock keeps the turn. -/
theorem turn_withLock (lib : Libnvram) (cfg : BuildConfig) (env : Environ) (F : format.Frame)
    (interface : Interface) (interfaceName : CString) (opts : Opts) :
    Monitored turnMonitor (fun m _ => m = .during)
      (withLock lib cfg env format interface interfaceName opts) .during := by
  refine ((admits_withLock lib cfg env interfaceName opts interface F).monitored
    fun o ho => ⟨fun _ => rfl, fun r => ?_⟩).mono fun _ _ h => h.1
  have hlock := ho.2.2.2
  cases o <;> first | rfl | cases hlock

/-- The exit keeps the turn as far as it is the first one. -/
theorem turn_exitClose {name : CString} (hformat : nvramGetFormat lib crc32 cfg name = some format)
    (done : AtExit format) (fdLock : Option Fd) (m : LockTurn) :
    Monitored turnMonitor (fun m' r => (m' = .before ↔ m = .before) ∧
        (r = .ok () → done.r = .ok ()) ∧ (fdLock = none → r = done.r))
      (exitClose format fdLock done) m := by
  refine turn_of_confined ?_ m
  have hinner : ∀ o : Call, o.Inner → o.accesses = false ∧ ∀ fd, o ≠ .flock fd := by
    intro o ho
    obtain ⟨hinterface, -, hlock, -, -⟩ := ho
    cases o <;> first
      | (cases hinterface; done)
      | (cases hlock; done)
      | exact ⟨rfl, fun fd h => by cases h⟩
  have hclose : ∀ nvram : Option format.StructNvram,
      Confined (fun o : Call => o.accesses = false ∧ ∀ fd, o ≠ .flock fd) (fun _ => True)
        (format.close nvram) :=
    fun nvram => confined_close lib crc32 (fun _ _ => ⟨rfl, fun fd h => by cases h⟩) hformat nvram
  refine confined_seq (confined_exitRelease hinner (fun _ => ⟨rfl, fun fd h => by cases h⟩)
    (fun _ => ⟨rfl, fun fd h => by cases h⟩) done.r fdLock) fun r hr => ?_
  exact confined_seq (hclose _) fun _ _ => confined_seq (hclose _) fun _ _ => hr

theorem turn_session {name : CString} (hformat : nvramGetFormat lib crc32 cfg name = some format)
    (interface : Interface) (interfaceName formatName : CString) (opts : Opts) :
    Monitored turnMonitor (fun _ _ => True)
      (session lib cfg env format interface interfaceName formatName opts) .before := by
  obtain ⟨F⟩ := nvramGetFormat_frame lib crc32 hformat
  have hinner : ∀ {α : Type} {p : NProg α} {R : α → Prop}, Confined Call.Inner R p →
      Monitored turnMonitor (fun m a => m = .before ∧ R a) p .before :=
    fun hp => hp.monitored fun o ho => turnMonitor_of_inner .before ho
  have hexit : ∀ (done : AtExit format) (fdLock : Option Fd) (m : LockTurn),
      Monitored turnMonitor (fun _ _ => True) (exitClose format fdLock done) m :=
    fun done fdLock m => (turn_exitClose hformat done fdLock m).mono fun _ _ _ => trivial
  rw [session_eq]
  refine monitored_seq (hinner (inner_printResolved interfaceName formatName opts.mode))
    fun m _ hm => ?_
  obtain ⟨rfl, -⟩ := hm
  refine monitored_seq (hinner (inner_validateOperations cfg env opts.mode opts.operations))
    fun m r hm => ?_
  obtain ⟨rfl, -⟩ := hm
  cases r with
  | error e => exact hexit _ _ _
  | ok u =>
      refine monitored_seq turn_acquireLockfile fun m r hm => ?_
      rcases hm with ⟨⟨fd, rfl⟩, rfl⟩ | ⟨⟨e, rfl⟩, rfl⟩
      · exact monitored_seq (turn_withLock lib cfg env F interface interfaceName opts) fun _ done _ =>
          hexit done (some fd) _
      · exact hexit _ _ _

variable (lib crc32 cfg env) in
/-- `main` gets at the store only during its turn. -/
theorem turn_main (args : List CString) :
    Monitored turnMonitor (fun _ _ => True) (main lib crc32 cfg env args) .before :=
  monitored_main_of_session (Q := fun _ => True) (fun _ ho => turnMonitor_of_inner .before ho)
    trivial fun _ interface _ _ _ hformat => turn_session hformat interface _ _ _

end

/-! ### A store beside the lockfile -/

/-- The lockfile and the turn. -/
abbrev storeMonitor : Monitor callSig (LockPhase × LockTurn) := lockMonitor.prod turnMonitor

/-- The turn of a process as a region that it enters with the lock. -/
def turnRegion {σ : Type} {W : World callSig σ}
    (hprivate : ∀ o : Call, o.accesses = false → W.Private o) : Region storeMonitor W where
  entered m := m.2 ≠ .before
  inside m := m.2 = .during
  entered_of_inside h := by
    rw [h]
    exact fun h => by cases h
  entered_next {m} o r h := by
    obtain ⟨m, m'⟩ := m
    show LockTurn.next m' o r ≠ .before
    cases m' with
    | before => exact absurd rfl h
    | during => cases o <;> exact fun h => by cases h
    | after => cases o <;> exact fun h => by cases h
  inside_of_next {m} o r h hentered := by
    obtain ⟨m, m'⟩ := m
    cases m' with
    | before => exact absurd rfl hentered
    | during => rfl
    | after => cases o <;> cases h
  inside_of_entry {m} o r h hnot := by
    obtain ⟨m, m'⟩ := m
    obtain rfl : m' = .before := not_not.mp hnot
    cases o with
    | flock fd =>
        cases r with
        | ok u => rfl
        | error e => exact absurd rfl h
    | _ => exact absurd rfl h
  isPrivate {m o} hallows hnot := hprivate o <| by
    by_contra haccess
    exact hnot (hallows.2 (by simpa using haccess))

/-- A process that has its turn is inside. -/
theorem inside_of_turn {m : LockPhase × LockTurn} {o : Call} {r : Call.Res o}
    (hm : m.2 = .during → m.1.Inside) (hallows : storeMonitor.allows m o)
    (h : (storeMonitor.next m o r).2 = .during) : (storeMonitor.next m o r).1.Inside := by
  obtain ⟨phase, turn⟩ := m
  have hlock : phase.allows o := hallows.1
  show (phase.next o r).Inside
  have hturn : turn.next o r = .during := h
  cases turn with
  | after => cases o <;> cases hturn
  | during =>
      have hinside : phase.Inside := hm rfl
      cases phase <;> cases hinside
      cases o <;> trivial
  | before =>
      cases o with
      | flock fd =>
          cases r with
          | error e => cases hturn
          | ok u => cases phase <;> trivial
      | _ => cases hturn

/-- The lockfile excludes, and every process that has its turn is inside. -/
structure TurnExclusive {I σ : Type} (ms : I → LockPhase × LockTurn) (s : LockFs I × σ) : Prop where
  exclusive : Exclusive (fun i => (ms i).1) s.1
  inside : ∀ i, (ms i).2 = .during → (ms i).1.Inside

theorem TurnExclusive.step {I σ : Type} [DecidableEq I] {ms : I → LockPhase × LockTurn}
    {s t : LockFs I × σ} (h : TurnExclusive ms s) {W : World callSig σ} {i : I} {o : Call}
    {r : Call.Res o} (hallows : storeMonitor.allows (ms i) o) (hok : Undisturbed s.1 i o)
    (hstep : ((lockShared I).beside W).step i s o r t) :
    TurnExclusive (Function.update ms i (storeMonitor.next (ms i) o r)) t := by
  constructor
  · have hnext := h.exclusive.step (i := i) hallows.1 hok hstep.1
    convert hnext using 1
    funext j
    by_cases hji : j = i
    · subst hji
      rw [Function.update_self, Function.update_self]
      rfl
    · rw [Function.update_of_ne hji, Function.update_of_ne hji]
  · intro j hj
    by_cases hji : j = i
    · subst hji
      rw [Function.update_self] at hj ⊢
      exact inside_of_turn (h.inside j) hallows hj
    · rw [Function.update_of_ne hji] at hj ⊢
      exact h.inside j hj

section

variable {I : Type} [DecidableEq I] (lib : Libnvram) (crc32 : Bytes → UInt32) (cfg : BuildConfig)

/-- Every process is about to run `main`, beside a store. -/
def storePool {σ : Type} (procs : I → Environ × List CString) (fs : LockFs I) (s : σ) :
    Pool callSig ℕ I (LockPhase × LockTurn) (LockFs I × σ) where
  prog i := main lib crc32 cfg (procs i).1 (procs i).2
  mon _ := (.outside, .before)
  shared := (fs, s)

/-- Reachable where no name is removed under another process. -/
abbrev StoreReach {σ : Type} (W : World callSig σ) :
    Pool callSig ℕ I (LockPhase × LockTurn) (LockFs I × σ) →
    Pool callSig ℕ I (LockPhase × LockTurn) (LockFs I × σ) → Prop :=
  Pool.Reach storeMonitor ((lockShared I).beside W) fun s i o => Undisturbed s.1 i o

/-- Reachable where no name is removed under another process; `order` are the processes that have
got the lock since, in the order in which they got it. -/
abbrev StoreLocks {σ : Type} (W : World callSig σ) :
    Pool callSig ℕ I (LockPhase × LockTurn) (LockFs I × σ) →
    Pool callSig ℕ I (LockPhase × LockTurn) (LockFs I × σ) → List I → Prop :=
  Pool.Enters storeMonitor ((lockShared I).beside W) (fun s i o => Undisturbed s.1 i o)
    fun m => m.2 ≠ .before

omit [DecidableEq I] in
theorem monitored_storePool {σ : Type} (procs : I → Environ × List CString) (fs : LockFs I) (s : σ)
    (i : I) : Monitored storeMonitor (fun _ _ => True)
      ((storePool lib crc32 cfg procs fs s).prog i) ((storePool lib crc32 cfg procs fs s).mon i) :=
  ((monitored_main lib crc32 cfg (procs i).1 (procs i).2).prod
    (turn_main lib crc32 cfg (procs i).1 (procs i).2)).mono fun _ _ _ => trivial

variable {lib crc32 cfg}

/-- At most one process has its turn. -/
theorem turn_unique {σ : Type} {W : World callSig σ} {procs : I → Environ × List CString}
    {fs : LockFs I} (hfs : fs.opened = []) {s : σ}
    {c : Pool callSig ℕ I (LockPhase × LockTurn) (LockFs I × σ)}
    (h : StoreReach W (storePool lib crc32 cfg procs fs s) c) {i j : I}
    (hi : (c.mon i).2 = .during) (hj : (c.mon j).2 = .during) : i = j := by
  have hinit : Exclusive (fun _ : I => LockPhase.outside) fs :=
    ⟨by simp [hfs], by simp [hfs], by simp [hfs], fun i fd hi => by cases hi⟩
  have hstart : TurnExclusive (fun _ : I => (LockPhase.outside, LockTurn.before)) (fs, s) :=
    ⟨hinit, fun i hi => by cases hi⟩
  have hinv := (h.invariant (monitored_storePool lib crc32 cfg procs fs s) hstart
    fun ms s i o r t hinv hallows hok hW => hinv.step hallows hok hW).1
  exact hinv.exclusive.inside_eq (hinv.inside i hi) (hinv.inside j hj)

/-- Every state that is reached is one of a serial execution: the processes that have got the
lock ran one after the other, in the order in which they got it, and the others have not touched
the store.  Those that get the lock afterwards follow in the order in which they get it. -/
theorem interleavings_serialise {σ : Type} {W : World callSig σ}
    (hprivate : ∀ o : Call, o.accesses = false → W.Private o)
    {procs : I → Environ × List CString} {fs : LockFs I} (hfs : fs.opened = []) {s : σ}
    {c : Pool callSig ℕ I (LockPhase × LockTurn) (LockFs I × σ)}
    (h : StoreReach W (storePool lib crc32 cfg procs fs s) c) :
    (∃ order, StoreLocks W (storePool lib crc32 cfg procs fs s) c order) ∧
      ∀ order, StoreLocks W (storePool lib crc32 cfg procs fs s) c order →
        Serial (turnRegion hprivate) (storePool lib crc32 cfg procs fs s) c order ∧
        ∀ c' more, StoreLocks W c c' more →
          Serial (turnRegion hprivate) (storePool lib crc32 cfg procs fs s) c' (order ++ more) := by
  have hprogs := monitored_storePool lib crc32 cfg procs fs s
  have hexcl : ∀ c, StoreReach W (storePool lib crc32 cfg procs fs s) c → ∀ i j,
      (turnRegion hprivate).inside (c.mon i) → (turnRegion hprivate).inside (c.mon j) → i = j :=
    fun c hc i j hi hj => turn_unique hfs hc hi hj
  refine ⟨h.exists_enters, fun order horder => ?_⟩
  have hserial : Serial (turnRegion hprivate) (storePool lib crc32 cfg procs fs s) c order :=
    horder.serial hprogs (fun _ hentered => hentered rfl) hexcl
  refine ⟨hserial, fun c' more hmore => ?_⟩
  exact hmore.serial_from hprogs hexcl h hserial

end

/-! ### Sections on which anything may fail -/

theorem powerStore_private (lib : Libnvram) (o : Call) (ho : o.accesses = false) :
    (powerStore lib).Private o := by
  cases o with
  | init i path => cases ho
  | size i priv => cases ho
  | read i priv n => cases ho
  | write i priv buf => cases ho
  | _ => exact ⟨fun _ _ _ h => h.2, fun _ _ _ h _ => ⟨h.1, rfl⟩, fun _ _ h => h⟩

/-- Sections on which nothing fails, beside the lockfile. -/
def plainOutside {I : Type} [DecidableEq I] (i : I) : Handler callSig (LockFs I × Contents)
  | .listSet list entry, s => (.ok (plainLibnvram.listSet list entry), s)
  | .deserialize data hdr, s => (plainLibnvram.deserialize data hdr, s)
  | .size _ (some priv), s => (.ok (s.2 priv.path).length, s)
  | .read _ (some priv) n, s =>
    (if h : n ≤ (s.2 priv.path).length then
      .ok ⟨(s.2 priv.path).take n, List.length_take_of_le h⟩ else .error eio, s)
  | .write _ (some priv) buf, s =>
    if buf.length ≤ (s.2 priv.path).length then
      (.ok (), s.1, Function.update s.2 priv.path (buf ++ (s.2 priv.path).drop buf.length))
    else (.error einval, s)
  | o, s => ((grantingOutside i o s.1).1, (grantingOutside i o s.1).2, s.2)

/-- Two processes on blank sections; each sets its key. -/
def twoSetters : Pool callSig ℕ Bool (LockPhase × LockTurn) (LockFs Bool × Contents) :=
  storePool plainLibnvram zlibCrc32 sampleConfig
    (fun i => (fun _ => none, [lit "set", if i then lit "b" else lit "a", lit "value"]))
    (emptyLockFs Bool) fun _ => List.replicate 80 255

def twoSettersRun (schedule : List Bool) :
    Pool callSig ℕ Bool (LockPhase × LockTurn) (LockFs Bool × Contents) :=
  schedule.foldl (Pool.advance storeMonitor plainOutside) twoSetters

theorem plainOutside_step {I : Type} [DecidableEq I] (i : I) (s : LockFs I × Contents) (o : Call) :
    ((lockShared I).beside (powerStore plainLibnvram)).step i s o (plainOutside i o s).1
      (plainOutside i o s).2 := by
  have hgrants := grantingOutside_step i s.1 o
  cases o with
  | openLock path => exact ⟨hgrants, trivial, rfl⟩
  | flock fd => exact ⟨hgrants, trivial, rfl⟩
  | close fd => exact ⟨hgrants, trivial, rfl⟩
  | unlink path => exact ⟨hgrants, trivial, rfl⟩
  | listSet list entry => exact ⟨rfl, fun list' h => (Except.ok.inj h).symm, rfl⟩
  | deserialize data hdr => exact ⟨rfl, fun _ h => h, rfl⟩
  | init j path => exact ⟨rfl, fun _ _ => trivial, rfl⟩
  | size j priv =>
      cases priv with
      | none => exact ⟨rfl, trivial, rfl⟩
      | some priv => exact ⟨rfl, fun n h => (Except.ok.inj h).symm, rfl⟩
  | read j priv n =>
      cases priv with
      | none => exact ⟨rfl, trivial, rfl⟩
      | some priv =>
          refine ⟨rfl, fun buf hbuf => ?_, rfl⟩
          simp only [plainOutside] at hbuf
          split at hbuf
          · cases hbuf
            exact List.take_prefix _ _
          · cases hbuf
  | write j priv buf =>
      cases priv with
      | none => exact ⟨rfl, trivial, rfl⟩
      | some priv =>
          simp only [plainOutside]
          split
          · exact ⟨rfl, Or.inl ⟨rfl, _, List.prefix_append _ _, rfl⟩⟩
          · exact ⟨rfl, Or.inr ⟨⟨einval, rfl⟩, Or.inl rfl⟩⟩
  | _ => exact ⟨rfl, trivial, rfl⟩

/-- The processes that get the lock along a schedule. -/
def twoSettersLocks (first rest : List Bool) : List Bool :=
  Pool.entries storeMonitor plainOutside (fun m => m.2 ≠ .before) rest (twoSettersRun first)

/-- The states along a schedule are reached. -/
theorem twoSettersRun_locks (first rest : List Bool) {order : List Bool}
    (h : Pool.Meets storeMonitor plainOutside (fun s i o => Undisturbed s.1 i o) rest
      (twoSettersRun first)) (horder : twoSettersLocks first rest = order) :
    StoreLocks (powerStore plainLibnvram) (twoSettersRun first) (twoSettersRun (first ++ rest))
      order := by
  rw [twoSettersRun, twoSettersRun, List.foldl_append, ← horder]
  exact Pool.enters_foldl_advance plainOutside_step rest h

/-- The second process runs up to the lockfile, and the first one takes the lock. -/
def firstInside : List Bool := List.replicate 5 true ++ List.replicate 45 false

/-- The first process returns, and the second one follows. -/
def bothReturn : List Bool := List.replicate 35 false ++ List.replicate 80 true

theorem interleavings_serialise_sample :
    ((twoSettersRun (firstInside ++ bothReturn)).prog true).value? = some 0 ∧
      Serial (turnRegion (powerStore_private plainLibnvram)) twoSetters
        (twoSettersRun firstInside) [false] ∧
      Serial (turnRegion (powerStore_private plainLibnvram)) twoSetters
        (twoSettersRun (firstInside ++ bothReturn)) [false, true] := by
  have hfirst : StoreLocks (powerStore plainLibnvram) twoSetters (twoSettersRun firstInside) [false] :=
    twoSettersRun_locks [] firstInside (by decide +kernel) (by decide +kernel)
  have hrest : StoreLocks (powerStore plainLibnvram) (twoSettersRun firstInside)
      (twoSettersRun (firstInside ++ bothReturn)) [true] :=
    twoSettersRun_locks firstInside bothReturn (by decide +kernel) (by decide +kernel)
  obtain ⟨hserial, hafter⟩ := (interleavings_serialise (powerStore_private plainLibnvram)
    (show (emptyLockFs Bool).opened = [] from rfl) hfirst.reach).2 [false] hfirst
  exact ⟨by decide +kernel, hserial, hafter _ [true] hrest⟩

end Nvram
