import Nvram.Program.Frame
import Nvram.Library.Interleave
import Nvram.V2.Commit

/-!
# Mutual exclusion by the lockfile

Any number of processes run `main`, each with its own arguments and environment, and take
turns at single calls.  They share the directory entry of the lockfile, the inodes it was
bound to and the open descriptors; a descriptor can hold the exclusive lock of its inode.
Every other call may be answered in any way.

A process is inside from a successful `flock` to its `close`.  `release_lockfile` removes the
name after it has given up the lock, so the name can be bound to an inode that another process
has open by then, and the next process locks a different inode.  Where no process removes the
name in that situation, at most one is inside.
-/

namespace Nvram

open Effects Errno

/-! ### The lockfile -/

/-- An open descriptor of a process, on an inode. -/
structure LockDescriptor (I : Type) where
  owner : I
  fd : Fd
  inode : ℕ
  locked : Bool
  deriving DecidableEq

/-- Which inode a path is bound to, the next unused inode, and the open descriptors. -/
structure LockFs (I : Type) where
  binding : CString → Option ℕ
  fresh : ℕ
  opened : List (LockDescriptor I)

namespace LockFs

variable {I : Type}

/-- `open` with `O_CREAT`: a bound path gives its inode, another one a fresh inode. -/
def openPath (fs : LockFs I) (i : I) (path : CString) (fd : Fd) : LockFs I :=
  match fs.binding path with
  | some inode => { fs with opened := ⟨i, fd, inode, false⟩ :: fs.opened }
  | none =>
    { binding := Function.update fs.binding path (some fs.fresh)
      fresh := fs.fresh + 1
      opened := ⟨i, fd, fs.fresh, false⟩ :: fs.opened }

theorem openPath_spec (fs : LockFs I) (i : I) (path : CString) (fd : Fd) :
    ∃ inode, (fs.openPath i path fd).binding path = some inode ∧
      (fs.openPath i path fd).opened = ⟨i, fd, inode, false⟩ :: fs.opened ∧
      ∀ old, fs.binding path = some old → old = inode := by
  unfold openPath
  cases hb : fs.binding path with
  | some inode =>
      refine ⟨inode, hb, rfl, fun old hold => ?_⟩
      cases hold
      rfl
  | none =>
      refine ⟨fs.fresh, Function.update_self .., rfl, fun old hold => ?_⟩
      cases hold

variable [DecidableEq I]

/-- A descriptor gets the lock of its inode. -/
def lock (fs : LockFs I) (d : LockDescriptor I) : LockFs I :=
  { fs with opened := fs.opened.map fun d' => if d' = d then { d with locked := true } else d' }

/-- The descriptor goes, and its lock with it. -/
def closeFd (fs : LockFs I) (i : I) (fd : Fd) : LockFs I :=
  { fs with opened := fs.opened.filter fun d => ¬ (d.owner = i ∧ d.fd = fd) }

/-- The name goes; inodes that are open stay. -/
def unlinkPath (fs : LockFs I) (path : CString) : LockFs I :=
  { fs with binding := Function.update fs.binding path none }

/-- Some other descriptor holds the lock of the inode of `d`. -/
def HeldByOther (fs : LockFs I) (d : LockDescriptor I) : Prop :=
  ∃ d' ∈ fs.opened, d'.inode = d.inode ∧ d'.locked = true ∧ d' ≠ d

instance (fs : LockFs I) (d : LockDescriptor I) : Decidable (fs.HeldByOther d) :=
  inferInstanceAs (Decidable (∃ d' ∈ fs.opened, _))

/-- What a call of process `i` can answer, and what it does to the lockfile. -/
def Step (i : I) (fs : LockFs I) : (o : Call) → Call.Res o → LockFs I → Prop
  | .openLock path, .ok fd, t =>
    (∀ d ∈ fs.opened, ¬ (d.owner = i ∧ d.fd = fd)) ∧ t = fs.openPath i path fd
  | .flock fd, .ok (), t =>
    ∃ d ∈ fs.opened, d.owner = i ∧ d.fd = fd ∧ ¬ fs.HeldByOther d ∧ t = fs.lock d
  | .flock fd, .error e, t =>
    (e = ewouldblock → ∃ d ∈ fs.opened, d.owner = i ∧ d.fd = fd ∧ fs.HeldByOther d) ∧ t = fs
  | .close fd, _, t => t = fs.closeFd i fd
  | .unlink path, .ok (), t => (fs.binding path).isSome = true ∧ t = fs.unlinkPath path
  | _, _, t => t = fs

end LockFs

/-- The processes share the lockfile and nothing else that matters here. -/
def lockShared (I : Type) [DecidableEq I] : Shared callSig I (LockFs I) where
  step i fs o r t := fs.Step i o r t

/-! ### Where a process stands -/

inductive LockPhase where
  | outside
  | opened (fd : Fd)
  | inside (fd : Fd)
  | closed
  | released
  deriving DecidableEq

namespace LockPhase

/-- Between a successful `flock` and the `close`. -/
def Inside : LockPhase → Prop
  | inside _ => True
  | _ => False

instance (m : LockPhase) : Decidable m.Inside := by
  cases m <;> unfold Inside <;> infer_instance

def next : LockPhase → (o : Call) → Call.Res o → LockPhase
  | outside, .openLock _, .ok fd => opened fd
  | opened fd, .flock _, .ok () => inside fd
  | opened _, .close _, _ => released
  | inside _, .close _, _ => closed
  | closed, .unlink _, _ => released
  | m, _, _ => m

/-- The calls on the lockfile come in one order, on one path and one descriptor. -/
def allows : LockPhase → Call → Prop
  | outside, .openLock path => path = NVRAM_LOCKFILE
  | opened fd, .flock fd' => fd' = fd
  | opened fd, .close fd' => fd' = fd
  | inside fd, .close fd' => fd' = fd
  | closed, .unlink path => path = NVRAM_LOCKFILE
  | _, o => o.isLock = false

end LockPhase

def lockMonitor : Monitor callSig LockPhase where
  allows := LockPhase.allows
  next := LockPhase.next

/-- A call that is not one on the lockfile is allowed anywhere and changes nothing. -/
theorem lockMonitor_of_not_lock (m : LockPhase) {o : Call} (h : o.isLock = false) :
    lockMonitor.allows m o ∧ ∀ r, lockMonitor.next m o r = m := by
  cases o <;> cases m <;> first | exact ⟨h, fun _ => rfl⟩ | cases h

/-! ### `main` keeps to the order -/

theorem monitored_inner {α : Type} {Q : α → Prop} {p : NProg α} (h : Confined Call.Inner Q p)
    (m : LockPhase) : Monitored lockMonitor (fun m' a => m' = m ∧ Q a) p m :=
  h.monitored fun _ ho => lockMonitor_of_not_lock m ho.2.2.1

theorem monitored_acquireRetry (path : CString) (fd : Fd) (retries : ℕ) :
    Monitored lockMonitor (fun m r => r = .ok fd ∧ m = .inside fd ∨ (∃ e, r = .error e))
      (acquireRetry path fd (retries + 1)) (.opened fd) := by
  -- the descriptor is closed after a message
  have hfail : ∀ (e e' : Errno), Monitored lockMonitor
      (fun m r => r = .ok fd ∧ m = .inside fd ∨ (∃ e, r = .error e)) (do
        prErr "failed locking lockfile: %s [%d]: %s\n"
          [.str path, .num e.code, .strerror e']
        let _ ← close fd
        return (.error e' : Except Errno Fd)) (.opened fd) :=
    fun e e' => ⟨rfl, fun _ => ⟨rfl, fun _ => Or.inr ⟨_, rfl⟩⟩⟩
  induction retries with
  | zero =>
      rw [acquireRetry, flock_bind]
      refine ⟨rfl, fun r => ?_⟩
      cases r with
      | ok u => exact ⟨rfl, fun _ => Or.inl ⟨rfl, rfl⟩⟩
      | error e =>
          dsimp only
          split
          · exact hfail e e
          · rw [if_pos rfl]
            exact hfail e etimedout
  | succ n ih =>
      rw [acquireRetry, flock_bind]
      refine ⟨rfl, fun r => ?_⟩
      cases r with
      | ok u => exact ⟨rfl, fun _ => Or.inl ⟨rfl, rfl⟩⟩
      | error e =>
          dsimp only
          split
          · exact hfail e e
          · rw [if_neg (Nat.succ_ne_zero n)]
            exact ⟨rfl, fun _ => ih⟩

theorem monitored_acquireLockfile :
    Monitored lockMonitor
      (fun m r => (∃ fd, r = .ok fd ∧ m = .inside fd) ∨ (∃ e, r = .error e))
      (acquireLockfile NVRAM_LOCKFILE) .outside := by
  simp only [acquireLockfile, openLock_bind]
  refine ⟨rfl, fun r => ?_⟩
  cases r with
  | error e => exact ⟨rfl, fun _ => Or.inr ⟨e, rfl⟩⟩
  | ok fd =>
      refine (monitored_acquireRetry NVRAM_LOCKFILE fd 9).mono fun m r h => ?_
      rcases h with ⟨hr, hm⟩ | herror
      · exact Or.inl ⟨fd, hr, hm⟩
      · exact Or.inr herror

theorem monitored_releaseLockfile (fd : Fd) :
    Monitored lockMonitor (fun _ _ => True) (releaseLockfile NVRAM_LOCKFILE (some fd))
      (.inside fd) := by
  simp only [releaseLockfile, close_bind]
  refine ⟨rfl, fun r => ?_⟩
  cases r with
  | error e => exact ⟨rfl, fun _ => trivial⟩
  | ok u =>
      refine ⟨rfl, fun r => ?_⟩
      cases r with
      | error e => exact ⟨rfl, fun _ => trivial⟩
      | ok u => exact ⟨rfl, fun _ => trivial⟩

section

variable (lib : Libnvram) (crc32 : Bytes → UInt32) (cfg : BuildConfig) (env : Environ)

theorem monitored_session {format : NvramFormat} (F : format.Frame) (interface : Interface)
    (interfaceName formatName : CString) (opts : Opts) :
    Monitored lockMonitor (fun _ _ => True)
      (session lib cfg env format interface interfaceName formatName opts) .outside := by
  have hcloses : ∀ (done : AtExit format) (r : Except Errno Unit) (m : LockPhase),
      (∀ n ∈ done.nvramSystem, F.On interface (SystemReach cfg env interfaceName opts) n) →
      (∀ n ∈ done.nvramUser, F.On interface (UserReach cfg env interfaceName opts) n) →
      Monitored lockMonitor (fun _ _ => True) (do
        format.close done.nvramSystem
        format.close done.nvramUser
        return r) m := by
    intro done r m hsystem huser
    have hclose := admits_closes cfg env interfaceName opts interface F hsystem huser r
    exact (hclose.monitored fun _ ho => lockMonitor_of_not_lock m ho.2.2.2).mono
      fun _ _ _ => trivial
  have hnone : ∀ (r : Except Errno Unit) (m : LockPhase),
      Monitored lockMonitor (fun _ _ => True) (exitClose format none ⟨r, none, none⟩) m := by
    intro r m
    refine monitored_seq (monitored_inner (inner_exitRelease r) m) fun m' r' _ => ?_
    exact hcloses ⟨r', none, none⟩ r' m' (fun _ h => (by cases h)) fun _ h => (by cases h)
  unfold session
  iterate 6
    rw [prDbg_bind]
    refine ⟨rfl, fun _ => ?_⟩
  refine monitored_seq (monitored_inner (inner_validateOperations cfg env _ _) .outside)
    fun m r hm => ?_
  obtain ⟨rfl, -⟩ := hm
  cases r with
  | error e => exact hnone _ _
  | ok u =>
      refine monitored_seq monitored_acquireLockfile fun m r hm => ?_
      rcases hm with ⟨fd, rfl, rfl⟩ | ⟨e, rfl⟩
      · have hlocked := admits_withLock lib cfg env interfaceName opts interface F
        refine monitored_seq
          (hlocked.monitored fun _ ho => lockMonitor_of_not_lock (.inside fd) ho.2.2.2)
          fun m done hm => ?_
        obtain ⟨rfl, hsystem, huser⟩ := hm
        have hrelease : Monitored lockMonitor (fun _ _ => True)
            (exitRelease done.r (some fd)) (.inside fd) := by
          refine monitored_seq (monitored_releaseLockfile fd) fun m r _ => ?_
          cases done.r <;> trivial
        exact monitored_seq hrelease fun m r _ => hcloses done r m hsystem huser
      · exact hnone _ _

/-- `main` issues its calls on the lockfile in order. -/
theorem monitored_main (args : List CString) :
    Monitored lockMonitor (fun _ _ => True) (main lib crc32 cfg env args) .outside := by
  have hinner : ∀ o, Call.Inner o → lockMonitor.allows .outside o ∧
      ∀ r, lockMonitor.next .outside o r = .outside :=
    fun _ ho => lockMonitor_of_not_lock .outside ho.2.2.1
  refine monitored_main_of_session (Q := fun _ => True) hinner trivial
    fun items interface format _ _ hformat => ?_
  obtain ⟨F⟩ := nvramGetFormat_frame lib crc32 hformat
  exact monitored_session lib cfg env F interface _ _ (finalOpts items)

end

/-! ### The invariant -/

/-- A condition on removals that can be decided for each path can be decided for a call. -/
def Call.decideUnlink (o : Call) (P : CString → Prop) [∀ path, Decidable (P path)] :
    Decidable (match o with
      | .unlink path => P path
      | _ => True) := by
  cases o with
  | unlink path => exact inferInstanceAs (Decidable (P path))
  | _ => exact isTrue trivial

/-- The name is not removed while another process has its inode open. -/
def Undisturbed {I : Type} (fs : LockFs I) (i : I) : Call → Prop
  | .unlink path => ∀ d ∈ fs.opened, d.owner ≠ i → fs.binding path ≠ some d.inode
  | _ => True

section

variable {I : Type}

instance [DecidableEq I] (fs : LockFs I) (i : I) (o : Call) : Decidable (Undisturbed fs i o) :=
  o.decideUnlink fun path => ∀ d ∈ fs.opened, d.owner ≠ i → fs.binding path ≠ some d.inode

/-- Every open descriptor is on the inode that the name is bound to, one descriptor at most
holds a lock of it, and the phases are what the descriptors say. -/
structure Exclusive (ms : I → LockPhase) (fs : LockFs I) : Prop where
  bound : ∀ d ∈ fs.opened, fs.binding NVRAM_LOCKFILE = some d.inode
  single : ∀ d ∈ fs.opened, ∀ d' ∈ fs.opened, d.locked = true → d'.locked = true →
    d.owner = d'.owner
  owned : ∀ d ∈ fs.opened, ms d.owner = .opened d.fd ∨ ms d.owner = .inside d.fd
  holds : ∀ i fd, ms i = .inside fd → ∃ d ∈ fs.opened, d.owner = i ∧ d.locked = true

theorem Exclusive.inside_eq {ms : I → LockPhase} {fs : LockFs I} (h : Exclusive ms fs) {i j : I}
    (hi : (ms i).Inside) (hj : (ms j).Inside) : i = j := by
  have hholds : ∀ i, (ms i).Inside → ∃ d ∈ fs.opened, d.owner = i ∧ d.locked = true := by
    intro i hi
    cases hm : ms i with
    | inside fd => exact h.holds i fd hm
    | _ =>
        rw [hm] at hi
        cases hi
  obtain ⟨d, hd, rfl, hlocked⟩ := hholds i hi
  obtain ⟨d', hd', rfl, hlocked'⟩ := hholds j hj
  exact h.single d hd d' hd' hlocked hlocked'

/-- A process with no descriptor changes its phase. -/
theorem Exclusive.move [DecidableEq I] {ms : I → LockPhase} {fs : LockFs I} (h : Exclusive ms fs)
    {i : I} {m : LockPhase} (hnone : ∀ d ∈ fs.opened, d.owner ≠ i) (hm : ¬ m.Inside) :
    Exclusive (Function.update ms i m) fs where
  bound := h.bound
  single := h.single
  owned d hd := by
    rw [Function.update_of_ne (hnone d hd)]
    exact h.owned d hd
  holds j fd hj := by
    by_cases hji : j = i
    · subst hji
      rw [Function.update_self] at hj
      exact absurd (hj ▸ trivial : m.Inside) hm
    · rw [Function.update_of_ne hji] at hj
      exact h.holds j fd hj

variable [DecidableEq I] {ms : I → LockPhase} {fs t : LockFs I} {i : I}

theorem Exclusive.openPath (h : Exclusive ms fs) (hphase : ms i = .outside) (fd : Fd) :
    Exclusive (Function.update ms i (.opened fd)) (fs.openPath i NVRAM_LOCKFILE fd) := by
  have hnone : ∀ d ∈ fs.opened, d.owner ≠ i := by
    rintro d hd rfl
    rcases h.owned d hd with hm | hm <;> rw [hphase] at hm <;> cases hm
  have hmoved := h.move hnone (m := .opened fd) id
  obtain ⟨inode, hbinding, hopened, hold⟩ := fs.openPath_spec i NVRAM_LOCKFILE fd
  refine ⟨?_, ?_, ?_, ?_⟩
  · intro d hd
    rw [hbinding]
    rw [hopened] at hd
    rcases List.mem_cons.mp hd with rfl | hd
    · rfl
    · rw [hold _ (h.bound d hd)]
  · intro d hd d' hd' hlocked hlocked'
    rw [hopened] at hd hd'
    rcases List.mem_cons.mp hd with rfl | hd
    · cases hlocked
    · rcases List.mem_cons.mp hd' with rfl | hd'
      · cases hlocked'
      · exact h.single d hd d' hd' hlocked hlocked'
  · intro d hd
    rw [hopened] at hd
    rcases List.mem_cons.mp hd with rfl | hd
    · exact Or.inl (Function.update_self i _ ms)
    · exact hmoved.owned d hd
  · intro j fd' hj
    obtain ⟨d, hd, howner, hlocked⟩ := hmoved.holds j fd' hj
    rw [hopened]
    exact ⟨d, List.mem_cons_of_mem _ hd, howner, hlocked⟩

theorem Exclusive.lock (h : Exclusive ms fs) {fd : Fd} (hphase : ms i = .opened fd)
    {d : LockDescriptor I} (hd : d ∈ fs.opened) (howner : d.owner = i)
    (hfree : ¬ fs.HeldByOther d) :
    Exclusive (Function.update ms i (.inside fd)) (fs.lock d) := by
  -- no other descriptor is locked, since all are on one inode
  have hothers : ∀ d' ∈ fs.opened, d'.locked = true → d' = d := by
    intro d' hd' hlocked
    by_contra hne
    have hinode : some d'.inode = some d.inode := (h.bound d' hd').symm.trans (h.bound d hd)
    exact hfree ⟨d', hd', Option.some.inj hinode, hlocked, hne⟩
  have hsource : ∀ d' ∈ (fs.lock d).opened, ∃ d₀ ∈ fs.opened, d'.owner = d₀.owner ∧
      d'.fd = d₀.fd ∧ d'.inode = d₀.inode ∧ (d'.locked = true → d₀ = d) := by
    intro d' hd'
    obtain ⟨d₀, hd₀, rfl⟩ := List.mem_map.mp hd'
    refine ⟨d₀, hd₀, ?_⟩
    by_cases heq : d₀ = d
    · subst heq
      simp
    · rw [if_neg heq]
      exact ⟨rfl, rfl, rfl, fun hlocked => hothers d₀ hd₀ hlocked⟩
  refine ⟨?_, ?_, ?_, ?_⟩
  · intro d' hd'
    obtain ⟨d₀, hd₀, _, _, hinode, _⟩ := hsource d' hd'
    rw [hinode]
    exact h.bound d₀ hd₀
  · intro d₁ hd₁ d₂ hd₂ hlocked₁ hlocked₂
    obtain ⟨d₁', _, howner₁, _, _, heq₁⟩ := hsource d₁ hd₁
    obtain ⟨d₂', _, howner₂, _, _, heq₂⟩ := hsource d₂ hd₂
    rw [howner₁, howner₂, heq₁ hlocked₁, heq₂ hlocked₂]
  · intro d' hd'
    obtain ⟨d₀, hd₀, howner', hfd, _, _⟩ := hsource d' hd'
    rw [howner', hfd]
    by_cases hi : d₀.owner = i
    · rw [hi, Function.update_self]
      rcases h.owned d₀ hd₀ with hm | hm <;> rw [hi, hphase] at hm <;> cases hm
      exact Or.inr rfl
    · rw [Function.update_of_ne hi]
      exact h.owned d₀ hd₀
  · intro j fd' hj
    by_cases hji : j = i
    · refine ⟨{ d with locked := true }, ?_, howner.trans hji.symm, rfl⟩
      exact List.mem_map.mpr ⟨d, hd, if_pos rfl⟩
    · rw [Function.update_of_ne hji] at hj
      obtain ⟨d', hd', howner', hlocked⟩ := h.holds j fd' hj
      rw [hothers d' hd' hlocked, howner] at howner'
      exact absurd howner'.symm hji

theorem Exclusive.closeFd (h : Exclusive ms fs) {fd : Fd}
    (hphase : ms i = .opened fd ∨ ms i = .inside fd) {m : LockPhase} (hm : ¬ m.Inside) :
    Exclusive (Function.update ms i m) (fs.closeFd i fd) := by
  have hleft : ∀ d ∈ (fs.closeFd i fd).opened, d ∈ fs.opened ∧ d.owner ≠ i := by
    intro d hd
    obtain ⟨hd, hkept⟩ := List.mem_filter.mp hd
    refine ⟨hd, fun howner => ?_⟩
    have hfd : d.fd = fd := by
      have howned := h.owned d hd
      rw [howner] at howned
      rcases hphase with hp | hp <;> rw [hp] at howned <;> simpa [eq_comm] using howned
    simp [howner, hfd] at hkept
  refine ⟨fun d hd => h.bound d (hleft d hd).1, fun d hd d' hd' => ?_, fun d hd => ?_,
    fun j fd' hj => ?_⟩
  · exact h.single d (hleft d hd).1 d' (hleft d' hd').1
  · rw [Function.update_of_ne (hleft d hd).2]
    exact h.owned d (hleft d hd).1
  · by_cases hji : j = i
    · subst hji
      rw [Function.update_self] at hj
      exact absurd (hj ▸ trivial : m.Inside) hm
    · rw [Function.update_of_ne hji] at hj
      obtain ⟨d, hd, rfl, hlocked⟩ := h.holds j fd' hj
      exact ⟨d, List.mem_filter.mpr ⟨hd, by simp [hji]⟩, rfl, hlocked⟩

/-- One call of one process, at a point where no name is removed under another one. -/
theorem Exclusive.step (h : Exclusive ms fs) {o : Call} {r : Call.Res o}
    (hallows : lockMonitor.allows (ms i) o) (hok : Undisturbed fs i o)
    (hstep : fs.Step i o r t) :
    Exclusive (Function.update ms i (lockMonitor.next (ms i) o r)) t := by
  by_cases hlock : o.isLock = false
  · have ht : t = fs := by
      cases o <;> first | exact hstep | cases hlock
    rw [(lockMonitor_of_not_lock (ms i) hlock).2 r, Function.update_eq_self, ht]
    exact h
  · cases o with
    | openLock path =>
        cases hm : ms i <;> rw [hm] at hallows <;> cases hallows
        cases r with
        | error e =>
            obtain rfl : t = fs := hstep
            show Exclusive (Function.update ms i .outside) t
            rw [← hm, Function.update_eq_self]
            exact h
        | ok fd =>
            obtain ⟨-, rfl⟩ := hstep
            exact h.openPath hm fd
    | flock fd =>
        cases hm : ms i <;> rw [hm] at hallows <;> cases hallows
        cases r with
        | error e =>
            obtain ⟨-, rfl⟩ := hstep
            show Exclusive (Function.update ms i (.opened fd)) t
            rw [← hm, Function.update_eq_self]
            exact h
        | ok u =>
            obtain ⟨d, hd, howner, -, hfree, rfl⟩ := hstep
            exact h.lock hm hd howner hfree
    | close fd =>
        obtain rfl : t = fs.closeFd i fd := hstep
        cases hm : ms i <;> rw [hm] at hallows <;> cases hallows
        · exact h.closeFd (Or.inl hm) id
        · exact h.closeFd (Or.inr hm) id
    | unlink path =>
        cases hm : ms i <;> rw [hm] at hallows <;> cases hallows
        have hnone : ∀ d ∈ fs.opened, d.owner ≠ i := by
          rintro d hd rfl
          rcases h.owned d hd with hm' | hm' <;> rw [hm] at hm' <;> cases hm'
        have hmoved := h.move hnone (m := .released) id
        cases r with
        | error e =>
            obtain rfl : t = fs := hstep
            exact hmoved
        | ok u =>
            obtain ⟨-, rfl⟩ := hstep
            refine ⟨fun d hd => ?_, hmoved.single, hmoved.owned, hmoved.holds⟩
            exact absurd (h.bound d hd) (hok d hd (hnone d hd))
    | _ => exact absurd rfl hlock

end

/-! ### Runs of any number of processes -/

section

variable {I : Type} [DecidableEq I] (lib : Libnvram) (crc32 : Bytes → UInt32) (cfg : BuildConfig)

/-- Every process is about to run `main` with its own environment and arguments. -/
def lockPool (procs : I → Environ × List CString) (fs : LockFs I) :
    Pool callSig ℕ I LockPhase (LockFs I) where
  prog i := main lib crc32 cfg (procs i).1 (procs i).2
  mon _ := .outside
  shared := fs

/-- In a run in which no process removes the name while another one has its inode open, at
most one process is inside in every state reached. -/
theorem lockPool_inside_eq {procs : I → Environ × List CString} {fs : LockFs I}
    (hfs : fs.opened = []) {c : Pool callSig ℕ I LockPhase (LockFs I)}
    (h : Pool.Reach lockMonitor (lockShared I) Undisturbed
      (lockPool lib crc32 cfg procs fs) c) :
    ∀ i j, (c.mon i).Inside → (c.mon j).Inside → i = j := by
  have hinit : Exclusive (fun _ : I => LockPhase.outside) fs :=
    ⟨by simp [hfs], by simp [hfs], by simp [hfs], fun i fd hi => by cases hi⟩
  have hinv := h.invariant
    (fun i => monitored_main lib crc32 cfg (procs i).1 (procs i).2) hinit
    fun ms s i o r t hs hallows hok hstep => hs.step hallows hok hstep
  exact fun i j hi hj => hinv.1.inside_eq hi hj

/-- An outside that grants what can be granted. -/
def grantingOutside (i : I) : Handler callSig (LockFs I)
  | .openLock path, fs =>
    if ∃ d ∈ fs.opened, d.owner = i ∧ d.fd = 3 then (.error eacces, fs)
    else (.ok 3, fs.openPath i path 3)
  | .flock fd, fs =>
    match fs.opened.find? fun d => d.owner = i ∧ d.fd = fd with
    | none => (.error ebadf, fs)
    | some d => if fs.HeldByOther d then (.error ewouldblock, fs) else (.ok (), fs.lock d)
  | .close fd, fs => (.ok (), fs.closeFd i fd)
  | .unlink path, fs =>
    if (fs.binding path).isSome then (.ok (), fs.unlinkPath path) else (.error enoent, fs)
  | o, fs => ((obliging o ()).1, fs)

theorem grantingOutside_step (i : I) (fs : LockFs I) (o : Call) :
    (lockShared I).step i fs o (grantingOutside i o fs).1 (grantingOutside i o fs).2 := by
  cases o with
  | openLock path =>
      simp only [grantingOutside]
      split
      · rfl
      · rename_i hfree
        exact ⟨fun d hd hdi => hfree ⟨d, hd, hdi⟩, rfl⟩
  | flock fd =>
      simp only [grantingOutside]
      split
      · exact ⟨fun h => (by cases h), rfl⟩
      · rename_i d hfind
        have hd : d ∈ fs.opened := List.mem_of_find?_eq_some hfind
        have howner : d.owner = i ∧ d.fd = fd := by simpa using List.find?_some hfind
        split
        · rename_i hheld
          exact ⟨fun _ => ⟨d, hd, howner.1, howner.2, hheld⟩, rfl⟩
        · rename_i hfree
          exact ⟨d, hd, howner.1, howner.2, hfree, rfl⟩
  | close fd => rfl
  | unlink path =>
      simp only [grantingOutside]
      split
      · rename_i hbound
        exact ⟨hbound, rfl⟩
      · rfl
  | _ => rfl

end

def emptyLockFs (I : Type) : LockFs I := ⟨fun _ => none, 0, []⟩

def samplePool : Pool callSig ℕ (Fin 3) LockPhase (LockFs (Fin 3)) :=
  lockPool plainLibnvram zlibCrc32 sampleConfig (fun _ => (fun _ => none, []))
    (emptyLockFs (Fin 3))

/-- The pool after a schedule. -/
def sampleRun (schedule : List (Fin 3)) : Pool callSig ℕ (Fin 3) LockPhase (LockFs (Fin 3)) :=
  schedule.foldl (Pool.advance lockMonitor grantingOutside) samplePool

/-- One process runs up to the removal of the name and the next one takes the lock after it. -/
theorem lockPool_inside_eq_sample :
    ((sampleRun (List.replicate 43 0 ++ List.replicate 10 1)).mon 1).Inside ∧
      ∀ i j, ((sampleRun (List.replicate 43 0 ++ List.replicate 10 1)).mon i).Inside →
        ((sampleRun (List.replicate 43 0 ++ List.replicate 10 1)).mon j).Inside → i = j :=
  ⟨by decide +kernel, lockPool_inside_eq plainLibnvram zlibCrc32 sampleConfig
    (show (emptyLockFs (Fin 3)).opened = [] from rfl)
    (Pool.reach_foldl_advance grantingOutside_step _ (by decide +kernel))⟩

/-- Process 0 has given up the lock; process 1 locks the inode that the name is still bound
to; process 0 removes the name; process 2 locks a fresh inode. -/
theorem two_processes_inside :
    ∃ c, Pool.Reach lockMonitor (lockShared (Fin 3)) (fun _ _ _ => True) samplePool c ∧
      (c.mon 1).Inside ∧ (c.mon 2).Inside := by
  refine ⟨sampleRun (List.replicate 42 0 ++ List.replicate 10 1 ++ [0] ++ List.replicate 10 2),
    Pool.reach_foldl_advance grantingOutside_step _ (by decide +kernel), ?_, ?_⟩
  · decide +kernel
  · decide +kernel

end Nvram
