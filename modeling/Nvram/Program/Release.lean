import Nvram.Program.Exclusion

/-!
# The status after the release of the lock

The exit of `main` gives up the lock, removes the lockfile and returns an error of either.  A
process that opened the file before it was removed can remove the name first; then the removal
of the other one fails after its work was done.  Where every removal finds the name, a process
whose `execute_operations` returned 0 exits with 0.
-/

namespace Nvram

open Effects Errno

/-! ### The exit -/

/-- `close` and `unlink` succeed. -/
def ReleaseGranted : (o : Call) → Call.Res o → Prop
  | .close _, r => r = .ok ()
  | .unlink _, r => r = .ok ()
  | _, _ => True

/-- An `unlink` that failed. -/
def isRemovalFailure : CallEvent → Bool
  | ⟨.unlink _, .error _⟩ => true
  | _ => false

/-- The release returns 0 if both calls succeed, and an error if the removal fails. -/
theorem runs_releaseLockfile {path : CString} {fd : Fd} {evs : List CallEvent}
    {r : Except Errno Unit} (h : Runs (releaseLockfile path (some fd)) evs r) :
    ((∀ ev ∈ evs, ReleaseGranted ev.op ev.res) → r = .ok ()) ∧
      ((∃ ev ∈ evs, isRemovalFailure ev = true) → ∃ e, r = .error e) := by
  have hgranted : Under ReleaseGranted (fun r => r = .ok ()) (releaseLockfile path (some fd)) := by
    rw [releaseLockfile, close_bind]
    intro closed hclosed
    obtain rfl : closed = .ok () := hclosed
    simp only [unlink_bind]
    intro removed hremoved
    obtain rfl : removed = .ok () := hremoved
    exact fun _ _ => rfl
  refine ⟨fun hevs => under_iff_runs.mp hgranted evs r h hevs, fun hfailure => ?_⟩
  obtain ⟨ev, hev, hfailure⟩ := hfailure
  rw [releaseLockfile, close_bind] at h
  obtain ⟨closed, evs₁, rfl, hafter⟩ := runs_op_iff.mp h
  cases closed with
  | error e =>
      obtain ⟨_, evs₂, rfl, hend⟩ := runs_op_iff.mp hafter
      exact ⟨e, (runs_ret_iff.mp hend).2⟩
  | ok u =>
      simp only [unlink_bind] at hafter
      obtain ⟨removed, evs₂, rfl, hend⟩ := runs_op_iff.mp hafter
      cases removed with
      | error e =>
          obtain ⟨_, evs₃, rfl, hret⟩ := runs_op_iff.mp hend
          exact ⟨e, (runs_ret_iff.mp hret).2⟩
      | ok u =>
          obtain ⟨_, evs₃, rfl, hret⟩ := runs_op_iff.mp hend
          obtain ⟨rfl, -⟩ := runs_ret_iff.mp hret
          simp only [List.mem_cons, List.not_mem_nil, or_false] at hev
          rcases hev with rfl | rfl | rfl
          · cases hfailure
          · cases hfailure
          · cases hfailure

section

variable (lib : Libnvram) (crc32 : Bytes → UInt32) (cfg : BuildConfig)

/-- `main` is at its label `exit`, with the lock and with `r` 0: `execute_operations` has
returned 0. -/
def ExecutionSucceeded (p : NProg ℕ) : Prop :=
  ∃ name format fdLock nvramSystem nvramUser,
    nvramGetFormat lib crc32 cfg name = some format ∧
    p = (do return exitStatus (← exitClose format (some fdLock) ⟨.ok (), nvramSystem, nvramUser⟩))

variable {lib crc32 cfg}

/-- From there the status is 0 if the release succeeds, and not 0 if the removal fails. -/
theorem runs_of_executionSucceeded {p : NProg ℕ} (hp : ExecutionSucceeded lib crc32 cfg p)
    {evs : List CallEvent} {code : ℕ} (h : Runs p evs code) :
    ((∀ ev ∈ evs, ReleaseGranted ev.op ev.res) → code = 0) ∧
      ((∃ ev ∈ evs, isRemovalFailure ev = true) → code ≠ 0) := by
  obtain ⟨name, format, fd, system, user, hformat, rfl⟩ := hp
  obtain ⟨evs, evsRet, r, rfl, hexit, hret⟩ := runs_bind_iff.mp h
  obtain ⟨rfl, rfl⟩ := runs_ret_iff.mp hret
  rw [List.append_nil]
  obtain ⟨evsRelease, evsClose, r', rfl, hrelease, hclose⟩ := runs_bind_iff.mp hexit
  obtain ⟨evs₁, rest, u, rfl, hsystem, hclose⟩ := runs_bind_iff.mp hclose
  obtain ⟨evs₂, evsRet, u', rfl, huser, hret⟩ := runs_bind_iff.mp hclose
  obtain ⟨rfl, rfl⟩ := runs_ret_iff.mp hret
  have hclosed : ∀ nvram, Confined (fun o : Call => o.isLock = false) (fun _ => True)
      (format.close nvram) := confined_close lib crc32 (fun _ _ => rfl) hformat
  -- the closes are silent about the lockfile
  have hquiet : ∀ ev ∈ evs₁ ++ (evs₂ ++ []), isRemovalFailure ev = false := by
    have hlock : ∀ ev ∈ evs₁ ++ (evs₂ ++ []), ev.op.isLock = false := by
      intro ev hev
      rw [List.append_nil] at hev
      rcases List.mem_append.mp hev with hev | hev
      · exact ((hclosed system).runs hsystem).1 ev hev
      · exact ((hclosed user).runs huser).1 ev hev
    rintro ⟨o, r⟩ hev
    have ho := hlock _ hev
    cases o with
    | unlink path => cases ho
    | _ => rfl
  have hresult : Runs (releaseLockfile NVRAM_LOCKFILE (some fd)) evsRelease r := by
    obtain ⟨evs₁, evs₂, r₁, rfl, hrun, hret⟩ := runs_bind_iff.mp hrelease
    obtain ⟨rfl, rfl⟩ := runs_ret_iff.mp hret
    rwa [List.append_nil]
  obtain ⟨hgranted, hfailed⟩ := runs_releaseLockfile hresult
  refine ⟨fun hevs => ?_, fun hfailure => ?_⟩
  · rw [hgranted fun ev hev => hevs ev (List.mem_append_left _ hev)]
    rfl
  · obtain ⟨ev, hev, hfailure⟩ := hfailure
    rcases List.mem_append.mp hev with hev | hev
    · obtain ⟨e, rfl⟩ := hfailed ⟨ev, hev, hfailure⟩
      exact e.pos.ne'
    · rw [hquiet ev hev] at hfailure
      cases hfailure

end

/-! ### Processes that share the lockfile -/

section

variable {I : Type} [DecidableEq I]

/-- A directory in which closing succeeds, and removing a name that is there. -/
def LockFs.Grants (fs : LockFs I) : (o : Call) → Call.Res o → Prop
  | .close _, r => r = .ok ()
  | .unlink path, r => (fs.binding path).isSome = true → r = .ok ()
  | _, _ => True

def grantedShared (I : Type) [DecidableEq I] : Shared callSig I (LockFs I) where
  step i fs o r t := fs.Step i o r t ∧ fs.Grants o r

/-- A removal finds the name. -/
def FindsName (fs : LockFs I) (_ : I) : Call → Prop
  | .unlink path => (fs.binding path).isSome = true
  | _ => True

instance (fs : LockFs I) (i : I) (o : Call) : Decidable (FindsName fs i o) :=
  o.decideUnlink fun path => (fs.binding path).isSome = true

/-- Process `i` finds the name when it removes it. -/
def OwnFindsName (i : I) (fs : LockFs I) (j : I) (o : Call) : Prop := j = i → FindsName fs j o

instance (i : I) (fs : LockFs I) (j : I) (o : Call) : Decidable (OwnFindsName i fs j o) :=
  inferInstanceAs (Decidable (_ → _))

omit [DecidableEq I] in
theorem LockFs.Grants.releaseGranted {fs : LockFs I} {i : I} {o : Call} {r : Call.Res o}
    (hok : FindsName fs i o) (h : fs.Grants o r) : ReleaseGranted o r := by
  cases o with
  | close fd => exact h
  | unlink path => exact h hok
  | _ => trivial

theorem LockFs.Step.isRemovalFailure {fs t : LockFs I} {i : I} {o : Call} {r : Call.Res o}
    (hno : ¬ FindsName fs i o) (h : fs.Step i o r t) : isRemovalFailure ⟨o, r⟩ = true := by
  cases o with
  | unlink path =>
      cases r with
      | ok u => exact absurd h.1 hno
      | error e => rfl
  | _ => exact absurd trivial hno

variable (lib : Libnvram) (crc32 : Bytes → UInt32) (cfg : BuildConfig)

/-- A process whose `execute_operations` returned 0 exits with 0 in every run in which its own
removal of the lockfile finds the name, whatever the others do; and where its removal does
not, it exits with another status. -/
theorem lockPool_status_after_success {c : Pool callSig ℕ I LockPhase (LockFs I)} {i : I}
    (hi : ExecutionSucceeded lib crc32 cfg (c.prog i)) :
    (∀ c', Pool.Reach lockMonitor (grantedShared I) (OwnFindsName i) c c' →
      ∀ code, c'.prog i = .ret code → code = 0) ∧
    (∀ c₁, Pool.Reach lockMonitor (grantedShared I) (fun _ _ _ => True) c c₁ →
      ∀ o k r t, c₁.prog i = .op o k → ¬ FindsName c₁.shared i o →
        (grantedShared I).step i c₁.shared o r t →
        ∀ c₂, Pool.Reach lockMonitor (grantedShared I) (fun _ _ _ => True)
            (c₁.resume lockMonitor i o r (k r) t) c₂ →
          ∀ code, c₂.prog i = .ret code → code ≠ 0) := by
  refine ⟨?_, ?_⟩
  · intro c' hreach code hcode
    have hgranted : ∀ s o r t, OwnFindsName i s i o → (grantedShared I).step i s o r t →
        ReleaseGranted o r := fun s o r t hok hstep => hstep.2.releaseGranted (hok rfl)
    obtain ⟨evs, hleaves, hevs⟩ := hreach.leaves hgranted
    rw [hcode] at hleaves
    exact (runs_of_executionSucceeded hi (leaves_ret_iff.mp hleaves)).1 hevs
  · intro c₁ hreach o k r t hprog hno hstep c₂ hreach₂ code hcode
    obtain ⟨evs₁, hleaves₁, -⟩ := hreach.leaves (A := fun _ _ => True) (i := i)
      fun _ _ _ _ _ _ => trivial
    obtain ⟨evs₂, hleaves₂, -⟩ := hreach₂.leaves (A := fun _ _ => True) (i := i)
      fun _ _ _ _ _ _ => trivial
    rw [Pool.resume_prog_self, hcode] at hleaves₂
    rw [hprog] at hleaves₁
    have hruns := leaves_ret_iff.mp (hleaves₁.trans (.op hleaves₂))
    refine (runs_of_executionSucceeded hi hruns).2 ⟨⟨o, r⟩, by simp, ?_⟩
    exact hstep.1.isRemovalFailure hno

end

/-! ### Two processes -/

theorem grantingOutside_grants {I : Type} [DecidableEq I] (i : I) (fs : LockFs I) (o : Call) :
    (grantedShared I).step i fs o (grantingOutside i o fs).1 (grantingOutside i o fs).2 := by
  refine ⟨grantingOutside_step i fs o, ?_⟩
  cases o with
  | close fd => rfl
  | unlink path =>
      intro hbound
      simp only [grantingOutside, if_pos hbound]
  | _ => trivial

/-- Two processes that set a key. -/
def setterPool : Pool callSig ℕ (Fin 2) LockPhase (LockFs (Fin 2)) :=
  lockPool plainLibnvram zlibCrc32 sampleConfig
    (fun _ => (fun _ => none, [lit "set", lit "key", lit "value"])) (emptyLockFs (Fin 2))

/-- The pool after a schedule. -/
def setterRun (schedule : List (Fin 2)) : Pool callSig ℕ (Fin 2) LockPhase (LockFs (Fin 2)) :=
  schedule.foldl (Pool.advance lockMonitor grantingOutside) setterPool

theorem meets_true (schedule : List (Fin 2)) (c : Pool callSig ℕ (Fin 2) LockPhase (LockFs (Fin 2))) :
    Pool.Meets lockMonitor grantingOutside (fun _ _ _ => True) schedule c := by
  induction schedule generalizing c with
  | nil => trivial
  | cons i is ih =>
      refine ⟨?_, ih _⟩
      split
      · trivial
      · trivial

/-- The states along a schedule are reached. -/
theorem reach_setterRun {ok : LockFs (Fin 2) → Fin 2 → Call → Prop} (first rest : List (Fin 2))
    (h : Pool.Meets lockMonitor grantingOutside ok rest (setterRun first)) :
    Pool.Reach lockMonitor (grantedShared (Fin 2)) ok (setterRun first)
      (setterRun (first ++ rest)) := by
  rw [setterRun, setterRun, List.foldl_append]
  exact Pool.reach_foldl_advance grantingOutside_grants rest h

/-- Process 0 has set its key and is about to release the lock. -/
theorem executionSucceeded_setterRun :
    ExecutionSucceeded plainLibnvram zlibCrc32 sampleConfig
      ((setterRun (List.replicate 48 0)).prog 0) :=
  ⟨lit "v2", nvramV2Format plainLibnvram, 3, _, _, rfl, rfl⟩

theorem reach_start (n : ℕ) : Pool.Reach lockMonitor (grantedShared (Fin 2)) (fun _ _ _ => True)
    setterPool (setterRun (List.replicate n 0)) :=
  Pool.reach_foldl_advance grantingOutside_grants _ (meets_true _ _)

/-- Process 0 closes the lockfile, process 1 opens and locks the same file, then process 0
removes the name, and process 1 goes on to its end. -/
def overlapping : List (Fin 2) :=
  [0] ++ List.replicate 20 1 ++ List.replicate 6 0 ++ List.replicate 50 1

set_option maxRecDepth 4000 in
/-- Process 0 exits with 0, although the removal of process 1 finds no name. -/
theorem lockPool_status_after_success_sample :
    (setterRun (List.replicate 48 0 ++ overlapping)).prog 0 = .ret 0 ∧
      (setterRun (List.replicate 48 0 ++ overlapping)).prog 1 = .ret 2 ∧
      ∀ code, (setterRun (List.replicate 48 0 ++ overlapping)).prog 0 = .ret code → code = 0 :=
  ⟨rfl, rfl, (lockPool_status_after_success plainLibnvram zlibCrc32 sampleConfig
    executionSucceeded_setterRun).1 _ (reach_setterRun _ _ (by decide +kernel))⟩

set_option maxRecDepth 4000 in
/-- Process 0 closes the lockfile; process 1 opens the same file, sets its key, and removes
the name; the removal of process 0 fails, and it exits with `ENOENT` although its key is set. -/
theorem success_reported_as_failure :
    ∃ c c', Pool.Reach lockMonitor (grantedShared (Fin 2)) (fun _ _ _ => True) setterPool c ∧
      ExecutionSucceeded plainLibnvram zlibCrc32 sampleConfig (c.prog 0) ∧
      Pool.Reach lockMonitor (grantedShared (Fin 2)) (fun _ _ _ => True) c c' ∧
      c'.prog 0 = .ret 2 :=
  ⟨_, setterRun (List.replicate 48 0 ++ ([0] ++ List.replicate 50 1 ++ List.replicate 6 0)),
    reach_start 48, executionSucceeded_setterRun,
    reach_setterRun _ _ (meets_true _ _), rfl⟩

end Nvram
