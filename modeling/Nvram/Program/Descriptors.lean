import Nvram.Interface.Descriptors
import Nvram.Interface.Layers
import Nvram.Program.Confinement

/-!
# The program closes what it opens

The program on system calls holds the descriptor of the lockfile and, inside the functions of the
interfaces, descriptors of sections and the connection to libmtd.  On every run it works only on
what is open, and in the end everything is closed, however the calls are answered; with the efi
interface each allocation that failed can leave one descriptor open, and the -1 of an open for a
write that failed is closed like a descriptor.
-/

namespace Nvram

open Effects Errno

/-- What the calls of `main` do with the descriptor of the lockfile. -/
def callProtocol : Protocol callSig Held where
  uses
    | .flock fd => some (.fd fd)
    | _ => none
  frees
    | .close fd => some (.fd fd)
    | _ => none
  takes o r :=
    match o, r with
    | .openLock _, .ok fd => some (.fd fd)
    | _, _ => none

/-- What the program holds on system calls. -/
abbrev outerProtocol : Protocol outerSig Held := callProtocol.sum sysProtocol

theorem quiet_of_not_lock {o : Call} (ho : o.isLock = false) : callProtocol.Quiet o := by
  cases o <;> first
    | (cases ho; done)
    | exact ⟨rfl, rfl, fun _ => rfl⟩

/-! ### The lockfile -/

section

variable {M : Type} {mon : Monitor callSig M} {m : M} {F : Fd → M} {Q : M → Prop}

/-- A monitor that sees nothing but the calls on the lockfile: it is enough to look at where it is
acquired and released. -/
theorem monitored_main_of_lock (lib : Libnvram) (crc32 : Bytes → UInt32) (cfg : BuildConfig)
    (env : Environ) (args : List CString)
    (hquiet : ∀ m o, o.isLock = false → mon.allows m o ∧ ∀ r, mon.next m o r = m)
    (hacquire : Monitored mon (fun m r => (∃ fd, r = .ok fd ∧ m = F fd) ∨
      (∃ e, r = .error e) ∧ Q m) (acquireLockfile NVRAM_LOCKFILE) m)
    (hrelease : ∀ fd, Monitored mon (fun m _ => Q m) (releaseLockfile NVRAM_LOCKFILE (some fd))
      (F fd)) (hQ : Q m) :
    Monitored mon (fun m _ => Q m) (main lib crc32 cfg env args) m := by
  have hinner : ∀ {α : Type} {p : NProg α} {R : α → Prop} (m : M), Confined Call.Inner R p →
      Monitored mon (fun m' a => m' = m ∧ R a) p m :=
    fun m hp => hp.monitored fun o ho => hquiet m o ho.2.2.1
  refine monitored_main_of_session (fun o ho => hquiet m o ho.2.2.1) hQ
    fun items interface format _ _ hformat => ?_
  obtain ⟨frame⟩ := nvramGetFormat_frame lib crc32 hformat
  have hcloses : ∀ (done : AtExit format) (r : Except Errno Unit) (m : M), Q m →
      (∀ n ∈ done.nvramSystem, frame.On interface (SystemReach cfg env
        (interfaceNameOf cfg env (finalOpts items)) (finalOpts items)) n) →
      (∀ n ∈ done.nvramUser, frame.On interface (UserReach cfg env
        (interfaceNameOf cfg env (finalOpts items)) (finalOpts items)) n) →
      Monitored mon (fun m _ => Q m) (do
        format.close done.nvramSystem
        format.close done.nvramUser
        return r) m := by
    intro done r m hm hsystem huser
    have hclose := admits_closes cfg env _ (finalOpts items) interface frame hsystem huser r
    refine (hclose.monitored fun o ho => hquiet m o ho.2.2.2).mono fun m' _ h => ?_
    rw [h.1]
    exact hm
  have hnone : ∀ (r : Except Errno Unit) (m : M), Q m →
      Monitored mon (fun m _ => Q m) (exitClose format none ⟨r, none, none⟩) m := by
    intro r m hm
    refine monitored_seq (hinner m (inner_exitRelease r)) fun m' r' h => ?_
    rw [h.1]
    exact hcloses ⟨r', none, none⟩ r' m hm (fun _ h => (by cases h)) fun _ h => (by cases h)
  rw [session_eq]
  refine monitored_seq (hinner m (inner_printResolved _ _ _)) fun m' _ h => ?_
  rw [h.1]
  refine monitored_seq (hinner m (inner_validateOperations cfg env _ _)) fun m' r h => ?_
  rw [h.1]
  cases r with
  | error e => exact hnone _ m hQ
  | ok u =>
      refine monitored_seq hacquire fun m' r hm => ?_
      rcases hm with ⟨fd, rfl, rfl⟩ | ⟨⟨e, rfl⟩, hm⟩
      · have hlocked := admits_withLock lib cfg env (interfaceNameOf cfg env (finalOpts items))
          (finalOpts items) interface frame
        refine monitored_seq (hlocked.monitored fun o ho => hquiet (F fd) o ho.2.2.2)
          fun m' done hm => ?_
        obtain ⟨rfl, hsystem, huser⟩ := hm
        refine monitored_seq (monitored_seq (hrelease fd) fun m' r hm' => ?_)
          fun m' r hm' => hcloses done r m' hm' hsystem huser
        cases done.r <;> exact hm'
      · exact hnone _ m' hm

end

/-- The lock is held on the descriptor that is given back, or it is closed. -/
theorem owns_acquireRetry (path : CString) (fd : Fd) (retries : ℕ) :
    Owns callProtocol {.fd fd}
      (fun left r => r = .ok fd ∧ left = {.fd fd} ∨ (∃ e, r = .error e) ∧ left = 0)
      (acquireRetry path fd (retries + 1)) := by
  have hflock : ∀ h, callProtocol.Touches (.flock fd) h → h ∈ ({.fd fd} : Multiset Held) := by
    rintro h (hh | hh)
    · cases hh
      exact Multiset.mem_singleton_self _
    · cases hh
  have hclose : ∀ h, callProtocol.Touches (.close fd) h → h ∈ ({.fd fd} : Multiset Held) := by
    rintro h (hh | hh)
    · cases hh
    · cases hh
      exact Multiset.mem_singleton_self _
  have hfail : ∀ (e e' : Errno), Owns callProtocol {.fd fd}
      (fun left r => r = .ok fd ∧ left = {.fd fd} ∨ (∃ e, r = .error e) ∧ left = 0) (do
        prErr "failed locking lockfile: %s [%d]: %s\n"
          [.str path, .num e.code, .strerror e']
        let _ ← close fd
        return (.error e' : Except Errno Fd)) := by
    intro e e'
    refine owns_quiet ⟨rfl, rfl, fun _ => rfl⟩ fun _ => ?_
    refine owns_op hclose fun r => owns_ret (Or.inr ⟨⟨e', rfl⟩, ?_⟩)
    exact Multiset.erase_singleton _
  induction retries with
  | zero =>
      rw [acquireRetry, flock_bind]
      refine owns_op hflock fun r => ?_
      cases r with
      | ok u => exact owns_quiet ⟨rfl, rfl, fun _ => rfl⟩ fun _ => owns_ret (Or.inl ⟨rfl, rfl⟩)
      | error e =>
          dsimp only
          split
          · exact hfail e e
          · rw [if_pos rfl]
            exact hfail e etimedout
  | succ n ih =>
      rw [acquireRetry, flock_bind]
      refine owns_op hflock fun r => ?_
      cases r with
      | ok u => exact owns_quiet ⟨rfl, rfl, fun _ => rfl⟩ fun _ => owns_ret (Or.inl ⟨rfl, rfl⟩)
      | error e =>
          dsimp only
          split
          · exact hfail e e
          · rw [if_neg (Nat.succ_ne_zero n)]
            exact owns_quiet ⟨rfl, rfl, fun _ => rfl⟩ fun _ => ih

theorem owns_acquireLockfile :
    Owns callProtocol 0
      (fun left r => (∃ fd, r = .ok fd ∧ left = {.fd fd}) ∨ (∃ e, r = .error e) ∧ left = 0)
      (acquireLockfile NVRAM_LOCKFILE) := by
  simp only [acquireLockfile, openLock_bind]
  refine owns_op (fun h hh => by rcases hh with hh | hh <;> cases hh) fun r => ?_
  cases r with
  | error e =>
      exact owns_quiet ⟨rfl, rfl, fun _ => rfl⟩ fun _ => owns_ret (Or.inr ⟨⟨e, rfl⟩, rfl⟩)
  | ok fd =>
      refine (owns_acquireRetry NVRAM_LOCKFILE fd 9).mono fun left r h => ?_
      exact h.imp_left fun h => ⟨fd, h⟩

theorem owns_releaseLockfile (fd : Fd) :
    Owns callProtocol {.fd fd} (fun left _ => left = 0)
      (releaseLockfile NVRAM_LOCKFILE (some fd)) := by
  simp only [releaseLockfile, close_bind]
  have hquiet : ∀ {o : Call} {k : Call.Res o → NProg (Except Errno Unit)},
      o.isLock = false ∨ o = .unlink NVRAM_LOCKFILE →
      (∀ r, Owns callProtocol 0 (fun left _ => left = 0) (k r)) →
      Owns callProtocol 0 (fun left _ => left = 0) (Prog.op (S := callSig) o k) := by
    rintro o k (ho | rfl) hk
    · exact owns_quiet (quiet_of_not_lock ho) hk
    · exact owns_quiet ⟨rfl, rfl, fun _ => rfl⟩ hk
  refine owns_op (fun h hh => ?_) fun r => ?_
  · rcases hh with hh | hh
    · cases hh
    · cases hh
      exact Multiset.mem_singleton_self _
  · show Owns callProtocol (({.fd fd} : Multiset Held).erase (.fd fd)) _ _
    rw [Multiset.erase_singleton]
    cases r with
    | error e => exact hquiet (Or.inl rfl) fun _ => owns_ret rfl
    | ok u =>
        refine hquiet (Or.inr rfl) fun r => ?_
        cases r with
        | error e => exact hquiet (Or.inl rfl) fun _ => owns_ret rfl
        | ok u => exact hquiet (Or.inl rfl) fun _ => owns_ret rfl

/-- The descriptor of the lockfile is closed in the end. -/
theorem owns_main (lib : Libnvram) (crc32 : Bytes → UInt32) (cfg : BuildConfig) (env : Environ)
    (args : List CString) :
    Monitored callProtocol.monitor (fun held _ => held = 0) (main lib crc32 cfg env args) 0 := by
  refine monitored_main_of_lock (F := fun fd => {.fd fd}) (Q := (· = 0)) lib crc32 cfg env args
    (fun held o ho => ?_) ?_ (fun fd => ?_) rfl
  · exact ⟨(quiet_of_not_lock ho).allows held,
      fun r => Protocol.after_of_quiet (quiet_of_not_lock ho) held r⟩
  · refine (owns_acquireLockfile 0).mono fun held r h => ?_
    obtain ⟨left, rfl, h⟩ := h
    rwa [add_zero]
  · refine (owns_releaseLockfile fd 0).mono fun held r h => ?_
    obtain ⟨left, rfl, rfl⟩ := h
    rfl

/-! ### Every interface function -/

/-- A call of `main` on system calls keeps what the call itself keeps, and can leave a rest. -/
theorem monitored_protocolLayer {i : Interface} {gpio : Option CString} {held left : Multiset Held}
    {o : Call} (hi : ∀ j, o.interface? = some j → j = i)
    (ho : callProtocol.monitor.allows held o) (hleft : Leftover i left) :
    Monitored outerProtocol.monitor
      (fun held' r => ∃ left', held' = left' + callProtocol.after held o r ∧ Leftover i left')
      (interfaceLayer gpio o) (left + held) := by
  have hright : ∀ {o : Call} {p : SysProg (Call.Res o)}, callProtocol.Quiet o →
      Owns sysProtocol 0 (fun left _ => Leftover i left) p →
      Monitored outerProtocol.monitor
        (fun held' r => ∃ left', held' = left' + callProtocol.after held o r ∧ Leftover i left')
        (p.right callSig) (left + held) := by
    intro o p hquiet hp
    have hmonitored := hp.right (L := callProtocol) (left + held)
    rw [zero_add] at hmonitored
    refine hmonitored.mono fun held' r h => ?_
    obtain ⟨more, rfl, hmore⟩ := h
    rw [Protocol.after_of_quiet hquiet]
    exact ⟨more + left, (add_assoc more left held).symm, hmore.add hleft⟩
  have hkept : ∀ {o : Call} (r : Call.Res o), callProtocol.Quiet o → ∃ left',
      left + held = left' + callProtocol.after held o r ∧ Leftover i left' := by
    intro o r hquiet
    rw [Protocol.after_of_quiet hquiet]
    exact ⟨left, rfl, hleft⟩
  have hcall : Monitored outerProtocol.monitor
      (fun held' r => ∃ left', held' = left' + callProtocol.after held o r ∧ Leftover i left')
      (Prog.call (S := outerSig) (.inl o)) (left + held) := by
    refine ⟨fun h hh => Multiset.mem_add.mpr (Or.inr (ho h hh)), fun r => ⟨left, ?_, hleft⟩⟩
    show callProtocol.after (left + held) o r = _
    rw [add_comm left held, Protocol.after_add ho, add_comm]
  cases o with
  | init j path =>
      obtain rfl := hi j rfl
      exact hright (quiet_of_not_lock rfl) (owns_init j gpio path)
  | size j priv =>
      obtain rfl := hi j rfl
      cases priv with
      | none => exact hkept _ (quiet_of_not_lock rfl)
      | some priv => exact hright (quiet_of_not_lock rfl) (owns_size j gpio priv)
  | read j priv n =>
      obtain rfl := hi j rfl
      cases priv with
      | none => exact hkept _ (quiet_of_not_lock rfl)
      | some priv => exact hright (quiet_of_not_lock rfl) (owns_read j gpio priv n)
  | write j priv buf =>
      obtain rfl := hi j rfl
      cases priv with
      | none => exact hkept _ (quiet_of_not_lock rfl)
      | some priv => exact hright (quiet_of_not_lock rfl) (owns_write j gpio priv buf)
  | sectionOf j priv => exact hkept _ (quiet_of_not_lock rfl)
  | destroy j priv => exact hkept _ (quiet_of_not_lock rfl)
  | _ => exact hcall

/-! ### The program -/

/-- The options of the command line select interface `i`. -/
def Selects (cfg : BuildConfig) (env : Environ) (args : List CString) (i : Interface) : Prop :=
  ∃ items, commandLine args = some items ∧
    nvramGetInterface cfg (interfaceNameOf cfg env (finalOpts items)) = some i

theorem Selects.unique {cfg : BuildConfig} {env : Environ} {args : List CString} {i j : Interface}
    (hi : Selects cfg env args i) (hj : Selects cfg env args j) : i = j := by
  obtain ⟨items, hitems, hi⟩ := hi
  obtain ⟨items', hitems', hj⟩ := hj
  obtain rfl := Option.some.inj (hitems.symm.trans hitems')
  exact Option.some.inj (hi.symm.trans hj)

/-- However its calls and system calls are answered, the program locks, reads, writes, erases and
closes only descriptors that are open then, and asks libmtd only while it is open.  The only other
value it closes is a -1 that an open of a variable for a write returned, once for each.  In the end
everything is closed; with the efi interface no more descriptors are left open than allocations
have failed. -/
theorem main_closes_what_it_opens (lib : Libnvram) (crc32 : Bytes → UInt32) (cfg : BuildConfig)
    (defaultGpio : Option CString) (env : Environ) (args : List CString) :
    Monitored outerProtocol.monitor
      (fun held _ => Covered held ∧ (¬ Selects cfg env args .efi → Closed held))
      (mainOnKernel lib crc32 cfg defaultGpio env args) 0 := by
  -- the interface that is selected, if there is one
  obtain ⟨i, hi, hefi⟩ : ∃ i, (∀ j, Selects cfg env args j → j = i) ∧
      (¬ Selects cfg env args .efi → i ≠ .efi) := by
    by_cases h : ∃ i, Selects cfg env args i
    · obtain ⟨i, hi⟩ := h
      exact ⟨i, fun j hj => hj.unique hi, fun hnot heq => hnot (heq ▸ hi)⟩
    · exact ⟨.file, fun j hj => absurd ⟨j, hj⟩ h, fun _ heq => by cases heq⟩
  have hinterface : Confined (fun o : Call => ∀ j, o.interface? = some j → j = i) (fun _ => True)
      (main lib crc32 cfg env args) :=
    confined_main_interface fun items j hitems hj => hi j ⟨items, hitems, hj⟩
  refine (((owns_main lib crc32 cfg env args).only hinterface).interp
    (J := fun held held' => ∃ left, held' = left + held ∧ Leftover i left)
    (fun held held' o ho hJ => ?_) ⟨0, rfl, closed_zero.leftover⟩).mono fun held' _ h => ?_
  · obtain ⟨left, rfl, hleft⟩ := hJ
    exact monitored_protocolLayer ho.2 ho.1 hleft
  · obtain ⟨held, ⟨left, rfl, hleft⟩, rfl⟩ := h
    rw [add_zero]
    exact ⟨hleft.1, fun hnot => hleft.2 (hefi hnot)⟩

end Nvram
