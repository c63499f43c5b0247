import Nvram.Program.Boots
import Nvram.Program.Handles
import Nvram.Interface.Layers
import Nvram.Interface.Stores
import Nvram.Library.Signals

/-!
# The program on a kernel that can fail

The processes with their interfaces take turns at single system calls, each of which can fail or
be cut off, until the power goes.  On a kernel that stores sections an invocation does what it does
on sections that can fail, so that after any number of boots the invocations that got the lock have
settled, one after the other.
-/

namespace Nvram

open Effects Errno

/-! ### Handles -/

section

variable {lib : Libnvram} {crc32 : Bytes → UInt32} {cfg : BuildConfig} {inv : Invocation}
  {i : Interface} {paths : SectionPaths}

/-- Where nothing is set on a side that opened nothing, section calls are made through live
handles, and none is left. -/
theorem monitored_main_handles {env : Environ} {args : List CString}
    (hinactive : (lib.initTransaction [] []).active = ⟨false, false⟩)
    (hremove : ∀ key, lib.listRemove [] key = none)
    (hno : ¬ SetsUnopened lib crc32 cfg env args) :
    Monitored handleMonitor (fun live _ => live = 0) (main lib crc32 cfg env args) 0 := by
  refine monitored_main_of_session (Q := fun live => live = 0) (fun o ho => steady_inner o ho) rfl
    fun items interface format hitems hinterface hformat => ?_
  obtain ⟨C, hlazy⟩ := nvramGetFormat_custody lib crc32 hinactive hformat
  refine monitored_session_handles C _ hremove fun haccepted hsets => hno ?_
  obtain ⟨hisLazy, hset, hA, hB⟩ := hsets
  refine ⟨⟨items, hitems, Option.isSome_of_eq_some hinterface, Option.isSome_of_eq_some hformat,
    ?_⟩, items, hitems, hlazy hisLazy, hset, hA, hB⟩
  rw [← finalOpts_mode]
  exact haccepted

/-- An invocation that keeps to configured sections sets nothing on a side without one. -/
theorem Invocation.KeepsTo.not_setsUnopened (h : inv.KeepsTo lib crc32 cfg i paths.sections) :
    ¬ SetsUnopened lib crc32 cfg inv.env inv.args := by
  rintro ⟨⟨items', hitems', hfound, -⟩, items, hitems, -, -, hA, -⟩
  obtain rfl := Option.some.inj (hitems'.symm.trans hitems)
  obtain ⟨interface, hinterface⟩ := Option.isSome_iff_exists.mp hfound
  obtain rfl := h.interface items' interface hitems hinterface
  have hsections := h.sections items' (finalOpts items').mode.systemWrite hitems hinterface
  rw [sectionsOf] at hsections
  rw [writtenSections, hsections] at hA
  have hconfigured := paths.configuredA (finalOpts items').mode.systemWrite
  simp only [SectionPaths.sections, emptySection, decide_eq_true_eq] at hA
  omega

/-- An invocation that keeps to configured sections makes its section calls through live
handles. -/
theorem Invocation.KeepsTo.monitored_handles (hi : lib.ImageLaws) (ht : lib.TransactionLaws)
    (hl : lib.ListLaws) (h : inv.KeepsTo lib crc32 cfg i paths.sections) :
    Monitored handleMonitor (fun _ _ => True) (main lib crc32 cfg inv.env inv.args) 0 := by
  have hinactive : (lib.initTransaction [] []).active = ⟨false, false⟩ := by
    have hA : (lib.initTransaction [] []).active.a ≠ true :=
      fun ha => hi.empty (ht.activeA [] [] ha).1
    have hB : (lib.initTransaction [] []).active.b ≠ true :=
      fun hb => hi.empty (ht.activeB [] [] hb).1
    generalize (lib.initTransaction [] []).active = active at *
    obtain ⟨a, b⟩ := active
    simp only [ne_eq, Bool.not_eq_true] at hA hB
    rw [hA, hB]
  have hremove : ∀ key, lib.listRemove [] key = none :=
    fun key => hl.listRemove_none [] key Keyed.distinct_nil rfl
  exact (monitored_main_handles hinactive hremove h.not_setsUnopened).mono fun _ _ _ => trivial

end

/-! ### One process -/

/-- The calls of `main` that are none of a section leave what is stored alone. -/
def callWorld (lib : Libnvram) (σ : Type) : World callSig σ where
  step s o r t := Honest lib ⟨fun _ => True, fun _ => True, fun _ => []⟩ o r ∧ t = s
  halt s _ t := t = s

theorem callWorld_private (lib : Libnvram) (σ : Type) (o : Call) :
    (callWorld lib σ).Private o :=
  ⟨fun _ _ _ h => h.2, fun _ _ _ h _ => ⟨h.1, rfl⟩, fun _ _ h => h⟩

/-- What is no section call is answered alike whatever the sections hold. -/
theorem powerStore_step_of_honest {lib : Libnvram} {v : View} {o : Call} (ho : o.accesses = false)
    {r : Call.Res o} (h : Honest lib v o r) (c : Contents) : (powerStore lib).step c o r c := by
  cases o with
  | init i path => cases ho
  | size i priv => cases ho
  | read i priv n => cases ho
  | write i priv buf => cases ho
  | _ => exact ⟨h, rfl⟩

/-- The calls of `main` beside a kernel. -/
abbrev outerWorld (lib : Libnvram) {σ : Type} (K : World sysSig σ) : World outerSig σ :=
  (callWorld lib σ).sum K

/-- System calls are made during the turn of a process. -/
abbrev outerTurn : Monitor outerSig LockTurn := turnMonitor.left sysSig (· = .during)

/-- Live handles of interface `i`, and the turn. -/
abbrev sectionMonitor (i : Interface) : Monitor callSig (Multiset OpenHandle × LockTurn) :=
  (handleMonitor.only fun o => ∀ j, o.interface? = some j → j = i).prod turnMonitor

section

variable {lib : Libnvram} {σ : Type} {K : World sysSig σ} {i : Interface} {gpio : Option CString}
  (S : KernelStore lib (i.impl gpio) K)

/-- The contents are those of the kernel, and every live handle is one of its sections. -/
structure KernelStore.Shows (m : Multiset OpenHandle × LockTurn) (c : Contents × LockTurn)
    (s : σ × LockTurn) : Prop where
  contents : c.1 = S.contents s.1
  above : c.2 = m.2
  below : s.2 = m.2
  handles : ∀ h ∈ m.1, S.Handle h.2

/-- System calls keep the turn. -/
theorem wp_right_outer {α : Type} {Q : α → σ → Prop} {C : σ → Prop} {p : SysProg α}
    {s : σ × LockTurn} (hturn : s.2 = .during) (h : wp K Q C p s.1) :
    wp ((outerWorld lib K).watch outerTurn) (fun a t => Q a t.1 ∧ t.2 = .during) (fun t => C t.1)
      (p.right callSig) s := by
  obtain ⟨s, turn⟩ := s
  obtain rfl : turn = .during := hturn
  exact wp_watch (wp_right h) (monitored_right (· = .during) rfl p)

/-- Every call does on the kernel what it does on sections that can fail. -/
theorem KernelStore.wp_interfaceLayer {m : Multiset OpenHandle × LockTurn} {o : Call}
    {c : Contents × LockTurn} {s : σ × LockTurn} (hallows : (sectionMonitor i).allows m o)
    (hshows : S.Shows m c s) :
    wp ((outerWorld lib K).watch outerTurn)
      (fun r t => ∃ c', ((powerStore lib).watch turnMonitor).step c o r c' ∧
        S.Shows ((sectionMonitor i).next m o r) c' t)
      (fun t => ∃ c', ((powerStore lib).watch turnMonitor).halt c o c' ∧
        c'.1 = S.contents t.1) (interfaceLayer gpio o) s := by
  obtain ⟨live, turn⟩ := m
  obtain ⟨c, turn₁⟩ := c
  obtain ⟨s, turn₂⟩ := s
  obtain ⟨hcontents, habove, hbelow, hhandles⟩ := hshows
  obtain rfl : c = S.contents s := hcontents
  obtain rfl : turn₁ = turn := habove
  obtain rfl : turn₂ = turn₁ := hbelow
  obtain ⟨⟨hhandle, hinterface⟩, hturn⟩ := hallows
  -- a call that is none of a section is passed on
  have hcall : ∀ o : Call, o.accesses = false →
      (∀ r : Call.Res o, handleMonitor.next live o r = live) →
      wp ((outerWorld lib K).watch outerTurn)
        (fun r t => ∃ c', ((powerStore lib).watch turnMonitor).step (S.contents s, turn₂) o r c' ∧
          S.Shows ((sectionMonitor i).next (live, turn₂) o r) c' t)
        (fun t => ∃ c', ((powerStore lib).watch turnMonitor).halt (S.contents s, turn₂) o c' ∧
          c'.1 = S.contents t.1) (Prog.call (S := outerSig) (.inl o)) (s, turn₂) := by
    intro o ho hlive
    refine ⟨fun t ht => ?_, fun r t ht => ?_⟩
    · obtain ⟨t, turn⟩ := t
      obtain ⟨rfl, rfl⟩ : t = s ∧ turn = turn₂ := ht
      exact ⟨(S.contents t, turn), ⟨powerStore_halt_self lib _ o, rfl⟩, rfl⟩
    · obtain ⟨t, turn⟩ := t
      obtain ⟨⟨hhonest, rfl⟩, rfl⟩ : (Honest lib _ o r ∧ t = s) ∧ turn = turn₂.next o r := ht
      refine ⟨(S.contents t, turn₂.next o r), ⟨powerStore_step_of_honest ho hhonest _, rfl⟩,
        rfl, rfl, rfl, ?_⟩
      show ∀ h ∈ handleMonitor.next live o r, S.Handle h.2
      rw [hlive r]
      exact hhandles
  -- a section call that leaves the contents alone
  have hkept : ∀ (o : Call) (p : SysProg (Call.Res o)) (R : Call.Res o → Prop), turn₂ = .during →
      (∀ r, LockTurn.next .during o r = .during) →
      wp K (fun r t => S.contents t = S.contents s ∧ R r) (fun t => S.contents t = S.contents s)
        p s →
      (∀ r, R r → (powerStore lib).step (S.contents s) o r (S.contents s) ∧
        ∀ h ∈ handleMonitor.next live o r, S.Handle h.2) →
      wp ((outerWorld lib K).watch outerTurn)
        (fun r t => ∃ c', ((powerStore lib).watch turnMonitor).step (S.contents s, turn₂) o r c' ∧
          S.Shows ((sectionMonitor i).next (live, turn₂) o r) c' t)
        (fun t => ∃ c', ((powerStore lib).watch turnMonitor).halt (S.contents s, turn₂) o c' ∧
          c'.1 = S.contents t.1) (p.right callSig) (s, turn₂) := by
    rintro o p R rfl hnext hp hR
    refine wp_mono (fun r t ht => ?_) (fun t ht => ?_) (wp_right_outer rfl hp)
    · obtain ⟨⟨hsame, hr⟩, hturn'⟩ := ht
      obtain ⟨hstep, hlive⟩ := hR r hr
      exact ⟨(S.contents s, .during), ⟨hstep, (hnext r).symm⟩, hsame.symm, (hnext r).symm,
        hturn'.trans (hnext r).symm, hlive⟩
    · exact ⟨(S.contents s, .during), ⟨powerStore_halt_self lib _ o, rfl⟩, ht.symm⟩
  cases o with
  | init j path =>
      obtain rfl := hinterface j rfl
      refine hkept _ _ (fun r => ∀ data, r = .ok data → S.Handle ⟨path, data⟩) (hturn rfl)
        (fun _ => rfl) (S.init path s) fun r hr => ⟨⟨fun _ _ => trivial, rfl⟩, ?_⟩
      cases r with
      | error e => exact hhandles
      | ok data =>
          intro h hh
          rcases Multiset.mem_cons.mp hh with rfl | hh
          · exact hr data rfl
          · exact hhandles h hh
  | size j priv =>
      obtain rfl := hinterface j rfl
      cases priv with
      | none => exact hhandle.elim
      | some priv =>
          exact hkept _ _ _ (hturn rfl) (fun _ => rfl) (S.size priv s (hhandles _ hhandle))
            fun r hr => ⟨⟨hr, rfl⟩, hhandles⟩
  | read j priv n =>
      obtain rfl := hinterface j rfl
      cases priv with
      | none => exact hhandle.elim
      | some priv =>
          exact hkept _ _ _ (hturn rfl) (fun _ => rfl) (S.read priv n s (hhandles _ hhandle))
            fun r hr => ⟨⟨hr, rfl⟩, hhandles⟩
  | write j priv buf =>
      obtain rfl := hinterface j rfl
      cases priv with
      | none => exact hhandle.elim
      | some priv =>
          obtain rfl := hturn rfl
          refine wp_mono (fun r t ht => ?_) (fun t ht => ?_)
            (wp_right_outer rfl (S.write priv buf s (hhandles _ hhandle)))
          · exact ⟨(S.contents t.1, .during), ⟨ht.1, rfl⟩, rfl, rfl, ht.2, hhandles⟩
          · exact ⟨(S.contents t.1, .during), ⟨ht, rfl⟩, rfl⟩
  | sectionOf j priv =>
      exact ⟨(S.contents s, turn₂), ⟨⟨trivial, rfl⟩, by cases turn₂ <;> rfl⟩, rfl,
        by cases turn₂ <;> rfl, by cases turn₂ <;> rfl, hhandles⟩
  | destroy j priv =>
      refine ⟨(S.contents s, turn₂), ⟨⟨trivial, rfl⟩, by cases turn₂ <;> rfl⟩, rfl,
        by cases turn₂ <;> rfl, by cases turn₂ <;> rfl, fun h hh => hhandles h ?_⟩
      cases priv with
      | none => exact hh
      | some priv => exact Multiset.mem_of_mem_erase hh
  | _ => exact hcall _ rfl fun _ => rfl

/-- An invocation on a kernel that can fail: wherever it ends or is stopped, both sides hold the
maps as they were, or it is carried out, and it is when it had the lock and returned 0. -/
theorem KernelStore.wp_mainOnKernel {crc32 : Bytes → UInt32} {cfg : BuildConfig}
    {paths : SectionPaths} {inv : Invocation} {maps : Maps} {defaultGpio : Option CString}
    {impl : InterfaceImpl} (S : KernelStore lib impl K) (hi : lib.ImageLaws)
    (ht : lib.TransactionLaws) (hl : lib.ListLaws)
    (hkeeps : inv.KeepsTo lib crc32 cfg i paths.sections)
    (himpl : i.impl (wpGpio inv.env defaultGpio) = impl) {s : σ}
    (hholds : HoldsMaps lib paths (S.contents s) maps)
    (hserial : ∀ system list, Represents list (inv.carriedOut maps system) → Serialises lib list) :
    wp ((outerWorld lib K).watch outerTurn)
      (fun code t => MapsAfter lib paths inv maps (t.2 = .before ∨ code ≠ 0) (S.contents t.1))
      (fun t => MapsAfter lib paths inv maps True (S.contents t.1))
      (mainOnKernel lib crc32 cfg defaultGpio inv.env inv.args) (s, .before) := by
  subst himpl
  have hinterface : Confined _ _ (main lib crc32 cfg inv.env inv.args) :=
    confined_main_interface hkeeps.interface
  have hmonitored := ((hkeeps.monitored_handles hi ht hl).only hinterface).prod
    (turn_main lib crc32 cfg inv.env inv.args)
  have hrefines := wp_interp (J := S.Shows) (D := fun c t => c.1 = S.contents t.1)
    (fun m o c t hallows hshows => S.wp_interfaceLayer hallows hshows) hmonitored
    (wp_main_carriedOut lib crc32 cfg hi ht hl hkeeps hholds hserial)
    (t := (s, .before)) ⟨rfl, rfl, rfl, fun h hh => absurd hh (Multiset.notMem_zero h)⟩
  refine wp_mono (fun code t h => ?_) (fun t h => ?_) hrefines
  · obtain ⟨m, c, hafter, hshows⟩ := h
    have hturn : c.2 = t.2 := hshows.above.trans hshows.below.symm
    rwa [hshows.contents, hturn] at hafter
  · obtain ⟨c, hafter, hcontents⟩ := h
    rwa [hcontents] at hafter

end

/-! ### The lock and the turn -/

/-- The lockfile and the turn, system calls being made during the turn only. -/
abbrev outerMonitor : Monitor outerSig (LockPhase × LockTurn) :=
  storeMonitor.left sysSig fun m => m.2 = .during

theorem storeMonitor_next (m : LockPhase × LockTurn) {o : Call} (ho : o.isLock = false)
    (r : Call.Res o) : storeMonitor.next m o r = m := by
  obtain ⟨phase, turn⟩ := m
  refine Prod.ext ((lockMonitor_of_not_lock phase ho).2 r) ?_
  cases o <;> first
    | (cases ho; done)
    | (cases turn <;> rfl)

/-- The interfaces do not touch the lockfile, and are called during the turn only. -/
theorem monitored_interfaceLayer (gpio : Option CString) (m : LockPhase × LockTurn) (o : Call)
    (hallows : storeMonitor.allows m o) :
    Monitored outerMonitor (fun m' r => m' = storeMonitor.next m o r) (interfaceLayer gpio o) m := by
  have hright : ∀ p : SysProg (Call.Res o), o.accesses = true → o.isLock = false →
      Monitored outerMonitor (fun m' r => m' = storeMonitor.next m o r) (p.right callSig) m := by
    intro p haccesses hlock
    have hduring : m.2 = .during := hallows.2 haccesses
    have hkept : Monitored outerMonitor (fun m' _ => m' = m) (p.right callSig) m :=
      monitored_right (fun m : LockPhase × LockTurn => m.2 = .during) hduring p
    refine hkept.mono fun m' r h => ?_
    rw [storeMonitor_next m hlock]
    exact h
  cases o with
  | init i path => exact hright _ rfl rfl
  | size i priv =>
      cases priv with
      | none => exact (storeMonitor_next m rfl _).symm
      | some priv => exact hright _ rfl rfl
  | read i priv n =>
      cases priv with
      | none => exact (storeMonitor_next m rfl _).symm
      | some priv => exact hright _ rfl rfl
  | write i priv buf =>
      cases priv with
      | none => exact (storeMonitor_next m rfl _).symm
      | some priv => exact hright _ rfl rfl
  | sectionOf i priv => exact (storeMonitor_next m rfl _).symm
  | destroy i priv => exact (storeMonitor_next m rfl _).symm
  | _ => exact ⟨hallows, fun _ => rfl⟩

/-! ### Processes -/

/-- A process is the program with the signals that can end it. -/
abbrev processSig : Sig := outerSig.sum signalSig

/-- What the kernel does with a process that is ended: the descriptor of the lockfile is closed, if
it is open. -/
def closeLock : LockPhase × LockTurn → Option outerSig.Op
  | (.opened fd, _) => some (.inl (.close fd))
  | (.inside fd, _) => some (.inl (.close fd))
  | _ => none

theorem closeLock_eq_some {m : LockPhase × LockTurn} {o : outerSig.Op} (h : closeLock m = some o) :
    ∃ fd, o = .inl (.close fd) ∧ outerMonitor.allows m o := by
  obtain ⟨phase, turn⟩ := m
  have hno : ∀ fd, turnMonitor.allows turn (.close fd) := fun _ h => by cases h
  cases phase with
  | opened fd =>
      obtain rfl := Option.some.inj h
      exact ⟨fd, rfl, rfl, hno fd⟩
  | inside fd =>
      obtain rfl := Option.some.inj h
      exact ⟨fd, rfl, rfl, hno fd⟩
  | _ => cases h

/-- The exit status of a process that was killed, as a shell gives it. -/
def KILLED : ℕ := 137

/-- `main` on system calls, with the signals that can end it. -/
def process (lib : Libnvram) (crc32 : Bytes → UInt32) (cfg : BuildConfig)
    (defaultGpio : Option CString) (env : Environ) (args : List CString) : Prog processSig ℕ :=
  (mainOnKernel lib crc32 cfg defaultGpio env args).mortal outerMonitor closeLock KILLED
    (.outside, .before)

/-- The lockfile and the turn of a process. -/
abbrev processMonitor : Monitor processSig (LockPhase × LockTurn) :=
  outerMonitor.left signalSig fun _ => True

/-- The calls of `main` and the signals beside a kernel. -/
abbrev processWorld (lib : Libnvram) {σ : Type} (K : World sysSig σ) : World processSig σ :=
  (outerWorld lib K).sum (signalWorld σ)

abbrev processTurn : Monitor processSig LockTurn := outerTurn.left signalSig fun _ => True

theorem monitored_process (lib : Libnvram) (crc32 : Bytes → UInt32) (cfg : BuildConfig)
    (defaultGpio : Option CString) (env : Environ) (args : List CString) :
    Monitored processMonitor (fun _ _ => True) (process lib crc32 cfg defaultGpio env args)
      (.outside, .before) := by
  have hmain : Monitored storeMonitor (fun _ _ => True) (main lib crc32 cfg env args)
      (.outside, .before) :=
    ((monitored_main lib crc32 cfg env args).prod (turn_main lib crc32 cfg env args)).mono
      fun _ _ _ => trivial
  have houter : Monitored outerMonitor (fun _ _ => True)
      (mainOnKernel lib crc32 cfg defaultGpio env args) (.outside, .before) := by
    refine (hmain.interp (J := Eq) (fun m m' o hallows heq => ?_) rfl).mono fun _ _ _ => trivial
    subst heq
    exact (monitored_interfaceLayer _ m o hallows).mono fun _ _ => Eq.symm
  refine houter.mortal fun m o hm => ?_
  obtain ⟨fd, -, hallows⟩ := closeLock_eq_some hm
  exact hallows

/-- A process on a kernel that can fail: wherever it ends, is killed or is stopped, both sides hold
the maps as they were, or the invocation is carried out, and it is when it had the lock and
returned 0. -/
theorem KernelStore.wp_process {σ : Type} {K : World sysSig σ} {lib : Libnvram}
    {crc32 : Bytes → UInt32} {cfg : BuildConfig} {i : Interface} {paths : SectionPaths}
    {inv : Invocation} {maps : Maps} {defaultGpio : Option CString} {impl : InterfaceImpl}
    (S : KernelStore lib impl K) (hi : lib.ImageLaws) (ht : lib.TransactionLaws)
    (hl : lib.ListLaws) (hkeeps : inv.KeepsTo lib crc32 cfg i paths.sections)
    (himpl : i.impl (wpGpio inv.env defaultGpio) = impl) {s : σ}
    (hholds : HoldsMaps lib paths (S.contents s) maps)
    (hserial : ∀ system list, Represents list (inv.carriedOut maps system) → Serialises lib list) :
    wp ((processWorld lib K).watch processTurn)
      (fun code t => MapsAfter lib paths inv maps (t.2 = .before ∨ code ≠ 0) (S.contents t.1))
      (fun t => MapsAfter lib paths inv maps True (S.contents t.1))
      (process lib crc32 cfg defaultGpio inv.env inv.args) (s, .before) := by
  have hself : ∀ (s : σ × LockTurn) (o : outerSig.Op),
      ((outerWorld lib K).watch outerTurn).halt s o s := by
    intro s o
    refine ⟨?_, rfl⟩
    cases o with
    | inl o => rfl
    | inr o => exact S.halt_self s.1 o
  have hmain := S.wp_mainOnKernel hi ht hl hkeeps himpl hholds hserial
  refine wp_mono (fun code t h => ?_) (fun t h => h)
    (wp_mortal (V := (processWorld lib K).watch processTurn) (fun _ _ _ _ h => h)
      (fun _ _ _ h => h) (fun s r t h => Prod.ext h.1 h.2)
      (fun s t h => Prod.ext h.1 h.2) hself (fun m o s hm hs => ?_) hmain)
  · rcases h with hafter | ⟨rfl, hafter⟩
    · exact hafter
    · exact hafter.imp_right fun h => ⟨Or.inr (by decide), h.2⟩
  · obtain ⟨fd, rfl, -⟩ := closeLock_eq_some hm
    have hsame : ∀ t : σ × LockTurn, t.1 = s.1 →
        MapsAfter lib paths inv maps True (S.contents t.1) := fun t ht => by
        rw [ht]
        exact hs
    exact ⟨fun t ht => hsame t ht.1, fun r t ht => hsame t ht.1.2⟩

/-! ### Many processes -/

section

variable {I σ : Type} [DecidableEq I] (lib : Libnvram) (crc32 : Bytes → UInt32) (cfg : BuildConfig)
  (defaultGpio : Option CString) {K : World sysSig σ}

/-- Every process is about to run, on one kernel. -/
def kernelPool (procs : I → Environ × List CString) (fs : LockFs I) (s : σ) :
    Pool processSig ℕ I (LockPhase × LockTurn) (LockFs I × σ) where
  prog i := process lib crc32 cfg defaultGpio (procs i).1 (procs i).2
  mon _ := (.outside, .before)
  shared := (fs, s)

/-- The processes share the lockfile; system calls and signals are none on it. -/
abbrev kernelShared (I : Type) [DecidableEq I] : Shared processSig I (LockFs I) :=
  ((lockShared I).left sysSig).left signalSig

/-- No name is removed under another process; system calls of the interfaces remove none. -/
def ProcessUndisturbed (s : LockFs I × σ) (i : I) : processSig.Op → Prop
  | .inl (.inl o) => Undisturbed s.1 i o
  | _ => True

/-- Reachable where no name is removed under another process. -/
abbrev KernelReach (K : World sysSig σ) :
    Pool processSig ℕ I (LockPhase × LockTurn) (LockFs I × σ) →
    Pool processSig ℕ I (LockPhase × LockTurn) (LockFs I × σ) → Prop :=
  Pool.Reach processMonitor ((kernelShared I).beside (processWorld lib K)) ProcessUndisturbed

/-- Reachable where no name is removed under another process; the list holds the processes that
have got the lock since, in the order in which they got it. -/
abbrev KernelLocks (K : World sysSig σ) :
    Pool processSig ℕ I (LockPhase × LockTurn) (LockFs I × σ) →
    Pool processSig ℕ I (LockPhase × LockTurn) (LockFs I × σ) → List I → Prop :=
  Pool.Enters processMonitor ((kernelShared I).beside (processWorld lib K)) ProcessUndisturbed
    fun m => m.2 ≠ .before

omit [DecidableEq I] in
theorem monitored_kernelPool (procs : I → Environ × List CString) (fs : LockFs I) (s : σ) (i : I) :
    Monitored processMonitor (fun _ _ => True)
      ((kernelPool lib crc32 cfg defaultGpio procs fs s).prog i)
      ((kernelPool lib crc32 cfg defaultGpio procs fs s).mon i) :=
  monitored_process lib crc32 cfg defaultGpio (procs i).1 (procs i).2

variable {lib crc32 cfg defaultGpio}

/-- At most one process has its turn. -/
theorem kernel_turn_unique {procs : I → Environ × List CString} {fs : LockFs I}
    (hfs : fs.opened = []) {s : σ} {c : Pool processSig ℕ I (LockPhase × LockTurn) (LockFs I × σ)}
    (h : KernelReach lib K (kernelPool lib crc32 cfg defaultGpio procs fs s) c) {i j : I}
    (hi : (c.mon i).2 = .during) (hj : (c.mon j).2 = .during) : i = j := by
  have hinit : Exclusive (fun _ : I => LockPhase.outside) fs :=
    ⟨by simp [hfs], by simp [hfs], by simp [hfs], fun i fd hi => by cases hi⟩
  have hstart : TurnExclusive (fun _ : I => (LockPhase.outside, LockTurn.before)) (fs, s) :=
    ⟨hinit, fun i hi => by cases hi⟩
  -- system calls and signals leave the lockfile and the turns alone
  have hquiet : ∀ {ms : I → LockPhase × LockTurn} {s t : LockFs I × σ} {i : I},
      TurnExclusive ms s → t.1 = s.1 → TurnExclusive (Function.update ms i (ms i)) t := by
    intro ms s t i hinv hlock
    rw [Function.update_eq_self]
    refine ⟨?_, hinv.inside⟩
    rw [hlock]
    exact hinv.exclusive
  have hstep : ∀ (ms : I → LockPhase × LockTurn) (s : LockFs I × σ) (i : I) (o : processSig.Op)
      (r : processSig.Res o) (t : LockFs I × σ), TurnExclusive ms s →
      processMonitor.allows (ms i) o → ProcessUndisturbed s i o →
      ((kernelShared I).beside (processWorld lib K)).step i s o r t →
      TurnExclusive (Function.update ms i (processMonitor.next (ms i) o r)) t := by
    intro ms s i o r t hinv hallows hok hW
    rcases o with (o | o) | o
    · exact hinv.step (W := callWorld lib σ) hallows hok hW
    · exact hquiet hinv hW.1
    · exact hquiet hinv hW.1
  have hinv := (h.invariant (monitored_kernelPool lib crc32 cfg defaultGpio procs fs s) hstart
    hstep).1
  exact hinv.exclusive.inside_eq (hinv.inside i hi) (hinv.inside j hj)

/-- The turn of a process as a region: signals are private, and system calls are made inside. -/
abbrev processRegion (lib : Libnvram) (K : World sysSig σ) :
    Region processMonitor (processWorld lib K) :=
  ((turnRegion fun o _ => callWorld_private lib σ o).sum K fun _ _ hm => Or.inl hm).sum
    (signalWorld σ) fun _ o _ => Or.inr (signalWorld_private σ o)

/-- The processes start on a kernel that shows the contents `c`, with a lockfile that nobody has
open and whose name none of them removes under another one, and when the power goes the kernel
shows `c'`. -/
def Boot.RunsOn (lib : Libnvram) (crc32 : Bytes → UInt32) (cfg : BuildConfig)
    (defaultGpio : Option CString) (K : World sysSig σ) (contents : σ → Contents)
    (b : Boot processSig I σ) (c c' : Contents) : Prop :=
  ∃ (fs : LockFs I) (s t : σ), fs.opened = [] ∧ contents s = c ∧
    KernelLocks lib K (kernelPool lib crc32 cfg defaultGpio
      (fun i => ((b.invs i).env, (b.invs i).args)) fs s) b.reached b.order ∧
    b.reached.Stopped (processWorld lib K) t ∧ contents t = c'

/-- After any number of boots, in each of which any number of processes take turns at single system
calls until the power goes, any of them can be killed, and none removes the name of the lockfile
under another one, both sides hold maps that come from settling the invocations that got the lock,
boot after boot and in the order in which they got it. -/
theorem boots_settle_on_kernel {impl : InterfaceImpl} (S : KernelStore lib impl K)
    (hi : lib.ImageLaws) (ht : lib.TransactionLaws) (hl : lib.ListLaws) {i : Interface}
    {paths : SectionPaths} {boots : List (Boot processSig I σ)} {c c' : Contents}
    (hruns : Steps (fun b : Boot processSig I σ => b.RunsOn lib crc32 cfg defaultGpio K S.contents)
      boots c c')
    (hkeeps : ∀ b ∈ boots, ∀ j, (b.invs j).KeepsTo lib crc32 cfg i paths.sections)
    (himpl : ∀ b ∈ boots, ∀ j, i.impl (wpGpio (b.invs j).env defaultGpio) = impl) {maps : Maps}
    (hholds : HoldsMaps lib paths c maps)
    (hserial : ∀ maps', ReachesMaps (fun inv => ∃ b ∈ boots, ∃ j, b.invs j = inv) maps maps' →
      ∀ system list, Represents list (maps' system) → Serialises lib list) :
    ∃ maps', Steps Boot.Settles boots maps maps' ∧ HoldsMaps lib paths c' maps' ∧
      ∀ system list, Loads lib c' (paths.sections system) list →
        Represents list (maps' system) := by
  have hself : ∀ s o, (processWorld lib K).halt s o s := by
    rintro s ((o | o) | o)
    · rfl
    · exact S.halt_self s o
    · rfl
  have hnext : ∀ (m : LockPhase × LockTurn) (o : processSig.Op) (r : processSig.Res o),
      (processMonitor.next m o r).2 = processTurn.next m.2 o r := by
    rintro m ((o | o) | o) r <;> rfl
  have hstep : ∀ b ∈ boots, ∀ maps₁ c c',
      HoldsMaps lib paths c maps₁ ∧
        ReachesMaps (fun inv => ∃ b ∈ boots, ∃ j, b.invs j = inv) maps maps₁ →
      b.RunsOn lib crc32 cfg defaultGpio K S.contents c c' →
      ∃ maps₂, b.Settles maps₁ maps₂ ∧ HoldsMaps lib paths c' maps₂ ∧
        ReachesMaps (fun inv => ∃ b ∈ boots, ∃ j, b.invs j = inv) maps maps₂ := by
    rintro b hb maps₁ c c' hc ⟨fs, s, t, hfs, rfl, hlocks, hstop, rfl⟩
    have hinvs : ∀ j, ∃ b' ∈ boots, ∃ j', b'.invs j' = b.invs j := fun j => ⟨b, hb, j, rfl⟩
    obtain ⟨maps₂, hnodup, hmem, hsteps, hend⟩ := Pool.Enters.simulates
      (R := processRegion lib K)
      (J := fun maps₁ u => HoldsMaps lib paths (S.contents u) maps₁ ∧
        ReachesMaps (fun inv => ∃ b ∈ boots, ∃ j, b.invs j = inv) maps maps₁)
      (monitored_kernelPool lib crc32 cfg defaultGpio _ fs s) (fun _ hentered => hentered rfl)
      (fun c hc i j hi hj => kernel_turn_unique hfs hc hi hj) hself hlocks hstop
      (fun j hj maps₁ u v hu hexec => settles_of_wp S.contents (hinvs j) hu.2
        (S.wp_process hi ht hl (hkeeps b hb j) (himpl b hb j) hu.1
          (hserial _ (.carriedOut (hinvs j) hu.2))) (hexec.watch_map Prod.snd hnext) hj) hc
    exact ⟨maps₂, ⟨hnodup, hmem, hsteps⟩, hend⟩
  obtain ⟨maps', hsteps, hend, -⟩ := hruns.simulates hstep ⟨hholds, .start⟩
  refine ⟨maps', hsteps, hend, fun system list hloads => ?_⟩
  exact ((hend system).of_load ht (if_pos (paths.configuredA system))
    (if_pos (paths.configuredB system)) hloads).1

end

end Nvram
