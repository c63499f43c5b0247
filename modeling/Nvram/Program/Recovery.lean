import Nvram.Program.Serial
import Nvram.Program.Refinement
import Nvram.V2.Holds

/-!
# Whole invocations on sections that can fail

An invocation for the v2 format runs on sections on which every call may fail and the power may
go at every call.  Wherever it ends or is stopped, both sides hold the maps from before, or the
batch is carried out on the map of the side that the mode writes.  It is carried out when the
process had the lock and returned 0.
-/

namespace Nvram

open Effects Errno TwoSlot

/-! ### What is seen of the sections -/

/-- What is seen of the sections are their bytes. -/
def powerStore.observed (lib : Libnvram) (i : Interface) :
    Observed lib (powerStore lib) i True where
  Section _ := True
  Handle _ := True
  contents s := s
  Same s t := t = s
  refl _ := rfl
  trans hst htu := htu.trans hst
  contents_eq h := h
  Answer := Honest lib
  truthful := truthful_honest lib
  step _ _ _ _ ho h := powerStore_step ho.2.1 h
  halt _ _ _ ho h := powerStore_halt ho.2.1 h

/-! ### Down to the lock -/

section

variable {lib : Libnvram} {crc32 : Bytes → UInt32} {cfg : BuildConfig} {env : Environ}

/-- Where the inner calls leave a state alone, `main` from this state is a session, or an error
without one. -/
theorem wp_main_of_session {σ : Type} {W : World callSig σ} {Q : ℕ → σ → Prop} {C : σ → Prop}
    {s : σ} {args : List CString} (hstep : ∀ o r t, Call.Inner o → W.step s o r t → t = s)
    (hhalt : ∀ o t, Call.Inner o → W.halt s o t → t = s) (hstop : C s)
    (hrefused : ∀ c, c ≠ 0 → Q c s)
    (hsession : ∀ items interface format, commandLine args = some items →
      nvramGetInterface cfg (interfaceNameOf cfg env (finalOpts items)) = some interface →
      nvramGetFormat lib crc32 cfg (formatNameOf cfg env (finalOpts items)) = some format →
      wp W (fun r t => Q (exitStatus r) t) C (session lib cfg env format interface
        (interfaceNameOf cfg env (finalOpts items)) (formatNameOf cfg env (finalOpts items))
        (finalOpts items)) s) :
    wp W Q C (main lib crc32 cfg env args) s := by
  have hquiet : ∀ {α : Type} {p : NProg α} {R : α → Prop}, Confined Call.Inner R p →
      wp W (fun a t => R a ∧ t = s) C p s := fun hp => wp_fixed hstep hhalt hp hstop
  have hstatus : ∀ e : Errno, wp W Q C (do return exitStatus (← exitRelease (.error e) none)) s := by
    intro e
    refine wp_mono (fun c t h => ?_) (fun _ h => h) (hquiet (inner_exitEarly e))
    obtain ⟨rfl, rfl⟩ := h
    exact hrefused _ e.pos.ne'
  have hunresolved : ∀ (fmt : String) (args : List Arg),
      wp W (fun r t => Q (exitStatus r) t) C (do
        fprintfStderr fmt args
        exitRelease (.error einval) none) s := by
    intro fmt args
    refine wp_mono (fun r t h => ?_) (fun _ h => h) (hquiet (inner_exitUnresolved fmt args))
    obtain ⟨rfl, rfl⟩ := h
    exact hrefused _ einval.pos.ne'
  rw [main_eq]
  refine wp_seq (hquiet (inner_enableDebugOf env)) fun _ t h => ?_
  obtain ⟨-, rfl⟩ := h
  refine wp_seq (hquiet (confined_parseArgs cfg env _ args)) fun r t h => ?_
  obtain ⟨hr, rfl⟩ := h
  cases r with
  | error e => exact hstatus e
  | ok opts =>
      obtain ⟨items, hitems, rfl⟩ := hr opts rfl
      refine wp_seq (hquiet (confined_defaultOperation items)) fun r t h => ?_
      obtain ⟨hr, rfl⟩ := h
      rcases hr with ⟨e, rfl⟩ | rfl
      · exact hstatus e
      · refine wp_seq (R := fun r t => Q (exitStatus r) t) ?_ fun _ _ h => h
        unfold resolveAndRun
        dsimp only
        split
        · exact hunresolved _ _
        · rename_i interface hinterface
          split
          · exact hunresolved _ _
          · rename_i format hformat
            exact hsession items interface format hitems hinterface hformat

/-- A session before the lock, without it, and with it. -/
theorem wp_session_turn {format : NvramFormat} {name : CString}
    (hformat : nvramGetFormat lib crc32 cfg name = some format) (interface : Interface)
    (interfaceName formatName : CString) (opts : Opts) {c : Contents}
    {Q : Except Errno Unit → Contents × LockTurn → Prop} {C : Contents → Prop} (hstop : C c)
    (hbefore : ∀ r, Q r (c, .before))
    (hwork : Accepted cfg env opts.mode opts.operations →
      wp (powerStore lib) (fun done t => C t ∧ ∀ r turn, turn ≠ .before →
          (r = .ok () → done.r = .ok ()) → Q r (t, turn)) C
        (withLock lib cfg env format interface interfaceName opts) c) :
    wp ((powerStore lib).watch turnMonitor) Q (fun t => C t.1)
      (session lib cfg env format interface interfaceName formatName opts) (c, .before) := by
  obtain ⟨F⟩ := nvramGetFormat_frame lib crc32 hformat
  let O := powerStore.observed lib interface
  have hinner : ∀ {α : Type} {p : NProg α} {R : α → Prop}, Confined Call.Inner R p →
      wp ((powerStore lib).watch turnMonitor) (fun a t => R a ∧ t = (c, .before))
        (fun t => C t.1) p (c, .before) := by
    intro α p R hp
    refine wp_fixed (fun o r t ho h => ?_) (fun o t ho h => ?_) hp hstop
    · exact Prod.ext (powerStore_step ho.2.2.2.2 h.1).2
        (h.2.trans ((turnMonitor_of_inner .before ho).2 r))
    · exact Prod.ext (powerStore_halt ho.2.2.2.2 h.1) h.2
  -- the exit leaves the sections alone
  have hexit : ∀ (done : AtExit format) (fdLock : Option Fd) (t : Contents) (turn : LockTurn)
      (paths paths' : CString → Prop), (∀ n ∈ done.nvramSystem, F.On interface paths n) →
      (∀ n ∈ done.nvramUser, F.On interface paths' n) → C t →
      (∀ r turn', (turn' = .before ↔ turn = .before) → (r = .ok () → done.r = .ok ()) →
        Q r (t, turn')) →
      wp ((powerStore lib).watch turnMonitor) Q (fun t => C t.1)
        (exitClose format fdLock done) (t, turn) := by
    intro done fdLock t turn paths paths' hsystem huser ht hQ
    have hquiet := O.wp_quiet (s := t) (Observed.quiet_exitClose F done hsystem huser fdLock)
      (under_true _)
    refine wp_mono (fun r u h => ?_) (fun u h => ?_)
      (wp_watch hquiet (turn_exitClose hformat done fdLock turn))
    · obtain ⟨⟨-, hsame⟩, hturn, hr, -⟩ := h
      obtain ⟨u, turn'⟩ := u
      obtain rfl : u = t := hsame
      exact hQ r turn' hturn hr
    · obtain ⟨u, turn'⟩ := u
      obtain rfl : u = t := h
      exact ht
  have hnone : ∀ r, wp ((powerStore lib).watch turnMonitor) Q (fun t => C t.1)
      (exitClose format none ⟨r, none, none⟩) (c, .before) := by
    intro r
    refine hexit ⟨r, none, none⟩ none c .before (fun _ => False) (fun _ => False)
      (fun _ h => by cases h) (fun _ h => by cases h) hstop
      fun r' turn' hturn _ => ?_
    rw [hturn.mpr rfl]
    exact hbefore r'
  rw [session_eq]
  refine wp_seq (hinner (inner_printResolved interfaceName formatName opts.mode)) fun _ t h => ?_
  obtain ⟨-, rfl⟩ := h
  refine wp_seq (hinner (inner_validateOperations cfg env opts.mode opts.operations))
    fun r t h => ?_
  obtain ⟨hr, rfl⟩ := h
  cases r with
  | error e => exact hnone _
  | ok u =>
      have haccepted : Accepted cfg env opts.mode opts.operations := hr.mp rfl
      have hlock := wp_watch (O.wp_quiet (s := c) Observed.quiet_acquireLockfile (under_true _))
        turn_acquireLockfile
      refine wp_seq (wp_mono (fun _ _ h => h) (fun t h => ?_) hlock) fun r t h => ?_
      · obtain ⟨t, turn⟩ := t
        obtain rfl : t = c := h
        exact hstop
      · obtain ⟨t, turn⟩ := t
        obtain ⟨⟨-, hsame⟩, hturn⟩ := h
        obtain rfl : t = c := hsame
        rcases hturn with ⟨⟨fd, rfl⟩, hturn⟩ | ⟨⟨e, rfl⟩, hturn⟩
        · obtain rfl : turn = .during := hturn
          have hhandles := admits_withLock lib cfg env interfaceName opts interface F
          have hdone := wp_watch (wp_confined hhandles (hwork haccepted))
            (turn_withLock lib cfg env F interface interfaceName opts)
          refine wp_seq hdone fun done t h => ?_
          obtain ⟨t, turn⟩ := t
          obtain ⟨⟨⟨hsystem, huser⟩, hCt, hQ⟩, hturn⟩ := h
          obtain rfl : turn = .during := hturn
          refine hexit done (some fd) t .during _ _ hsystem huser hCt fun r turn' hturn hr => ?_
          exact hQ r turn' (fun h => by cases hturn.mp h) hr
        · obtain rfl : turn = .before := hturn
          exact hnone _

end

/-! ### The commit of a side -/

section

variable {lib : Libnvram} {i : Interface} {c : Contents} {pathA pathB : CString}
  {nvram : V2Nvram} {trans : LibnvramTransaction} {old : List Entry}

/-- The section that a commit writes first, and the other one, which is in force. -/
theorem exists_turn (ht : lib.TransactionLaws) (hA : 0 < pathA.strlen) (hB : 0 < pathB.strlen)
    (hopen : nvram.OpenOn (initView c) i (some pathA) (some pathB) trans)
    (hload : v2Load lib c (some pathA) (some pathB) = some (trans, old)) :
    nvram.Both ∧ ∃ privT privO, nvram.target (commitPlan lib nvram).1 = some privT ∧
      nvram.other (commitPlan lib nvram).1 = some privO ∧
      (privT.path = pathA ∧ privO.path = pathB ∨ privT.path = pathB ∧ privO.path = pathA) ∧
      Turn counterMax (slotOf lib (c privT.path)) (slotOf lib (c privO.path))
        (commitPlan lib nvram).2.counter.toNat (commitPlan lib nvram).1.counterReset := by
  obtain ⟨a, b, ha, hb, htrans, hactive⟩ := v2Load_eq_some_iff.mp hload
  have hslot : ∀ {path : CString} {data : Bytes}, 0 < path.strlen →
      sideData lib c (some path) = some data → dataSlot lib data = slotOf lib (c path) := by
    intro path data hpath hdata
    have hconfigured : configured (some path) = some path := if_pos hpath
    rw [sideData_of_configured hconfigured] at hdata
    rw [slotOf, hdata, Option.getD_some]
  obtain ⟨hturnA, hturnB⟩ := takesTurn_of_load ht hactive (hopen.trans.trans htrans)
  obtain ⟨privA, hprivA, hpathA⟩ : ∃ p, nvram.privA = some p ∧ p.path = pathA := by
    have hpath := hopen.pathA
    simpa [configured, hA] using hpath
  obtain ⟨privB, hprivB, hpathB⟩ : ∃ p, nvram.privB = some p ∧ p.path = pathB := by
    have hpath := hopen.pathB
    simpa [configured, hB] using hpath
  have hboth : nvram.Both := by simp [V2Nvram.Both, hprivA, hprivB]
  refine ⟨hboth, ?_⟩
  cases hwrite : (commitPlan lib nvram).1.writeA with
  | true =>
      refine ⟨privA, privB, by simp [V2Nvram.target, hboth, hwrite, hprivA],
        by simp [V2Nvram.other, hwrite, hprivB], Or.inl ⟨hpathA, hpathB⟩, ?_⟩
      rw [hpathA, hpathB, ← hslot hA ha, ← hslot hB hb]
      exact (hturnA hwrite).turn
  | false =>
      refine ⟨privB, privA, by simp [V2Nvram.target, hboth, hwrite, hprivB],
        by simp [V2Nvram.other, hwrite, hprivA], Or.inr ⟨hpathB, hpathA⟩, ?_⟩
      rw [hpathA, hpathB, ← hslot hA ha, ← hslot hB hb]
      exact (hturnB hwrite).turn

/-- The side holds the new map, or the old one if `allowed`; nothing beside it has changed. -/
def SideAfter (lib : Libnvram) (c : Contents) (pathA pathB : CString) (m m' : Settings)
    (allowed : Prop) (t : Contents) : Prop :=
  (HoldsMap lib t pathA pathB m' ∨ allowed ∧ HoldsMap lib t pathA pathB m) ∧
    ∀ path, path ≠ pathA → path ≠ pathB → t path = c path

theorem SideAfter.mono {m m' : Settings} {allowed allowed' : Prop} {t : Contents}
    (h : SideAfter lib c pathA pathB m m' allowed t) (himp : allowed → allowed') :
    SideAfter lib c pathA pathB m m' allowed' t :=
  ⟨h.1.imp_right fun h => ⟨himp h.1, h.2⟩, h.2⟩

/-- The commit of a list that stands for a map leaves the side with this map or as it was. -/
theorem wp_commitList (hi : lib.ImageLaws) (ht : lib.TransactionLaws) (hA : 0 < pathA.strlen)
    (hB : 0 < pathB.strlen) (hne : pathA ≠ pathB)
    (hopen : nvram.OpenOn (initView c) i (some pathA) (some pathB) trans)
    (hload : v2Load lib c (some pathA) (some pathB) = some (trans, old)) {m m' : Settings}
    (hholds : HoldsMap lib c pathA pathB m) {list : List Entry} (hlist : Represents list m')
    (hserial : Serialises lib list) :
    wp (powerStore lib) (fun r t => SideAfter lib c pathA pathB m m' (∃ e, r = .error e) t)
      (SideAfter lib c pathA pathB m m' True)
      (commitList (nvramV2Format lib) (some nvram) list) c := by
  obtain ⟨hboth, privT, privO, htarget, hother, hpaths, hturn⟩ := exists_turn ht hA hB hopen hload
  have hpathO : privO.path ≠ privT.path := by
    rcases hpaths with ⟨hT, hO⟩ | ⟨hT, hO⟩
    · rw [hT, hO]
      exact hne.symm
    · rw [hT, hO]
      exact hne
  have hstops : ∀ {t : Contents} {acked : Bool},
      CommitLeaves lib privT.path privO.path list (commitPlan lib nvram).2
        (commitPlan lib nvram).1.counterReset c t acked →
      SideAfter lib c pathA pathB m m' (acked = false) t := by
    intro t acked hstop
    rcases hpaths with ⟨hT, hO⟩ | ⟨hT, hO⟩
    · rw [hT, hO] at hstop hturn
      exact ⟨hholds.stops hturn hlist hstop, hstop.elsewhere⟩
    · rw [hT, hO] at hstop hturn
      refine ⟨?_, fun path hpA hpB => hstop.elsewhere path hpB hpA⟩
      exact (hholds.symm.stops hturn hlist hstop).imp HoldsMap.symm fun h => ⟨h.1, h.2.symm⟩
  have hcommit := wp_v2Commit_store (s := c) hi hboth htarget hother hpathO (hserial _)
  unfold commitList
  refine wp_seq (wp_mono (fun _ _ h => h) (fun t h => ?_) hcommit) fun r t hr => ?_
  · exact (hstops h).mono fun _ => trivial
  · obtain ⟨r, nvram'⟩ := r
    cases r with
    | ok u =>
        refine (hstops hr).mono fun h => ?_
        cases h
    | error e =>
        have hafter : SideAfter lib c pathA pathB m m' True t := (hstops hr).mono fun _ => trivial
        refine ⟨fun u hu => ?_, fun _ u hu => ?_⟩
        · obtain rfl : u = t := powerStore_halt rfl hu
          exact hafter
        · obtain rfl : u = t := (powerStore_step rfl hu).2
          exact hafter.mono fun _ => ⟨e, rfl⟩

end

/-! ### Both sides -/

/-- Two sections for the system side (`true`) and two for the user side. -/
structure SectionPaths where
  a : Bool → CString
  b : Bool → CString
  configuredA : ∀ system, 0 < (a system).strlen
  configuredB : ∀ system, 0 < (b system).strlen
  distinct : ∀ system, a system ≠ b system
  disjoint : ∀ system, a system ≠ a (!system) ∧ a system ≠ b (!system) ∧ b system ≠ b (!system)

/-- The sections of a side, as an invocation resolves them. -/
def SectionPaths.sections (paths : SectionPaths) (system : Bool) :
    Option CString × Option CString :=
  (some (paths.a system), some (paths.b system))

/-- Each side holds its map. -/
def HoldsMaps (lib : Libnvram) (paths : SectionPaths) (c : Contents) (maps : Maps) : Prop :=
  ∀ system, HoldsMap lib c (paths.a system) (paths.b system) (maps system)

/-- A side has another map, and nothing beside it has changed. -/
theorem HoldsMaps.update {lib : Libnvram} {paths : SectionPaths} {c t : Contents} {maps : Maps}
    (h : HoldsMaps lib paths c maps) {system : Bool} {m : Settings}
    (hside : HoldsMap lib t (paths.a system) (paths.b system) m)
    (hkept : ∀ path, path ≠ paths.a system → path ≠ paths.b system → t path = c path) :
    HoldsMaps lib paths t (Function.update maps system m) := by
  intro other
  by_cases hother : other = system
  · subst hother
    rw [Function.update_self]
    exact hside
  · obtain rfl : other = !system := by
      cases other <;> cases system <;> first | rfl | exact absurd rfl hother
    rw [Function.update_of_ne hother]
    obtain ⟨haa, hab, hbb⟩ := paths.disjoint system
    have hba := (paths.disjoint (!system)).2.1
    rw [Bool.not_not] at hba
    exact (h (!system)).congr (hkept _ haa.symm hba) (hkept _ hab.symm hbb.symm)

/-- The maps after an invocation that is carried out: a batch of changes changes the map of the
side that the mode writes. -/
def Invocation.carriedOut (inv : Invocation) (maps : Maps) : Maps :=
  match commandLine inv.args with
  | some items =>
    if ∀ it ∈ requested items, it.Changes then maps.after (lastMode items) (requested items)
    else maps
  | none => maps

theorem Invocation.carriedOut_eq_or (inv : Invocation) (maps : Maps) :
    inv.carriedOut maps = maps ∨ ∃ items, commandLine inv.args = some items ∧
      inv.carriedOut maps = maps.after (lastMode items) (requested items) := by
  unfold Invocation.carriedOut
  cases commandLine inv.args with
  | none => exact Or.inl rfl
  | some items =>
      by_cases hchanges : ∀ it ∈ requested items, it.Changes
      · exact Or.inr ⟨items, rfl, if_pos hchanges⟩
      · exact Or.inl (if_neg hchanges)

/-- The sides hold the maps after the invocation, or, if `allowed`, those before. -/
def MapsAfter (lib : Libnvram) (paths : SectionPaths) (inv : Invocation) (maps : Maps)
    (allowed : Prop) (t : Contents) : Prop :=
  HoldsMaps lib paths t (inv.carriedOut maps) ∨ allowed ∧ HoldsMaps lib paths t maps

section

variable {lib : Libnvram} {crc32 : Bytes → UInt32} {cfg : BuildConfig} {i : Interface}
  {paths : SectionPaths} {inv : Invocation} {maps : Maps} {c : Contents}
  (hi : lib.ImageLaws) (ht : lib.TransactionLaws) (hl : lib.ListLaws)
  (hkeeps : inv.KeepsTo lib crc32 cfg i paths.sections) (hholds : HoldsMaps lib paths c maps)
  (hserial : ∀ system list, Represents list (inv.carriedOut maps system) → Serialises lib list)

include hi ht hl hkeeps hholds hserial

/-- A batch of changes under the lock. -/
theorem wp_withLock_changes {items : List Item}
    (hbatch : V2Changes lib crc32 cfg inv.env i inv.args items) :
    wp (powerStore lib) (fun done t => MapsAfter lib paths inv maps (∃ e, done.r = .error e) t)
      (MapsAfter lib paths inv maps True)
      (withLock lib cfg inv.env (nvramV2Format lib) i
        (interfaceNameOf cfg inv.env (finalOpts items)) (finalOpts items)) c := by
  obtain ⟨F⟩ := nvramGetFormat_frame lib crc32 hbatch.format
  let O := powerStore.observed lib i
  have hcarried : inv.carriedOut maps = maps.after (lastMode items) (requested items) := by
    rw [Invocation.carriedOut, hbatch.arguments]
    exact if_pos hbatch.changes
  have hsections := fun system => hkeeps.sections items system hbatch.arguments hbatch.interface
  have hold : ∀ t, O.Same c t → MapsAfter lib paths inv maps True t := by
    intro t hst
    obtain rfl : t = c := hst
    exact Or.inr ⟨trivial, hholds⟩
  refine O.wp_withLock hold F (nvramV2Format.initSpec lib) _ _
    (fun system => ⟨fun _ _ => trivial, fun _ _ => trivial⟩) (fun done t hst herror _ => ?_)
    fun system user t hst hsystem huser => ?_
  · obtain rfl : t = c := hst
    exact Or.inr ⟨herror, hholds⟩
  obtain rfl : t = c := hst
  rw [finalOpts_mode] at hsystem huser
  rw [finalOpts_mode, finalOpts_operations]
  -- the side that the mode writes
  generalize hwritten : (lastMode items).systemWrite = written at *
  obtain ⟨nvram, trans, hsome, hload, hopen⟩ : ∃ (nvram : V2Nvram) (trans : LibnvramTransaction),
      (if written then system.1 else user.1) = some nvram ∧
      v2Load lib t (some (paths.a written)) (some (paths.b written)) =
        some (trans, if written then system.2 else user.2) ∧
      nvram.OpenOn (initView t) i (some (paths.a written)) (some (paths.b written)) trans := by
    have hreaches := lastMode_reaches items
    rw [hwritten] at hreaches
    have hside := hsections written
    cases written with
    | true =>
        rw [hreaches] at hsystem
        rw [sectionsOf] at hside
        rw [hside] at hsystem
        exact loads_of_sideOpened hsystem
    | false =>
        rw [hreaches] at huser
        rw [sectionsOf] at hside
        rw [hside] at huser
        exact loads_of_sideOpened huser
  have hA := paths.configuredA written
  have hB := paths.configuredB written
  obtain ⟨hrepresents, honly⟩ :=
    (hholds written).of_load ht (if_pos hA) (if_pos hB) ⟨trans, hload⟩
  have hedited := hrepresents.editAll hl (requested items)
  -- a side that holds the new map is enough
  have hside : ∀ {allowed : Prop} {u : Contents}, SideAfter lib t (paths.a written)
      (paths.b written) (maps written) ((maps written).after (requested items)) allowed u →
      MapsAfter lib paths inv maps allowed u := by
    intro allowed u hafter
    obtain ⟨hnew | ⟨hallowed, hsame⟩, hkept⟩ := hafter
    · refine Or.inl ?_
      rw [hcarried, Maps.after, hwritten]
      exact hholds.update hnew hkept
    · refine Or.inr ⟨hallowed, ?_⟩
      have hupdate := hholds.update hsame hkept
      rwa [Function.update_eq_self] at hupdate
  refine O.wp_executeOperations_edits hold (lastMode_writes items) hbatch.changes
    (fun _ e u hu => ?_) (fun u hu hidle => ?_) fun u hu _ => ?_
  · obtain rfl : u = t := hu
    exact Or.inr ⟨⟨e, rfl⟩, hholds⟩
  · obtain rfl : u = t := hu
    rw [hwritten] at hidle
    rw [editAll_of_idle hidle] at hedited
    refine hside ⟨Or.inl ⟨(hholds written).agree, fun z hz => ?_⟩, fun _ _ _ => rfl⟩
    rw [honly z hz]
    exact hedited
  · obtain rfl : u = t := hu
    rw [hwritten, hsome]
    refine wp_mono (fun r v hv => hside hv) (fun v hv => hside hv)
      (wp_commitList hi ht hA hB (paths.distinct written) hopen hload (hholds written) hedited
        (hserial written _ ?_))
    rw [hcarried, Maps.after, hwritten, Function.update_self]
    exact hedited

variable (lib crc32 cfg) in
/-- An invocation on sections that can fail: wherever it ends or is stopped, both sides hold the
maps as they were, or it is carried out, and it is when it had the lock and returned 0. -/
theorem wp_main_carriedOut :
    wp ((powerStore lib).watch turnMonitor)
      (fun code t => MapsAfter lib paths inv maps (t.2 = .before ∨ code ≠ 0) t.1)
      (fun t => MapsAfter lib paths inv maps True t.1)
      (main lib crc32 cfg inv.env inv.args) (c, .before) := by
  have hold : ∀ {allowed : Prop}, allowed → MapsAfter lib paths inv maps allowed c :=
    fun hallowed => Or.inr ⟨hallowed, hholds⟩
  refine wp_main_of_session (fun o r t ho h => ?_) (fun o t ho h => ?_) (hold trivial)
    (fun code hcode => hold (Or.inr hcode)) fun items interface format hitems hinterface hformat => ?_
  · exact Prod.ext (powerStore_step ho.2.2.2.2 h.1).2
      (h.2.trans ((turnMonitor_of_inner .before ho).2 r))
  · exact Prod.ext (powerStore_halt ho.2.2.2.2 h.1) h.2
  obtain rfl := hkeeps.interface items interface hitems hinterface
  refine wp_session_turn hformat interface _ _ _ (hold trivial) (fun r => hold (Or.inl rfl))
    fun haccepted => ?_
  rw [finalOpts_mode, finalOpts_operations] at haccepted
  obtain ⟨items', hbatch⟩ := hkeeps.v2Batch ⟨items, hitems, by simp [hinterface],
    by simp [hformat], haccepted⟩
  obtain rfl := Option.some.inj (hbatch.arguments.symm.trans hitems)
  obtain rfl := Option.some.inj (hbatch.format.symm.trans hformat)
  by_cases hchanges : ∀ it ∈ requested items', it.Changes
  · refine wp_mono (fun done t h => ⟨h.imp_right fun h => ⟨trivial, h.2⟩, fun r turn _ hr => ?_⟩)
      (fun _ h => h) (wp_withLock_changes hi ht hl hkeeps hholds hserial ⟨hbatch, hchanges⟩)
    refine h.imp_right fun h => ⟨Or.inr fun hcode => ?_, h.2⟩
    obtain ⟨e, he⟩ := h.1
    rw [hr (exitStatus_eq_zero_iff.mp hcode)] at he
    cases he
  · -- a batch of queries writes nothing
    obtain ⟨F⟩ := nvramGetFormat_frame lib crc32 hformat
    have hcarried : inv.carriedOut maps = maps := by
      rw [Invocation.carriedOut, hitems]
      exact if_neg hchanges
    have hadmits := admits_withLock lib cfg inv.env (interfaceNameOf cfg inv.env (finalOpts items'))
      (finalOpts items') interface F
    have hreads : Confined (fun o : Call => o.isWrite = false) _ _ :=
      hadmits.mono (fun o ho => by
        by_contra hwrite
        exact hchanges (haccepted.all_change (ho.2.2.1 (by simpa using hwrite)).1)) fun _ h => h
    refine wp_mono (fun done t h => ?_) (fun _ h => h)
      (wp_fixed (fun o r t ho h => (powerStore_step ho h).2) (fun o t ho h => powerStore_halt ho h)
        hreads (hold trivial))
    obtain ⟨-, rfl⟩ := h
    refine ⟨hold trivial, fun r turn _ _ => Or.inl ?_⟩
    rw [hcarried]
    exact hholds

end

end Nvram
