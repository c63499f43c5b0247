import Nvram.Legacy.Session
import Nvram.Libnvram.Plain

/-!
# Whether a legacy store can be read after a write

The writer refuses a list for its separators only.  A key that is blank up to its first NUL
and an empty value get through, and the row they leave makes the reader refuse the whole
store.  So an init after a successful batch returns 0 exactly when every entry that the batch
leaves in the list can be read back, or the batch had nothing to do.
-/

namespace Nvram

open Effects Errno

/-! ### Invocations that change a legacy side -/

/-- The legacy format under its name. -/
theorem nvramGetFormat_legacy {lib : Libnvram} {crc32 : Bytes → UInt32} {cfg : BuildConfig}
    {format : NvramFormat} (h : nvramGetFormat lib crc32 cfg (lit "legacy") = some format) :
    format = nvramLegacyFormat := by
  rcases nvramGetFormat_cases lib crc32 h with ⟨hname, _⟩ | ⟨_, hformat⟩ | ⟨_, hname, _⟩
  · exact absurd hname (by decide)
  · exact hformat
  · exact absurd hname.1 (by decide)

section

variable {lib : Libnvram} {crc32 : Bytes → UInt32} {cfg : BuildConfig} {env : Environ}
  {args : List CString} {items : List Item}

/-- What an invocation that changes a legacy side leaves when it returns 0. -/
def LegacyOutcome (lib : Libnvram) {σ : Type} {i : Interface} {h : Handler callSig σ}
    (H : Healthy lib i h) (sections : Option CString × Option CString)
    (batch : List (Keyed.Edit Entry Bytes)) (s t : σ) : Prop :=
  ∃ path loaded, legacySection sections.1 sections.2 = some path ∧
    legacyList lib (H.contents s path) = some loaded ∧
    (if ∀ e ∈ batch, editList lib loaded e = none then H.contents t = H.contents s
    else Storable (editAll lib loaded batch) ∧
      H.contents t = H.storeAt (H.contents s) path ((editAll lib loaded batch).flatMap row))

variable {σ : Type} {i : Interface} {h : Handler callSig σ}

theorem run_commitList_legacy (H : Healthy lib i h) {nvram : SingleNvram} {v : View}
    {path : CString} (hopen : nvram.OpenOn v i path)
    (hhandle : ∀ priv, v.Handle priv → H.Handle priv) (list : List Entry) (s : σ)
    (hok : (run h (commitList nvramLegacyFormat (some nvram) list) s).1 = .ok ()) :
    Storable list ∧ H.contents (run h (commitList nvramLegacyFormat (some nvram) list) s).2 =
      H.storeAt (H.contents s) path (list.flatMap row) := by
  obtain ⟨r, t, hrun, hiff, hstored, _⟩ := H.run_legacyCommit hopen hhandle list s
  have hcommit : run h (nvramLegacyFormat.commit nvram list) s = ((r, nvram), t) := by
    show run h (legacyCommit nvram list >>= fun r => pure (r, nvram)) s = _
    rw [run_bind, hrun]
    rfl
  simp only [commitList, run_bind, hcommit] at hok ⊢
  cases r with
  | error e => cases hok
  | ok u =>
      have hstorable := (hiff.mp rfl).1
      exact ⟨hstorable, hstored hstorable⟩

/-- What an opened legacy side holds. -/
theorem legacy_opened {v : View} {wanted : Bool} (hwanted : wanted = true)
    {sections : Option CString × Option CString} {side : Option SingleNvram × List Entry}
    (hside : (nvramLegacyFormat.initSpec lib).SideOpened v i wanted sections side) :
    ∃ nvram path, side.1 = some nvram ∧ legacySection sections.1 sections.2 = some path ∧
      legacyList lib (v.contents path) = some side.2 ∧ nvram.OpenOn v i path := by
  obtain ⟨handle, list⟩ := side
  cases handle with
  | none =>
      rw [hwanted] at hside
      cases hside.1
  | some nvram =>
      have hopens : LegacyResult lib v i sections.1 sections.2 (.ok (nvram, list)) := hside.2
      obtain ⟨path, hpath, hlist, hopen⟩ := hopens.of_ok
      exact ⟨nvram, path, rfl, hpath, hlist, hopen⟩

/-- The init of a legacy side fails only where its section or its content is refused. -/
theorem not_legacy_fails {v : View} {wanted : Bool} {sections : Option CString × Option CString}
    {path : CString} {list : List Entry}
    (hpath : legacySection sections.1 sections.2 = some path)
    (hlist : legacyList lib (v.contents path) = some list) :
    ¬ (nvramLegacyFormat.initSpec lib).SideFails v i wanted sections := by
  rintro ⟨_, e, hopens⟩
  have hresult : LegacyResult lib v i sections.1 sections.2 (.error e) := hopens
  simp only [LegacyResult, SingleResult, hpath, hlist] at hresult
  obtain ⟨nvram, hok, _⟩ := hresult
  cases hok

/-- An invocation that gets to the lock, and finds sides that can be read and nothing to do. -/
def LegacyReady (lib : Libnvram) (crc32 : Bytes → UInt32) (cfg : BuildConfig) (env : Environ)
    (args : List CString) (items : List Item) (c : Contents) : Prop :=
  Proceeds lib crc32 cfg env args ∧ ∀ system, (lastMode items).reaches system = true →
    ∃ path list, legacySection
        (sideSections cfg env (interfaceNameOf cfg env (finalOpts items)) (finalOpts items)
          system).1
        (sideSections cfg env (interfaceNameOf cfg env (finalOpts items)) (finalOpts items)
          system).2 = some path ∧
      legacyList lib (c path) = some list ∧
      (system = (lastMode items).systemWrite →
        ∀ e ∈ edits (requested items), editList lib list e = none)

/-- An invocation of changes on legacy sides: what it leaves when it returns 0, and when it
does so for certain. -/
theorem run_main_legacy (crc32 : Bytes → UInt32) (H : Healthy lib i h)
    (hitems : commandLine args = some items)
    (hinterface : nvramGetInterface cfg (interfaceNameOf cfg env (finalOpts items)) = some i)
    (hformat : formatNameOf cfg env (finalOpts items) = lit "legacy")
    (hchanges : ∀ it ∈ requested items, it.Changes)
    (hsections : ∀ system,
      (∀ p, configured (sideSections cfg env (interfaceNameOf cfg env (finalOpts items))
        (finalOpts items) system).1 = some p → H.Section p) ∧
      ∀ p, configured (sideSections cfg env (interfaceNameOf cfg env (finalOpts items))
        (finalOpts items) system).2 = some p → H.Section p) (s : σ) :
    ((run h (main lib crc32 cfg env args) s).1 = 0 →
      LegacyOutcome lib H (writtenSections cfg env (finalOpts items)) (edits (requested items)) s
        (run h (main lib crc32 cfg env args) s).2) ∧
      (LegacyReady lib crc32 cfg env args items (H.contents s) →
        (run h (main lib crc32 cfg env args) s).1 = 0) := by
  have hmain : wp (World.ofHandler h)
      (fun c t => (c = 0 → LegacyOutcome lib H (writtenSections cfg env (finalOpts items))
          (edits (requested items)) s t) ∧
        (LegacyReady lib crc32 cfg env args items (H.contents s) → c = 0)) (fun _ => True)
      (main lib crc32 cfg env args) s := by
    refine H.observed.wp_invocation nvramLegacyFormat.frame (nvramLegacyFormat.initSpec lib) hitems
      (fun j hj => Option.some.inj (hj.symm.trans hinterface)) (fun found hfound => ?_) hsections
      (fun hno c t _ hne => ⟨fun hc => absurd hc hne, fun hready => absurd hready.1 hno⟩)
      (fun system hfails c t _ hne => ⟨fun hc => absurd hc hne, fun hready => ?_⟩)
      fun system user t ht hsystem huser => ?_
    · rw [hformat] at hfound
      exact nvramGetFormat_legacy hfound
    · obtain ⟨path, list, hpath, hlist, -⟩ := hready.2 system hfails.1
      exact absurd hfails (not_legacy_fails hpath hlist)
    · -- the side that is written was opened
      obtain ⟨nvram, path, hnvram, hpath, hloaded, hopen⟩ :
          ∃ nvram path, (if (lastMode items).systemWrite then system.1 else user.1) =
              some nvram ∧
            legacySection (writtenSections cfg env (finalOpts items)).1
              (writtenSections cfg env (finalOpts items)).2 = some path ∧
            legacyList lib (H.contents s path) =
              some (if (lastMode items).systemWrite then system.2 else user.2) ∧
            nvram.OpenOn (H.observed.view s) i path := by
        have hreaches := lastMode_reaches items
        unfold writtenSections
        rw [finalOpts_mode]
        cases hsw : (lastMode items).systemWrite with
        | true =>
            rw [hsw] at hreaches
            exact legacy_opened hreaches hsystem
        | false =>
            rw [hsw] at hreaches
            exact legacy_opened hreaches huser
      refine H.observed.wp_executeOperations_edits (fun _ _ => trivial) (lastMode_writes items)
        hchanges (fun hfalse => hfalse.elim) (fun w hw hidle v hv => ?_) fun w hw hbusy => ?_
      · refine ⟨fun _ => ⟨path, _, hpath, hloaded, ?_⟩, fun _ => rfl⟩
        rw [if_pos hidle]
        exact ((ht.trans hw).trans hv).1
      · rw [hnvram]
        refine wp_ofHandler.mpr fun v hv => ⟨fun hzero => ⟨path, _, hpath, hloaded, ?_⟩,
          fun hready => ?_⟩
        · rw [if_neg hbusy]
          have hcommit := run_commitList_legacy H hopen (fun _ hpriv => hpriv) _ w
            (exitStatus_eq_zero_iff.mp hzero)
          rwa [hw.1, ht.1, ← hv.1] at hcommit
        · obtain ⟨path', list', hpath', hlist', hidle⟩ := hready.2 _ (lastMode_reaches items)
          have hpath' : legacySection (writtenSections cfg env (finalOpts items)).1
              (writtenSections cfg env (finalOpts items)).2 = some path' := by
            unfold writtenSections
            rw [finalOpts_mode]
            exact hpath'
          obtain rfl := Option.some.inj (hpath.symm.trans hpath')
          obtain rfl := Option.some.inj (hloaded.symm.trans hlist')
          exact absurd (hidle rfl) hbusy
  exact wp_ofHandler.mp hmain

end

/-! ### What a batch leaves to be read -/

/-- The list already says what the edits say. -/
def Unneeded (loaded : List Entry) (batch : List (Keyed.Edit Entry Bytes)) : Prop :=
  ∀ e ∈ batch, Keyed.get Entry.key loaded (e.key? Entry.key) = e.value

/-- Every entry that the batch leaves in the list can be read back. -/
def LeavesRereadable (loaded : List Entry) (batch : List (Keyed.Edit Entry Bytes)) : Prop :=
  ∀ k e, Keyed.lastOf Entry.key (Keyed.get Entry.key loaded k) batch k = some e → Rereadable e

section

variable {lib : Libnvram} (hl : lib.ListLaws)

include hl

theorem legacyList_distinct {content : Bytes} {list : List Entry}
    (h : legacyList lib content = some list) : Keyed.Distinct Entry.key list := by
  obtain ⟨entries, _, rfl⟩ := Option.map_eq_some_iff.mp h
  exact (Keyed.Sets.foldl hl.listSet entries Keyed.distinct_nil).1

theorem unneeded_iff {loaded : List Entry} (hloaded : Keyed.Distinct Entry.key loaded)
    (batch : List (Keyed.Edit Entry Bytes)) :
    Unneeded loaded batch ↔ ∀ e ∈ batch, editList lib loaded e = none :=
  forall₂_congr fun e _ => (editList_eq_none_iff hl hloaded e).symm

/-- The rows of the list after a batch can be read exactly when the batch leaves entries that
can be read back. -/
theorem legacyList_rows_iff {loaded : List Entry} (hloaded : Keyed.Distinct Entry.key loaded)
    {batch : List (Keyed.Edit Entry Bytes)} (hstorable : Storable (editAll lib loaded batch)) :
    (∃ list, legacyList lib ((editAll lib loaded batch).flatMap row) = some list) ↔
      LeavesRereadable loaded batch := by
  obtain ⟨hdistinct, hget⟩ := editAll_spec hl hloaded batch
  have hrows := legacyParse_rows fun e he => (hstorable e he).1
  have hall : (∀ e ∈ editAll lib loaded batch, Rereadable e) ↔ LeavesRereadable loaded batch := by
    constructor
    · intro h k e hlast
      rw [← hget k] at hlast
      exact h e (Keyed.mem_of_get hlast)
    · intro h e he
      have hfound := Keyed.get_of_mem hdistinct he
      rw [hget e.key] at hfound
      exact h e.key e hfound
  rw [← hall]
  unfold legacyList
  rw [hrows]
  by_cases h : ∀ e ∈ editAll lib loaded batch, Rereadable e
  · rw [if_pos h]
    exact iff_of_true ⟨_, rfl⟩ h
  · rw [if_neg h]
    exact iff_of_false (fun hsome => by
      obtain ⟨_, hsome⟩ := hsome
      cases hsome) h

end

/-! ### On regular files -/

section

variable (lib : Libnvram) (crc32 : Bytes → UInt32) (cfg : BuildConfig) (gpio : Option CString)
  (fill : (n : ℕ) → {buf : Bytes // buf.length = n})

/-- `legacy_init` on the sections returns 0 with the list. -/
def LegacyInits (m : Machine FileSystem) (sections : Option CString × Option CString)
    (list : List Entry) : Prop :=
  ∃ nvram, (run (fileMachine lib gpio fill) (legacyInit .file sections.1 sections.2) m).1 =
    .ok (nvram, list)

/-- The invocation uses the legacy format on regular files. -/
def OnLegacyFiles (env : Environ) (args : List CString) : Prop :=
  ∀ items, commandLine args = some items →
    nvramGetInterface cfg (interfaceNameOf cfg env (finalOpts items)) = some .file ∧
      formatNameOf cfg env (finalOpts items) = lit "legacy"

/-- The machine after an invocation. -/
abbrev afterMain (env : Environ) (args : List CString) (m : Machine FileSystem) :
    Machine FileSystem :=
  (run (fileMachine lib gpio fill) (main lib crc32 cfg env args) m).2

/-- The batch of the invocation, if it consists of changes, is not needed or leaves entries
that can be read back. -/
def KeepsReadable (env : Environ) (args : List CString) (m : Machine FileSystem) : Prop :=
  ∀ items loaded, commandLine args = some items → (∀ it ∈ requested items, it.Changes) →
    LegacyInits lib gpio fill m (writtenSections cfg env (finalOpts items)) loaded →
    Unneeded loaded (edits (requested items)) ∨ LeavesRereadable loaded (edits (requested items))

/-- The machines that sequences of invocations reach from empty or missing files, all of them
successful and none leaving an entry that cannot be read back. -/
inductive LegacyRun : Machine FileSystem → Prop where
  | start {m : Machine FileSystem} : (∀ path, m.sys.content path = []) → LegacyRun m
  | step {m : Machine FileSystem} {env : Environ} {args : List CString} : LegacyRun m →
      OnLegacyFiles cfg env args →
      (run (fileMachine lib gpio fill) (main lib crc32 cfg env args) m).1 = 0 →
      KeepsReadable lib cfg gpio fill env args m →
      LegacyRun (afterMain lib crc32 cfg gpio fill env args m)

/-- Every legacy side can be initialised, and deleting a key that is not there succeeds. -/
structure Usable (m : Machine FileSystem) : Prop where
  inits : ∀ sections path, legacySection sections.1 sections.2 = some path →
    ∃ list, LegacyInits lib gpio fill m sections list
  deletes : ∀ env args items key, OnLegacyFiles cfg env args → Proceeds lib crc32 cfg env args →
    commandLine args = some items → requested items = [.del key] →
    (∀ system, (lastMode items).reaches system = true → ∃ path,
      legacySection (sideSections cfg env (interfaceNameOf cfg env (finalOpts items))
          (finalOpts items) system).1
        (sideSections cfg env (interfaceNameOf cfg env (finalOpts items))
          (finalOpts items) system).2 = some path) →
    (∀ list, LegacyInits lib gpio fill m (writtenSections cfg env (finalOpts items)) list →
      Keyed.get Entry.key list key.bytesZ = none) →
    (run (fileMachine lib gpio fill) (main lib crc32 cfg env args) m).1 = 0

end

section

variable {lib : Libnvram} {crc32 : Bytes → UInt32} {cfg : BuildConfig} {gpio : Option CString}
  {fill : (n : ℕ) → {buf : Bytes // buf.length = n}}

theorem legacyInits_iff {m : Machine FileSystem} {sections : Option CString × Option CString}
    {list : List Entry} :
    LegacyInits lib gpio fill m sections list ↔ ∃ path,
      legacySection sections.1 sections.2 = some path ∧
        legacyList lib (m.sys.content path) = some list := by
  have hinits : ∀ path, legacySection sections.1 sections.2 = some path →
      (LegacyInits lib gpio fill m sections list ↔
        legacyList lib (m.sys.content path) = some list) := fun path hpath =>
    (fileMachine.healthy lib gpio fill).run_legacyInit_iff hpath trivial m list
  cases hpath : legacySection sections.1 sections.2 with
  | none =>
      obtain ⟨r, t, hrun, hresult, -⟩ :=
        (fileMachine.healthy lib gpio fill).run_legacyInit (fun _ _ => trivial) m
      rw [LegacyResult, SingleResult, hpath] at hresult
      obtain ⟨e, rfl⟩ := hresult
      unfold LegacyInits
      rw [hrun]
      simp
  | some path =>
      rw [hinits path hpath]
      simp

theorem legacyInits_iff_of_section {m : Machine FileSystem}
    {sections : Option CString × Option CString} {path : CString} {list : List Entry}
    (hpath : legacySection sections.1 sections.2 = some path) :
    LegacyInits lib gpio fill m sections list ↔
      legacyList lib (m.sys.content path) = some list := by
  rw [legacyInits_iff]
  constructor
  · intro h
    obtain ⟨path', hpath', hlist⟩ := h
    obtain rfl := Option.some.inj (hpath.symm.trans hpath')
    exact hlist
  · intro h
    exact ⟨path, hpath, h⟩

section

variable (hl : lib.ListLaws) {m : Machine FileSystem} {env : Environ} {args : List CString}
  (hon : OnLegacyFiles cfg env args)

include hl hon

/-- What a successful batch of changes leaves in the section it writes: the content it found,
or the rows of the list after the batch. -/
theorem legacy_content_after {items : List Item} (hitems : commandLine args = some items)
    (hchanges : ∀ it ∈ requested items, it.Changes)
    (hzero : (run (fileMachine lib gpio fill) (main lib crc32 cfg env args) m).1 = 0)
    {loaded : List Entry}
    (hinit : LegacyInits lib gpio fill m (writtenSections cfg env (finalOpts items)) loaded) :
    ∃ path content, legacySection (writtenSections cfg env (finalOpts items)).1
        (writtenSections cfg env (finalOpts items)).2 = some path ∧
      legacyList lib (m.sys.content path) = some loaded ∧
      (afterMain lib crc32 cfg gpio fill env args m).sys.content path = content ∧
      (Unneeded loaded (edits (requested items)) ∧ content = m.sys.content path ∨
        ¬ Unneeded loaded (edits (requested items)) ∧
          Storable (editAll lib loaded (edits (requested items))) ∧
          content = (editAll lib loaded (edits (requested items))).flatMap row) := by
  obtain ⟨hinterface, hformat⟩ := hon items hitems
  obtain ⟨path, loaded', hpath, hloaded, hleft⟩ := (run_main_legacy crc32
    (fileMachine.healthy lib gpio fill) hitems hinterface hformat hchanges
    (fun _ => ⟨fun _ _ => trivial, fun _ _ => trivial⟩) m).1 hzero
  obtain rfl : loaded' = loaded :=
    Option.some.inj (hloaded.symm.trans ((legacyInits_iff_of_section hpath).mp hinit))
  have hneeded := unneeded_iff hl (legacyList_distinct hl hloaded) (edits (requested items))
  refine ⟨path, _, hpath, hloaded, rfl, ?_⟩
  split at hleft
  · rename_i hidle
    exact Or.inl ⟨hneeded.mpr hidle, congrFun hleft path⟩
  · rename_i hbusy
    obtain ⟨hstorable, hcontents⟩ := hleft
    have hrows := congrFun hcontents path
    rw [Healthy.storeAt, Function.update_self] at hrows
    exact Or.inr ⟨fun h => hbusy (hneeded.mp h), hstorable, hrows⟩

/-- After a successful batch of changes the store can be read exactly when the batch was not
needed or leaves entries that can be read back. -/
theorem legacyInits_after_iff {items : List Item} (hitems : commandLine args = some items)
    (hchanges : ∀ it ∈ requested items, it.Changes)
    (hzero : (run (fileMachine lib gpio fill) (main lib crc32 cfg env args) m).1 = 0)
    {loaded : List Entry}
    (hinit : LegacyInits lib gpio fill m (writtenSections cfg env (finalOpts items)) loaded) :
    (∃ list, LegacyInits lib gpio fill (afterMain lib crc32 cfg gpio fill env args m)
        (writtenSections cfg env (finalOpts items)) list) ↔
      Unneeded loaded (edits (requested items)) ∨
        LeavesRereadable loaded (edits (requested items)) := by
  obtain ⟨path, content, hpath, hloaded, hcontent, hleft⟩ :=
    legacy_content_after hl hon hitems hchanges hzero hinit
  simp only [legacyInits_iff_of_section hpath, hcontent]
  rcases hleft with ⟨hidle, rfl⟩ | ⟨hbusy, hstorable, rfl⟩
  · exact iff_of_true ⟨_, hloaded⟩ (Or.inl hidle)
  · rw [legacyList_rows_iff hl (legacyList_distinct hl hloaded) hstorable]
    exact ⟨Or.inr, fun h => h.resolve_left hbusy⟩

/-- What a successful invocation keeps: every content can be read. -/
theorem readable_after
    (hzero : (run (fileMachine lib gpio fill) (main lib crc32 cfg env args) m).1 = 0)
    (hkeeps : KeepsReadable lib cfg gpio fill env args m)
    (hm : ∀ path, ∃ list, legacyList lib (m.sys.content path) = some list) (path : CString) :
    ∃ list, legacyList lib ((afterMain lib crc32 cfg gpio fill env args m).sys.content path) =
      some list := by
  let H := fileMachine.healthy lib gpio fill
  by_cases hall : ∃ items, commandLine args = some items ∧ ∀ it ∈ requested items, it.Changes
  · obtain ⟨items, hitems, hchanges⟩ := hall
    obtain ⟨hinterface, hformat⟩ := hon items hitems
    obtain ⟨target, loaded, hpath, hloaded, hleft⟩ := (run_main_legacy crc32 H hitems hinterface
      hformat hchanges (fun _ => ⟨fun _ _ => trivial, fun _ _ => trivial⟩) m).1 hzero
    by_cases htarget : path = target
    · subst htarget
      have hinit : LegacyInits lib gpio fill m (writtenSections cfg env (finalOpts items))
          loaded := legacyInits_iff.mpr ⟨path, hpath, hloaded⟩
      obtain ⟨list, hlist⟩ := (legacyInits_after_iff hl hon hitems hchanges hzero hinit).mpr
        (hkeeps items loaded hitems hchanges hinit)
      obtain ⟨path', hpath', hlist⟩ := legacyInits_iff.mp hlist
      obtain rfl := Option.some.inj (hpath.symm.trans hpath')
      exact ⟨list, hlist⟩
    · have hsame : (afterMain lib crc32 cfg gpio fill env args m).sys.content path =
          m.sys.content path := by
        split at hleft
        · exact congrFun hleft path
        · have hother := congrFun hleft.2 path
          rwa [Healthy.storeAt, Function.update_of_ne htarget] at hother
      rw [hsame]
      exact hm path
  · have hcontents := H.run_main_contents crc32
      (fun items j hitems hj => Option.some.inj (hj.symm.trans (hon items hitems).1))
      (fun items hitems hchanges => hall ⟨items, hitems, hchanges⟩) m
    have hsame : (afterMain lib crc32 cfg gpio fill env args m).sys.content path =
        m.sys.content path := congrFun hcontents path
    rw [hsame]
    exact hm path

end

theorem LegacyRun.readable (hl : lib.ListLaws) {m : Machine FileSystem}
    (h : LegacyRun lib crc32 cfg gpio fill m) (path : CString) :
    ∃ list, legacyList lib (m.sys.content path) = some list := by
  induction h generalizing path with
  | start hempty =>
      rw [hempty path]
      exact ⟨[], rfl⟩
  | step _ hon hzero hkeeps ih => exact readable_after hl hon hzero hkeeps ih path

/-- Where every content can be read, every side can be initialised and absent keys can be
deleted. -/
theorem usable_of_readable (hl : lib.ListLaws) {m : Machine FileSystem}
    (hm : ∀ path, ∃ list, legacyList lib (m.sys.content path) = some list) :
    Usable lib crc32 cfg gpio fill m where
  inits sections path hpath := by
    obtain ⟨list, hlist⟩ := hm path
    exact ⟨list, legacyInits_iff.mpr ⟨path, hpath, hlist⟩⟩
  deletes env args items key hon hproceeds hitems hkey hlegal habsent := by
    obtain ⟨hinterface, hformat⟩ := hon items hitems
    refine (run_main_legacy crc32 (fileMachine.healthy lib gpio fill) hitems hinterface hformat
      (fun it hit => ?_) (fun _ => ⟨fun _ _ => trivial, fun _ _ => trivial⟩) m).2
      ⟨hproceeds, fun system hreaches => ?_⟩
    · rw [hkey, List.mem_singleton] at hit
      rw [hit]
      trivial
    · obtain ⟨path, hpath⟩ := hlegal system hreaches
      obtain ⟨list, hlist⟩ := hm path
      refine ⟨path, list, hpath, hlist, fun hwritten e he => ?_⟩
      have hedits : edits (requested items) = [.erase key.bytesZ] := by
        rw [hkey]
        rfl
      rw [hedits, List.mem_singleton] at he
      rw [he, editList_eq_none_iff hl (legacyList_distinct hl hlist)]
      rw [hwritten, ← finalOpts_mode] at hpath
      exact habsent list (legacyInits_iff.mpr ⟨path, hpath, hlist⟩)

end

/-- A successful batch of changes on a legacy store leaves it readable exactly when the batch
was not needed or leaves entries that can be read back, and in runs of such batches from
empty files every store stays usable. -/
theorem legacy_stays_readable_iff {lib : Libnvram} (hl : lib.ListLaws) (crc32 : Bytes → UInt32)
    (cfg : BuildConfig) (gpio : Option CString)
    (fill : (n : ℕ) → {buf : Bytes // buf.length = n}) :
    (∀ m env args items loaded, OnLegacyFiles cfg env args → commandLine args = some items →
      (∀ it ∈ requested items, it.Changes) →
      LegacyInits lib gpio fill m (writtenSections cfg env (finalOpts items)) loaded →
      (run (fileMachine lib gpio fill) (main lib crc32 cfg env args) m).1 = 0 →
      ((∃ list, LegacyInits lib gpio fill (afterMain lib crc32 cfg gpio fill env args m)
          (writtenSections cfg env (finalOpts items)) list) ↔
        Unneeded loaded (edits (requested items)) ∨
          LeavesRereadable loaded (edits (requested items)))) ∧
      ∀ m, LegacyRun lib crc32 cfg gpio fill m → Usable lib crc32 cfg gpio fill m :=
  ⟨fun _ _ _ _ _ hon hitems hchanges hinit hzero =>
      legacyInits_after_iff hl hon hitems hchanges hzero hinit,
    fun _ hrun => usable_of_readable hl (LegacyRun.readable hl hrun)⟩

/-! ### Evaluated on a plain library -/

/-- A build with one file a side and the legacy format. -/
def legacyConfig : BuildConfig :=
  { sampleConfig with
    formatDefault := lit "legacy"
    formatLegacy := true
    interfaceFile := some ⟨lit "sa", lit "", lit "ua", lit ""⟩ }

/-- `nvram` with these arguments on the files of `m`: the status, and what it leaves. -/
abbrev legacyMain (args : List String) (m : Machine FileSystem) : ℕ × Machine FileSystem :=
  run (fileMachine plainLibnvram none zeros)
    (main plainLibnvram zlibCrc32 legacyConfig (fun _ => none) (args.map lit)) m

theorem onLegacyFiles_sample {args : List CString} {items : List Item}
    (hitems : some items = commandLine args)
    (hinterface : (finalOpts items).interfaceOverride = none)
    (hformat : (finalOpts items).formatOverride = none) :
    OnLegacyFiles legacyConfig (fun _ => none) args := by
  intro items' hitems'
  obtain rfl := Option.some.inj (hitems.trans hitems')
  rw [interfaceNameOf, formatNameOf, hinterface, hformat]
  decide

theorem legacy_stays_readable_iff_sample :
    (∃ list, LegacyInits plainLibnvram none zeros
        (legacyMain ["--user", "set", "key", "value"] noFiles).2 (some (lit "ua"), some (lit ""))
        list) ↔
      Unneeded [] (edits [.set (lit "key") (lit "value")]) ∨
        LeavesRereadable [] (edits [.set (lit "key") (lit "value")]) :=
  (legacy_stays_readable_iff Plain.listLaws zlibCrc32 legacyConfig none zeros).1 noFiles
    (fun _ => none) (["--user", "set", "key", "value"].map lit)
    [.flag .user, .operation (.set (lit "key") (lit "value"))] []
    (onLegacyFiles_sample rfl rfl rfl) rfl (by decide)
    (legacyInits_iff.mpr ⟨lit "ua", by decide, rfl⟩) (by decide +kernel)

/-- Setting an empty value in an empty store returns 0, and after it every init of the store,
and with it every command on it, fails. -/
theorem legacy_empty_value_unreadable :
    let stored := legacyMain ["--user", "set", "key", ""] noFiles
    stored.1 = 0 ∧
      (¬ ∃ list, LegacyInits plainLibnvram none zeros stored.2 (some (lit "ua"), some (lit ""))
        list) ∧
      (legacyMain ["--user", "get", "key"] stored.2).1 = 22 ∧
      (legacyMain ["--user", "set", "key", "value"] stored.2).1 = 22 ∧
      (legacyMain ["--user", "delete", "key"] stored.2).1 = 22 := by
  refine ⟨by decide +kernel, ?_, by decide +kernel, by decide +kernel, by decide +kernel⟩
  rintro ⟨list, nvram, hok⟩
  have herror : (run (fileMachine plainLibnvram none zeros)
      (legacyInit .file (some (lit "ua")) (some (lit "")))
      (legacyMain ["--user", "set", "key", ""] noFiles).2).1 = .error einval := by
    decide +kernel
  rw [herror] at hok
  cases hok

end Nvram
