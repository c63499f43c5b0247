import Nvram.Program.Changes
import Nvram.Program.Grammar
import Nvram.Program.Queries

/-!
# The program refines the reference machine

With the v2 format on healthy sections every invocation does what a step of the reference
machine does: it succeeds where that succeeds, prints what that prints, and leaves stores that
load lists which stand for the maps that it leaves.
-/

namespace Nvram

open Effects Errno

/-- The invocation keeps to the interface, to the v2 format and to the sections. -/
structure Invocation.KeepsTo (lib : Libnvram) (crc32 : Bytes → UInt32) (cfg : BuildConfig)
    (i : Interface) (sections : Bool → Option CString × Option CString) (inv : Invocation) :
    Prop where
  interface : ∀ items j, commandLine inv.args = some items →
    nvramGetInterface cfg (interfaceNameOf cfg inv.env (finalOpts items)) = some j → j = i
  format : ∀ items format, commandLine inv.args = some items →
    nvramGetFormat lib crc32 cfg (formatNameOf cfg inv.env (finalOpts items)) = some format →
    formatNameOf cfg inv.env (finalOpts items) = lit "v2"
  sections : ∀ items system, commandLine inv.args = some items →
    nvramGetInterface cfg (interfaceNameOf cfg inv.env (finalOpts items)) = some i →
    sectionsOf cfg inv.env items system = sections system

/-- An accepted batch either changes or shows. -/
theorem Accepted.shows_of_not_changes {cfg : BuildConfig} {env : Environ} {mode : Mode}
    {operations : List Operation} (h : Accepted cfg env mode operations)
    (hno : ¬ ∀ it ∈ operations, it.Changes) : ∀ it ∈ operations, it.Shows := by
  intro it hit
  refine Operation.shows_of_not_changes fun hchanges => hno ?_
  exact h.all_change ⟨it, hit, hchanges⟩

/-- What keeps to the v2 format and gets to the lock is a batch for the v2 format. -/
theorem Invocation.KeepsTo.v2Batch {lib : Libnvram} {crc32 : Bytes → UInt32} {cfg : BuildConfig}
    {i : Interface} {sections : Bool → Option CString × Option CString} {inv : Invocation}
    (h : inv.KeepsTo lib crc32 cfg i sections) (hproceeds : Proceeds lib crc32 cfg inv.env inv.args) :
    ∃ items, V2Batch lib crc32 cfg inv.env i inv.args items := by
  obtain ⟨items, hitems, hinterface, hformat, haccepted⟩ := hproceeds
  obtain ⟨j, hj⟩ := Option.isSome_iff_exists.mp hinterface
  obtain ⟨format, hformat⟩ := Option.isSome_iff_exists.mp hformat
  obtain rfl := h.interface items j hitems hj
  refine ⟨items, hitems, hj, ?_, haccepted⟩
  have hname := h.format items format hitems hformat
  rw [hformat]
  rcases nvramGetFormat_cases lib crc32 hformat with ⟨-, rfl⟩ | ⟨hlegacy, -⟩ | ⟨_, ⟨hplatform, -⟩, -⟩
  · rfl
  · rw [hname] at hlegacy
    exact absurd hlegacy (by decide)
  · rw [hname] at hplatform
    exact absurd hplatform (by decide)

/-! ### Lengths -/

/-- What a key is mapped to after a batch, it was mapped to before or was set to. -/
theorem Settings.eq_or_mem_of_after {m : Settings} {operations : List Operation}
    {key value : CString} (h : m.after operations key = some value) :
    m key = some value ∨ .set key value ∈ operations := by
  unfold Settings.after at h
  cases hlast : (operations.filterMap (Operation.setting? key)).getLast? with
  | none =>
      rw [hlast, Option.getD_none] at h
      exact Or.inl h
  | some setting =>
      rw [hlast, Option.getD_some] at h
      subst h
      obtain ⟨it, hit, hsetting⟩ := List.mem_filterMap.mp (List.mem_of_getLast? hlast)
      cases it with
      | set k v =>
          simp only [Operation.setting?] at hsetting
          split_ifs at hsetting with hk
          cases hsetting
          subst hk
          exact Or.inr hit
      | del k =>
          simp only [Operation.setting?] at hsetting
          split_ifs at hsetting
          cases hsetting
      | list => cases hsetting
      | get k => cases hsetting

theorem Maps.eq_or_mem_of_after {maps : Maps} {mode : Mode} {operations : List Operation}
    {system : Bool} {key value : CString}
    (h : maps.after mode operations system key = some value) :
    maps system key = some value ∨ .set key value ∈ operations := by
  unfold Maps.after at h
  by_cases hwritten : system = mode.systemWrite
  · subst hwritten
    rw [Function.update_self] at h
    exact Settings.eq_or_mem_of_after h
  · rw [Function.update_of_ne hwritten] at h
    exact Or.inl h

theorem mem_of_set_requested {items : List Item} {key value : CString}
    (h : .set key value ∈ requested items) : .operation (.set key value) ∈ items := by
  unfold requested at h
  split at h
  · cases List.mem_singleton.mp h
  · obtain ⟨item, hitem, hoperation⟩ := List.mem_filterMap.mp h
    cases item with
    | operation it =>
        cases hoperation
        exact hitem
    | flag f => cases hoperation
    | store opt str => cases hoperation

/-- What an invocation sets is as short as its arguments. -/
theorem Invocation.short_after {inv : Invocation} {items : List Item}
    (hitems : commandLine inv.args = some items) {maps : Maps}
    (hshort : ∀ system, (maps system).Short) (system : Bool) :
    (maps.after (lastMode items) (requested items) system).Short := by
  intro key value hvalue
  rcases Maps.eq_or_mem_of_after hvalue with hold | hset
  · exact hshort system key value hold
  · obtain ⟨hkey, hvalue⟩ := (sentence_iff.mpr hitems).mem_of_set (mem_of_set_requested hset)
    exact ⟨inv.short key hkey, inv.short value hvalue⟩

namespace Healthy

variable {lib : Libnvram} (crc32 : Bytes → UInt32) (cfg : BuildConfig) {σ : Type}
  {i : Interface} {h : Handler callSig σ} (H : Healthy lib i h)

/-! ### What is seen -/

/-- Run an invocation: whether it ends with status 0, and what it adds to the output. -/
def observe (inv : Invocation) (s : σ) : Observation × σ :=
  let out := run h (main lib crc32 cfg inv.env inv.args) s
  (⟨out.1 = 0, (H.stdout out.2).drop (H.stdout s).length⟩, out.2)

/-- Run invocations one after the other. -/
def observeAll : List Invocation → σ → List (Observation × σ)
  | [], _ => []
  | inv :: invs, s =>
    H.observe crc32 cfg inv s :: observeAll invs (H.observe crc32 cfg inv s).2

variable {crc32 cfg} in
theorem observe_eq {inv : Invocation} {s t : σ} {c : ℕ} {out : Bytes}
    (hrun : run h (main lib crc32 cfg inv.env inv.args) s = (c, t))
    (hstdout : H.stdout t = H.stdout s ++ out) :
    H.observe crc32 cfg inv s = (⟨c = 0, out⟩, t) := by
  unfold observe
  rw [hrun]
  dsimp only
  rw [hstdout, List.drop_left]

variable {crc32 cfg} in
theorem observe_silent {inv : Invocation} {s t : σ} {c : ℕ}
    (hrun : run h (main lib crc32 cfg inv.env inv.args) s = (c, t))
    (hstdout : H.stdout t = H.stdout s) :
    H.observe crc32 cfg inv s = (⟨c = 0, []⟩, t) :=
  H.observe_eq hrun (hstdout.trans (List.append_nil _).symm)

/-! ### What the stores stand for -/

/-- The sides load lists that stand for the maps. -/
def Stands (sections : Bool → Option CString × Option CString) (maps : Maps) (s : σ) : Prop :=
  ∀ system, ∃ list, Loads lib (H.contents s) (sections system) list ∧
    Represents list (maps system)

variable {H} in
theorem Stands.of_contents {sections : Bool → Option CString × Option CString} {maps : Maps}
    {s t : σ} (hstands : H.Stands sections maps s) (ht : H.contents t = H.contents s) :
    H.Stands sections maps t := by
  intro system
  rw [ht]
  exact hstands system

variable {H} in
/-- A side is given another map, and the other side is left as it was. -/
theorem Stands.update {sections : Bool → Option CString × Option CString} {maps : Maps} {s t : σ}
    (hstands : H.Stands sections maps s)
    (hdisjoint : ∀ path, ¬ (Configured (sections true) path ∧ Configured (sections false) path))
    {system : Bool} {list : List Entry} {m : Settings}
    (hloads : Loads lib (H.contents t) (sections system) list) (hlist : Represents list m)
    (hkept : ∀ path, ¬ Configured (sections system) path →
      H.contents t path = H.contents s path) :
    H.Stands sections (Function.update maps system m) t := by
  intro other
  by_cases hother : other = system
  · subst hother
    rw [Function.update_self]
    exact ⟨list, hloads, hlist⟩
  · rw [Function.update_of_ne hother]
    obtain ⟨old, hold, hrepresents⟩ := hstands other
    refine ⟨old, hold.congr fun path hpath => hkept path fun hpath' => ?_, hrepresents⟩
    apply hdisjoint path
    cases other with
    | true =>
        obtain rfl : system = false := by simpa using Ne.symm hother
        exact ⟨hpath, hpath'⟩
    | false =>
        obtain rfl : system = true := by simpa using Ne.symm hother
        exact ⟨hpath', hpath⟩

/-! ### One invocation -/

section

variable {crc32 cfg} {sections : Bool → Option CString × Option CString} {inv : Invocation}
  {maps : Maps} {s : σ} (hkeeps : inv.KeepsTo lib crc32 cfg i sections)

include hkeeps

/-- A rejected invocation fails, prints nothing and changes nothing. -/
theorem observe_of_rejected (hno : ¬ Proceeds lib crc32 cfg inv.env inv.args) :
    ∃ t, H.observe crc32 cfg inv s = (⟨false, []⟩, t) ∧ H.contents t = H.contents s := by
  have hwp : wp (World.ofHandler h) (fun c t => c ≠ 0 ∧ H.Same s t) (fun _ => True)
      (main lib crc32 cfg inv.env inv.args) s := by
    refine H.observed.wp_main (fun _ _ => trivial) hkeeps.interface (fun c t hst hwhy => ?_)
      fun items format hitems hinterface hformat haccepted _ _ => ?_
    · exact ⟨(hwhy.resolve_left id).2, hst⟩
    · refine absurd ⟨items, hitems, ?_, ?_, haccepted⟩ hno
      · rw [hinterface]
        rfl
      · rw [hformat]
        rfl
  rw [wp_ofHandler] at hwp
  obtain ⟨hstatus, hcontents, hstdout⟩ := hwp
  refine ⟨_, ?_, hcontents⟩
  rw [H.observe_silent rfl hstdout, decide_eq_false hstatus]

/-- A batch of queries is answered from the maps. -/
theorem observe_of_shows (hl : lib.ListLaws)
    (hhealthy : ∀ system path, Configured (sections system) path → H.Section path)
    {items : List Item} (hbatch : V2Batch lib crc32 cfg inv.env i inv.args items)
    (hshows : ∀ it ∈ requested items, it.Shows) (hstands : H.Stands sections maps s)
    (hshort : ∀ system, (maps system).Short) :
    ∃ texts t, (∀ system, Enumerates (texts system) (maps system)) ∧
      H.observe crc32 cfg inv s =
        (⟨(answer maps (lastMode items) texts (requested items)).2,
          (answer maps (lastMode items) texts (requested items)).1⟩, t) ∧
      H.contents t = H.contents s := by
  have hsections := fun system => hkeeps.sections items system hbatch.arguments hbatch.interface
  choose list hloads hrepresents using hstands
  choose texts htexts henumerates using fun system => (hrepresents system).exists_texts
  have hreached : ∀ system {nvram : V2Nvram} {list' : List Entry},
      Reaches lib (H.view s) i (sectionsOf cfg inv.env items system) nvram list' →
      list' = list system := by
    intro system nvram list' hreaches
    have hloads' := hreaches.loads
    rw [hsections] at hloads'
    exact hloads'.unique (hloads system)
  have hwp : wp (World.ofHandler h) (fun c t => H.contents t = H.contents s ∧
        H.stdout t = H.stdout s ++ (answer maps (lastMode items) texts (requested items)).1 ∧
        (c = 0 ↔ (answer maps (lastMode items) texts (requested items)).2 = true))
      (fun _ => True) (main lib crc32 cfg inv.env inv.args) s := by
    refine H.observed.wp_batch hbatch (fun system path hpath => ?_)
      (fun system _ hno => ?_) fun system user hsides t hst => ?_
    · rw [hsections] at hpath
      exact hhealthy system path hpath
    · have hloads := hloads system
      rw [← hsections] at hloads
      exact absurd hloads (hno (list system))
    · have hsystem : (lastMode items).systemRead = true → system.2 = list true := by
        intro hread
        obtain ⟨nvram, -, hreaches⟩ := hsides true (by simp [Mode.reaches, hread])
        exact hreached true hreaches
      have huser : (lastMode items).userRead = true → user.2 = list false := by
        intro hread
        obtain ⟨nvram, -, hreaches⟩ := hsides false (by simp [Mode.reaches, hread])
        exact hreached false hreaches
      have hshown : Shown (lastMode items) maps texts ⟨system.2, user.2, false⟩ := by
        refine ⟨hshort, henumerates, fun hread => ?_, fun hread => ?_, fun hread => ?_,
          fun hread => ?_⟩
        · exact (hsystem hread).trans (htexts true)
        · exact (hsystem hread).symm ▸ hrepresents true
        · exact (huser hread).trans (htexts false)
        · exact (huser hread).symm ▸ hrepresents false
      obtain ⟨u, hrun, hcontents, hstdout⟩ := H.prints_executeOperations hl hshows
        (nvramV2Format lib) system.1 user.1 hshown t
      rw [wp_ofHandler, hrun]
      intro v hv
      refine ⟨hv.1.trans (hcontents.trans hst.1), ?_, ?_⟩
      · rw [hv.2, hstdout, hst.2]
      · cases hok : (answer maps (lastMode items) texts (requested items)).2 with
        | true => exact iff_of_true rfl rfl
        | false => exact iff_of_false Errno.enoent.pos.ne' Bool.false_ne_true
  rw [wp_ofHandler] at hwp
  obtain ⟨hcontents, hstdout, hstatus⟩ := hwp
  refine ⟨texts, _, henumerates, ?_, hcontents⟩
  rw [H.observe_eq rfl hstdout]
  simp only [hstatus, Bool.decide_eq_true]

/-- A batch of changes succeeds, prints nothing and changes the map of the written side. -/
theorem observe_of_changes (hi : lib.ImageLaws) (ht : lib.TransactionLaws) (hl : lib.ListLaws)
    (hhealthy : ∀ system path, Configured (sections system) path → H.Section path)
    (hsection : ∀ system, ∃ path, Configured (sections system) path)
    (hdisjoint : ∀ path, ¬ (Configured (sections true) path ∧ Configured (sections false) path))
    {items : List Item} (hchanges : V2Changes lib crc32 cfg inv.env i inv.args items)
    (hstands : H.Stands sections maps s)
    (hroom : ∀ system list,
      Represents list (maps.after (lastMode items) (requested items) system) →
      Serialises lib list ∧ H.Room (sections system) list) :
    ∃ t, H.observe crc32 cfg inv s = (⟨true, []⟩, t) ∧
      H.Stands sections (maps.after (lastMode items) (requested items)) t := by
  have hsections := fun system =>
    hkeeps.sections items system hchanges.arguments hchanges.interface
  have hwritten : writtenOf cfg inv.env items = sections (lastMode items).systemWrite :=
    hsections _
  -- the list of the written side, before and after
  obtain ⟨list, hloads, hrepresents⟩ := hstands (lastMode items).systemWrite
  have hedited : Represents (editAll lib list (edits (requested items)))
      ((maps (lastMode items).systemWrite).after (requested items)) :=
    hrepresents.editAll hl (requested items)
  obtain ⟨hserial, hfits⟩ := hroom (lastMode items).systemWrite _ (by
    rw [Maps.after, Function.update_self]
    exact hedited)
  have hunique : ∀ {list'}, Loads lib (H.contents s) (writtenOf cfg inv.env items) list' →
      list' = list := by
    intro list' hloads'
    rw [hwritten] at hloads'
    exact hloads'.unique hloads
  have houtcome := H.run_main_batch (s := s) hi ht hchanges
    (fun system path hpath => by
      rw [hsections] at hpath
      exact hhealthy system path hpath)
    (by
      rw [hwritten]
      exact hsection _)
    fun list' hlist' => by
      rw [hunique hlist']
      exact hserial
  cases houtcome with
  | unloaded system _ hno _ _ _ =>
      obtain ⟨old, hold, -⟩ := hstands system
      rw [← hsections] at hold
      exact absurd hold (hno old)
  | full list' hlist' hno _ =>
      rw [hunique hlist', hwritten] at hno
      exact absurd hfits hno
  | idle list' hlist' hidle hsame _ hstatus =>
      obtain rfl := hunique hlist'
      rw [editAll_of_idle hidle] at hedited
      refine ⟨_, ?_, hstands.update hdisjoint ?_ hedited fun path _ => congrFun hsame.1 path⟩
      · rw [H.observe_silent rfl hsame.2,
          decide_eq_true hstatus]
      · rw [hsame.1]
        exact hloads
  | committed list' hlist' _ hloads' hkept hstdout hstatus =>
      obtain rfl := hunique hlist'
      rw [hwritten] at hloads' hkept
      refine ⟨_, ?_, hstands.update hdisjoint hloads' hedited hkept⟩
      rw [H.observe_silent rfl hstdout,
        decide_eq_true hstatus]

/-- Every invocation does what a step of the reference machine does. -/
theorem exists_refStep (hi : lib.ImageLaws) (ht : lib.TransactionLaws) (hl : lib.ListLaws)
    (hhealthy : ∀ system path, Configured (sections system) path → H.Section path)
    (hsection : ∀ system, ∃ path, Configured (sections system) path)
    (hdisjoint : ∀ path, ¬ (Configured (sections true) path ∧ Configured (sections false) path))
    (hroom : ∀ seen maps', RefStep lib crc32 cfg maps inv seen maps' → ∀ system list,
      Represents list (maps' system) → Serialises lib list ∧ H.Room (sections system) list)
    (hstands : H.Stands sections maps s) (hshort : ∀ system, (maps system).Short) :
    ∃ seen maps' t, RefStep lib crc32 cfg maps inv seen maps' ∧
      H.observe crc32 cfg inv s = (seen, t) ∧ H.Stands sections maps' t ∧
      ∀ system, (maps' system).Short := by
  by_cases hproceeds : Proceeds lib crc32 cfg inv.env inv.args
  · obtain ⟨items, hbatch⟩ := hkeeps.v2Batch hproceeds
    by_cases hchanges : ∀ it ∈ requested items, it.Changes
    · have hstep : RefStep lib crc32 cfg maps inv ⟨true, []⟩
          (maps.after (lastMode items) (requested items)) :=
        .changes hproceeds hbatch.arguments hchanges
      obtain ⟨t, hseen, hstands'⟩ := H.observe_of_changes hkeeps hi ht hl hhealthy hsection
        hdisjoint ⟨hbatch, hchanges⟩ hstands (hroom _ _ hstep)
      exact ⟨_, _, t, hstep, hseen, hstands', Invocation.short_after hbatch.arguments hshort⟩
    · have hshows := hbatch.accepted.shows_of_not_changes hchanges
      obtain ⟨texts, t, henumerates, hseen, hcontents⟩ :=
        H.observe_of_shows hkeeps hl hhealthy hbatch hshows hstands hshort
      exact ⟨_, maps, t, .shows hproceeds hbatch.arguments hshows henumerates, hseen,
        hstands.of_contents hcontents, hshort⟩
  · obtain ⟨t, hseen, hcontents⟩ := H.observe_of_rejected hkeeps hproceeds
    exact ⟨_, maps, t, .rejected hproceeds, hseen, hstands.of_contents hcontents, hshort⟩

end

/-! ### Runs -/

/-- Every run of invocations is one of the reference machine. -/
theorem exists_refRun {crc32 : Bytes → UInt32} {cfg : BuildConfig}
    {sections : Bool → Option CString × Option CString} (hi : lib.ImageLaws)
    (ht : lib.TransactionLaws) (hl : lib.ListLaws)
    (hhealthy : ∀ system path, Configured (sections system) path → H.Section path)
    (hsection : ∀ system, ∃ path, Configured (sections system) path)
    (hdisjoint : ∀ path, ¬ (Configured (sections true) path ∧ Configured (sections false) path))
    {invs : List Invocation} (hkeeps : ∀ inv ∈ invs, inv.KeepsTo lib crc32 cfg i sections)
    {maps : Maps} {s : σ}
    (hroom : ∀ invs' outs, invs' <+: invs → RefRun lib crc32 cfg maps invs' outs →
      ∀ out ∈ outs, ∀ system list, Represents list (out.2 system) →
        Serialises lib list ∧ H.Room (sections system) list)
    (hstands : H.Stands sections maps s) (hshort : ∀ system, (maps system).Short) :
    ∃ outs, RefRun lib crc32 cfg maps invs outs ∧
      List.Forall₂ (fun (p : Observation × σ) (out : Observation × Maps) =>
        p.1 = out.1 ∧ H.Stands sections out.2 p.2) (H.observeAll crc32 cfg invs s) outs := by
  induction invs generalizing maps s with
  | nil => exact ⟨[], .nil maps, .nil⟩
  | cons inv invs ih =>
      have hstep : ∀ seen maps', RefStep lib crc32 cfg maps inv seen maps' → ∀ system list,
          Represents list (maps' system) →
            Serialises lib list ∧ H.Room (sections system) list := by
        intro seen maps' hstep
        exact hroom [inv] [(seen, maps')] (by simp) (.cons hstep (.nil maps')) (seen, maps')
          (by simp)
      obtain ⟨seen, maps', t, href, hseen, hstands', hshort'⟩ :=
        H.exists_refStep (hkeeps inv List.mem_cons_self) hi ht hl hhealthy hsection hdisjoint
          hstep hstands hshort
      have hrest : ∀ invs' outs, invs' <+: invs → RefRun lib crc32 cfg maps' invs' outs →
          ∀ out ∈ outs, ∀ system list, Represents list (out.2 system) →
            Serialises lib list ∧ H.Room (sections system) list := by
        intro invs' outs hfront hrun out hout
        exact hroom (inv :: invs') ((seen, maps') :: outs)
          (List.prefix_cons_inj inv |>.mpr hfront) (.cons href hrun) out
          (List.mem_cons_of_mem _ hout)
      obtain ⟨outs, hrun, hall⟩ :=
        ih (fun inv' hinv' => hkeeps inv' (List.mem_cons_of_mem _ hinv')) hrest hstands' hshort'
      refine ⟨(seen, maps') :: outs, .cons href hrun, ?_⟩
      unfold observeAll
      rw [hseen]
      exact .cons ⟨rfl, hstands'⟩ hall

end Healthy

/-- From blank sections the program refines the two maps: every invocation succeeds where the
reference machine does, prints what it prints, and leaves stores that stand for its maps. -/
theorem program_refines_maps {lib : Libnvram} {crc32 : Bytes → UInt32} {cfg : BuildConfig}
    {σ : Type} {i : Interface} {h : Handler callSig σ} (H : Healthy lib i h)
    (hi : lib.ImageLaws) (ht : lib.TransactionLaws) (hl : lib.ListLaws)
    {sections : Bool → Option CString × Option CString}
    (hhealthy : ∀ system path, Configured (sections system) path → H.Section path)
    (hsection : ∀ system, ∃ path, Configured (sections system) path)
    (hdisjoint : ∀ path, ¬ (Configured (sections true) path ∧ Configured (sections false) path))
    {s : σ}
    (hblank : ∀ system path, Configured (sections system) path →
      ∃ data, sectionData lib (H.contents s path) = some data ∧
        ¬ (lib.verifySection data).Verified)
    {invs : List Invocation} (hkeeps : ∀ inv ∈ invs, inv.KeepsTo lib crc32 cfg i sections)
    (hroom : ∀ invs' outs, invs' <+: invs →
      RefRun lib crc32 cfg (fun _ _ => none) invs' outs →
      ∀ out ∈ outs, ∀ system list, Represents list (out.2 system) →
        Serialises lib list ∧ H.Room (sections system) list) :
    ∃ outs, RefRun lib crc32 cfg (fun _ _ => none) invs outs ∧
      List.Forall₂ (fun (p : Observation × σ) (out : Observation × Maps) =>
        p.1 = out.1 ∧ H.Stands sections out.2 p.2) (H.observeAll crc32 cfg invs s) outs := by
  refine H.exists_refRun hi ht hl hhealthy hsection hdisjoint hkeeps hroom ?_ ?_
  · intro system
    exact ⟨[], loads_nil hi ht (hblank system), represents_nil⟩
  · intro system key value hnone
    cases hnone

/-! ### Evaluated -/

/-- A map with at most one key is represented by a list with at most its entry. -/
theorem represents_single {list : List Entry} {m : Settings} (h : Represents list m)
    {t : CString × CString} (hm : ∀ key value, m key = some value → (key, value) = t) :
    list = [] ∨ list = [textEntry t] := by
  obtain ⟨texts, rfl, henumerates⟩ := h.exists_texts
  have honly : ∀ t' ∈ texts, t' = t := by
    intro t' ht'
    exact hm t'.1 t'.2 ((henumerates.mem_iff t'.1 t'.2).mp ht')
  cases texts with
  | nil => exact Or.inl rfl
  | cons t₁ texts =>
      obtain rfl := honly t₁ List.mem_cons_self
      cases texts with
      | nil => exact Or.inr rfl
      | cons t₂ texts =>
          obtain rfl := honly t₂ (by simp)
          have hdistinct := henumerates.distinct
          simp at hdistinct

/-- What every step preserves holds of all maps of a run. -/
theorem RefRun.preserves {lib : Libnvram} {crc32 : Bytes → UInt32} {cfg : BuildConfig}
    {P : Maps → Prop} {maps : Maps} {invs : List Invocation} {outs : List (Observation × Maps)}
    (hrun : RefRun lib crc32 cfg maps invs outs)
    (hstep : ∀ inv ∈ invs, ∀ maps seen maps', P maps →
      RefStep lib crc32 cfg maps inv seen maps' → P maps') (hmaps : P maps) :
    ∀ out ∈ outs, P out.2 := by
  induction hrun with
  | nil maps =>
      intro out hout
      cases hout
  | @cons maps maps' inv invs seen rest hfirst _ ih =>
      have hmaps' := hstep inv List.mem_cons_self maps seen maps' hmaps hfirst
      intro out hout
      rcases List.mem_cons.mp hout with rfl | hout
      · exact hmaps'
      · exact ih (fun inv' hinv' => hstep inv' (List.mem_cons_of_mem _ hinv')) hmaps' out hout

/-- `set key value` and then `get key`. -/
def setAndGet : List Invocation :=
  [⟨fun _ => none, [lit "set", lit "key", lit "value"], by decide⟩,
    ⟨fun _ => none, [lit "get", lit "key"], by decide⟩]

theorem keepsTo_sample {inv : Invocation} (h : inv ∈ setAndGet) :
    inv.KeepsTo plainLibnvram zlibCrc32 sampleConfig .file
      (sectionsOf sampleConfig (fun _ => none) []) := by
  have hone : ∀ {inv : Invocation} (it : Operation), inv.env = (fun _ => none) →
      commandLine inv.args = some [.operation it] →
      inv.KeepsTo plainLibnvram zlibCrc32 sampleConfig .file
        (sectionsOf sampleConfig (fun _ => none) []) := by
    intro inv it henv hitems
    refine ⟨fun items j hitems' hj => ?_, fun items format hitems' _ => ?_,
      fun items system hitems' _ => ?_⟩
    · obtain rfl := Option.some.inj (hitems.symm.trans hitems')
      rw [henv] at hj
      cases hj
      rfl
    · obtain rfl := Option.some.inj (hitems.symm.trans hitems')
      rw [henv]
      rfl
    · obtain rfl := Option.some.inj (hitems.symm.trans hitems')
      rw [henv]
      rfl
  simp only [setAndGet, List.mem_cons, List.not_mem_nil, or_false] at h
  rcases h with rfl | rfl
  · exact hone (.set (lit "key") (lit "value")) rfl rfl
  · exact hone (.get (lit "key")) rfl rfl

/-- The run sets one key. -/
theorem only_key_sample {invs : List Invocation} (hinvs : invs <+: setAndGet)
    {outs : List (Observation × Maps)}
    (hrun : RefRun plainLibnvram zlibCrc32 sampleConfig (fun _ _ => none) invs outs) :
    ∀ out ∈ outs, ∀ system key value, out.2 system key = some value →
      (key, value) = (lit "key", lit "value") := by
  refine hrun.preserves (P := fun maps => ∀ system key value, maps system key = some value →
    (key, value) = (lit "key", lit "value")) ?_ (fun system key value h => by cases h)
  intro inv hinv maps seen maps' hmaps hstep
  cases hstep with
  | rejected _ => exact hmaps
  | shows _ _ _ _ => exact hmaps
  | @changes items _ hitems _ =>
      intro system key value hvalue
      refine (Maps.eq_or_mem_of_after hvalue).elim (hmaps system key value) fun hset => ?_
      have hmem := hinvs.subset hinv
      simp only [setAndGet, List.mem_cons, List.not_mem_nil, or_false] at hmem
      rcases hmem with rfl | rfl
      · obtain rfl : items = [.operation (.set (lit "key") (lit "value"))] :=
          Option.some.inj (hitems.symm.trans rfl)
        cases List.mem_singleton.mp hset
        rfl
      · obtain rfl : items = [.operation (.get (lit "key"))] :=
          Option.some.inj (hitems.symm.trans rfl)
        cases List.mem_singleton.mp hset

/-- A set and a get of its key, from no files. -/
theorem program_refines_maps_sample :
    ((fileMachine.healthy plainLibnvram none zeros).observeAll zlibCrc32 sampleConfig setAndGet
        noFiles).map Prod.fst = [⟨true, []⟩, ⟨true, (lit "value").bytes ++ [newline]⟩] ∧
      ∃ outs, RefRun plainLibnvram zlibCrc32 sampleConfig (fun _ _ => none) setAndGet outs ∧
        List.Forall₂ (fun (p : Observation × Machine FileSystem) (out : Observation × Maps) =>
          p.1 = out.1 ∧ (fileMachine.healthy plainLibnvram none zeros).Stands
            (sectionsOf sampleConfig (fun _ => none) []) out.2 p.2)
          ((fileMachine.healthy plainLibnvram none zeros).observeAll zlibCrc32 sampleConfig
            setAndGet noFiles) outs := by
  refine ⟨by decide +kernel, program_refines_maps (fileMachine.healthy plainLibnvram none zeros)
    Plain.imageLaws Plain.transactionLaws Plain.listLaws (fun _ _ _ => trivial)
    (fun system => ?_) (fun path hboth => ?_) (fun _ _ _ => ⟨[], rfl, Plain.imageLaws.empty⟩)
    (fun _ => keepsTo_sample) fun invs outs hinvs hrun out hout system list hlist => ?_⟩
  · cases system with
    | true => exact ⟨lit "sa", Or.inl rfl⟩
    | false => exact ⟨lit "ua", Or.inl rfl⟩
  · obtain ⟨hsystem, huser⟩ := hboth
    rcases hsystem with hsystem | hsystem
    · cases hsystem
      exact huser.elim (by decide) (by decide)
    · cases hsystem
      exact huser.elim (by decide) (by decide)
  · have hserial : Serialises plainLibnvram list := by
      rcases represents_single hlist (only_key_sample hinvs hrun out hout system) with rfl | rfl
      · exact Plain.image_ne_nil (by decide)
      · exact Plain.image_ne_nil (by decide)
    exact ⟨hserial, fun _ _ _ => trivial⟩

end Nvram
