import Nvram.Legacy.Domain
import Nvram.Legacy.Reread
import Nvram.Program.Keeper

/-!
# The legacy format as a keeper of settings

A commit of settings is refused for a separator or for a row that no `int` can say the length of.
What is written is read back without the blanks in front of a key, and a row without a key or
without a value makes the section unreadable.
-/

namespace Nvram

open Effects Errno

/-! ### Texts that are written and read -/

/-- A text that `legacy_commit` writes. -/
def TextStorable (t : CString × CString) : Prop := TextWritable t ∧ (textRow t).length ≤ intMax

/-- A text whose row can be read. -/
def TextRereadable (t : CString × CString) : Prop :=
  t.1.bytes.dropWhile isBlank ≠ [] ∧ t.2.bytes ≠ []

instance (t : CString × CString) : Decidable (TextStorable t) :=
  inferInstanceAs (Decidable (_ ∧ _))

instance (t : CString × CString) : Decidable (TextRereadable t) :=
  inferInstanceAs (Decidable (_ ∧ _))

/-- The text that is read from the row of a text. -/
def rereadText (t : CString × CString) : CString × CString :=
  (⟨t.1.bytes.dropWhile isBlank, fun h => t.1.noNul ((List.dropWhile_sublist _).subset h)⟩, t.2)

theorem reread_textEntry_eq (t : CString × CString) :
    reread (textEntry t) = textEntry (rereadText t) := by
  rw [reread, rereadKey_textEntry]
  simp only [textEntry, textOf_bytesZ]
  rfl

theorem rereadable_textEntry_iff (t : CString × CString) :
    Rereadable (textEntry t) ↔ TextRereadable t := by
  rw [Rereadable, rereadKey_textEntry]
  simp only [textEntry, textOf_bytesZ]
  exact Iff.rfl

theorem strlen_rereadText_le (t : CString × CString) : (rereadText t).1.strlen ≤ t.1.strlen :=
  (List.dropWhile_sublist _).length_le

/-- A text that can be read as it stands is read as it stands. -/
theorem TextReadable.rereadText_eq {t : CString × CString} (hr : TextReadable t)
    (hw : TextWritable t) : TextRereadable t ∧ rereadText t = t := by
  obtain ⟨hrereadable, hreread⟩ := reread_textEntry hw hr
  rw [reread_textEntry_eq] at hreread
  exact ⟨(rereadable_textEntry_iff t).mp hrereadable, textEntry_injective hreread⟩

theorem storable_texts {texts : List (CString × CString)} :
    Storable (texts.map textEntry) ↔ ∀ t ∈ texts, TextStorable t := by
  unfold Storable
  rw [List.forall_mem_map]
  refine forall₂_congr fun t _ => ?_
  rw [writable_textEntry_iff, row_textEntry]
  exact Iff.rfl

/-! ### What becomes of settings -/

/-- What is read from the rows of texts, one after the other. -/
def rereadSettings (texts : List (CString × CString)) : Option Settings :=
  if ∀ t ∈ texts, TextRereadable t then some (settingsOf (texts.map rereadText)) else none

/-- What becomes of settings that the legacy format commits.  The rows stand in the order of the
list of libnvram, which the settings do not say. -/
def LegacyKeeps : Keeps := fun m o =>
  (∀ key value, m key = some value → TextStorable (key, value)) ∧
    ∃ texts, Enumerates texts m ∧ o = rereadSettings texts

/-- Settings of readable texts are kept as they are, or refused. -/
theorem legacyKeeps_iff_of_readable {m : Settings}
    (hm : ∀ key value, m key = some value → TextReadable (key, value))
    {texts : List (CString × CString)} (htexts : Enumerates texts m) (o : Option Settings) :
    LegacyKeeps m o ↔
      (∀ key value, m key = some value → TextStorable (key, value)) ∧ o = some m := by
  refine and_congr_right fun hstorable => ?_
  have hkept : ∀ {texts}, Enumerates texts m → rereadSettings texts = some m := by
    intro texts htexts
    have hreread : ∀ t ∈ texts, TextRereadable t ∧ rereadText t = t := by
      refine htexts.forall_iff.mpr fun key value hvalue => ?_
      exact (hm key value hvalue).rereadText_eq (hstorable key value hvalue).1
    rw [rereadSettings, if_pos fun t ht => (hreread t ht).1,
      List.map_congr_left fun t ht => (hreread t ht).2, List.map_id', htexts.settingsOf_eq]
  constructor
  · intro h
    obtain ⟨texts', htexts', rfl⟩ := h
    exact hkept htexts'
  · intro h
    exact ⟨texts, htexts, h.trans (hkept htexts).symm⟩

theorem LegacyKeeps.short {m m' : Settings} (h : LegacyKeeps m (some m')) (hm : m.Short) :
    m'.Short := by
  obtain ⟨-, texts, htexts, hkept⟩ := h
  unfold rereadSettings at hkept
  split_ifs at hkept
  obtain rfl := Option.some.inj hkept
  intro key value hvalue
  obtain ⟨t, ht, heq⟩ := List.mem_map.mp (mem_of_settingsOf hvalue)
  obtain ⟨hshort, hshort'⟩ := hm t.1 t.2 ((htexts.mem_iff t.1 t.2).mp ht)
  obtain ⟨rfl, rfl⟩ := Prod.mk.inj heq
  exact ⟨(strlen_rereadText_le t).trans_lt hshort, hshort'⟩

/-! ### The keeper -/

section

variable {lib : Libnvram} {σ : Type} {i : Interface} {h : Handler callSig σ}

/-- The rows of texts are read back as `rereadSettings` says. -/
theorem holds_rows (hl : lib.ListLaws) {texts : List (CString × CString)}
    (hstorable : ∀ t ∈ texts, TextStorable t) :
    Holds (fun list => legacyList lib (texts.flatMap textRow) = some list)
      (rereadSettings texts) := by
  have hwritable : ∀ e ∈ texts.map textEntry, Writable e := by
    intro e he
    exact (storable_texts.mpr hstorable e he).1
  have hall : (∀ e ∈ texts.map textEntry, Rereadable e) ↔ ∀ t ∈ texts, TextRereadable t := by
    rw [List.forall_mem_map]
    exact forall₂_congr fun t _ => rereadable_textEntry_iff t
  rw [← flatMap_row_textEntry]
  unfold legacyList rereadSettings
  rw [legacyParse_rows hwritable]
  by_cases hread : ∀ t ∈ texts, TextRereadable t
  · rw [if_pos hread, if_pos (hall.mpr hread)]
    have hmap : (texts.map textEntry).map reread = (texts.map rereadText).map textEntry := by
      rw [List.map_map, List.map_map]
      exact List.map_congr_left fun t _ => reread_textEntry_eq t
    rw [hmap]
    exact ⟨_, rfl, represents_settingsOf hl _⟩
  · rw [if_neg hread, if_neg fun hrows => hread (hall.mp hrows)]
    intro list hlist
    cases hlist

/-- What a side with one section loads, `held` being what a content holds. -/
def SingleLoads (held : Bytes → Option (List Entry)) (c : Contents)
    (sections : Option CString × Option CString) (list : List Entry) : Prop :=
  ∃ path, legacySection sections.1 sections.2 = some path ∧ held (c path) = some list

theorem configured_of_section {sections : Option CString × Option CString} {path : CString}
    (h : legacySection sections.1 sections.2 = some path) : Configured sections path :=
  Or.inl (configured_of_legacySection h)

section

variable {held : Bytes → Option (List Entry)} {c c' : Contents}
  {sections : Option CString × Option CString} {list list' : List Entry}

theorem SingleLoads.congr (hsame : ∀ path, Configured sections path → c' path = c path)
    (h : SingleLoads held c sections list) : SingleLoads held c' sections list := by
  obtain ⟨path, hpath, hlist⟩ := h
  refine ⟨path, hpath, ?_⟩
  rw [hsame path (configured_of_section hpath)]
  exact hlist

theorem SingleLoads.unique (h : SingleLoads held c sections list)
    (h' : SingleLoads held c sections list') : list' = list := by
  obtain ⟨path, hpath, hlist⟩ := h
  obtain ⟨path', hpath', hlist'⟩ := h'
  obtain rfl := Option.some.inj (hpath.symm.trans hpath')
  exact Option.some.inj (hlist'.symm.trans hlist)

theorem singleLoads_iff {path : CString} (hpath : legacySection sections.1 sections.2 = some path) :
    SingleLoads held c sections list ↔ held (c path) = some list := by
  constructor
  · intro h
    obtain ⟨path', hpath', hlist⟩ := h
    obtain rfl := Option.some.inj (hpath.symm.trans hpath')
    exact hlist
  · intro hlist
    exact ⟨path, hpath, hlist⟩

theorem SingleResult.loads {v : View} {nvram : SingleNvram}
    (h : SingleResult held v i sections.1 sections.2 (.ok (nvram, list))) :
    SingleLoads held v.contents sections list := by
  obtain ⟨path, hpath, hlist, -⟩ := h.of_ok
  exact ⟨path, hpath, hlist⟩

theorem SingleResult.not_loads {v : View} {e : Errno}
    (h : SingleResult held v i sections.1 sections.2 (.error e)) (list : List Entry) :
    ¬ SingleLoads held v.contents sections list := by
  intro hloads
  obtain ⟨path, hpath, hlist⟩ := hloads
  simp only [SingleResult, hpath, hlist] at h
  obtain ⟨nvram, hok, -⟩ := h
  cases hok

end

/-- Writes replace the whole section, and nothing is too long for it. -/
def Healthy.Replaces (H : Healthy lib i h) : Prop :=
  ∀ path old buf, H.Fits path buf ∧ H.store path old buf = buf

theorem commitEnds_legacy {H : Healthy lib i h} (hl : lib.ListLaws) (hreplaces : H.Replaces)
    {sections : Option CString × Option CString} {nvram : SingleNvram} {loaded list : List Entry}
    {m : Settings} {s t : σ}
    (hopens : (nvramLegacyFormat.initSpec lib).Opens (H.view s) i sections (.ok (nvram, loaded)))
    (hlist : Represents list m) :
    CommitEnds H (SingleLoads (legacyList lib)) LegacyKeeps sections m t
      (run h (nvramLegacyFormat.commit nvram list) t).1.1
      (run h (nvramLegacyFormat.commit nvram list) t).2 := by
  have hresult : LegacyResult lib (H.view s) i sections.1 sections.2 (.ok (nvram, loaded)) := hopens
  obtain ⟨path, hpath, -, hopen⟩ := hresult.of_ok
  obtain ⟨r, u, hrun, hok, hstored, hkept, hstdout⟩ :=
    H.run_legacyCommit hopen (fun _ hpriv => hpriv) list t
  have hcommit : run h (nvramLegacyFormat.commit nvram list) t = ((r, nvram), u) := by
    show run h (legacyCommit nvram list >>= fun r => pure (r, nvram)) t = _
    rw [run_bind, hrun]
    rfl
  rw [hcommit]
  obtain ⟨texts, rfl, htexts⟩ := hlist.exists_texts
  have hstorable : Storable (texts.map textEntry) ↔
      ∀ key value, m key = some value → TextStorable (key, value) :=
    storable_texts.trans htexts.forall_iff
  by_cases hm : Storable (texts.map textEntry)
  · have hcontents := hstored hm
    refine .kept (rereadSettings texts) ⟨hstorable.mp hm, texts, htexts, rfl⟩
      (hok.mpr ⟨hm, (hreplaces path [] _).1⟩) ?_ (fun p hp => ?_) hstdout
    · have hnow : H.contents u path = texts.flatMap textRow := by
        rw [hcontents, Healthy.storeAt, Function.update_self, (hreplaces _ _ _).2,
          flatMap_row_textEntry]
      refine (holds_rows hl (storable_texts.mp hm)).congr fun list => ?_
      rw [singleLoads_iff hpath, hnow]
    · have hne : p ≠ path := by
        intro heq
        subst heq
        exact hp (configured_of_section hpath)
      rw [hcontents, Healthy.storeAt, Function.update_of_ne hne]
  · refine .refused (fun o hkeeps => hm (hstorable.mpr hkeeps.1)) ?_ ⟨hkept hm, hstdout⟩
    cases r with
    | error e => exact ⟨e, rfl⟩
    | ok _ => exact absurd (hok.mp rfl).1 hm

/-- The legacy format on sections that a write replaces. -/
def legacyKeeper (H : Healthy lib i h) (hl : lib.ListLaws) (hreplaces : H.Replaces) :
    Keeper H nvramLegacyFormat where
  frame := nvramLegacyFormat.frame
  spec := nvramLegacyFormat.initSpec lib
  loads := SingleLoads (legacyList lib)
  keeps := LegacyKeeps
  loads_congr := SingleLoads.congr
  loads_unique := SingleLoads.unique
  loads_of_opens hopens := SingleResult.loads hopens
  not_loads_of_fails hopens := SingleResult.not_loads hopens
  short := LegacyKeeps.short
  commit hopens _ hlist := commitEnds_legacy hl hreplaces hopens hlist

/-! ### Runs of the program -/

variable {crc32 : Bytes → UInt32} {cfg : BuildConfig}
  {sections : Bool → Option CString × Option CString} {s : σ} {invs : List Invocation}

/-- With the legacy format every run of invocations is one of the machine whose commits are
`LegacyKeeps`, from any stores that stand for what its sides hold. -/
theorem legacy_program_refines (H : Healthy lib i h) (hl : lib.ListLaws) (hreplaces : H.Replaces)
    (hhealthy : ∀ system path, Configured (sections system) path → H.Section path)
    (hdisjoint : ∀ path, ¬ (Configured (sections true) path ∧ Configured (sections false) path))
    (huses : ∀ inv ∈ invs, inv.UsesFormat lib crc32 cfg i nvramLegacyFormat sections) {kept : Kept}
    (hrelated : (legacyKeeper H hl hreplaces).Related sections kept s) :
    ∃ outs, SpecRun (KeepStep lib crc32 cfg LegacyKeeps) kept invs outs ∧
      List.Forall₂ (fun (p : Observation × σ) (out : Observation × Kept) =>
        p.1 = out.1 ∧ (legacyKeeper H hl hreplaces).Related sections out.2 p.2)
        (observations (H.observe crc32 cfg) invs s) outs :=
  (legacyKeeper H hl hreplaces).exists_keepRun huses hl hhealthy hdisjoint hrelated

/-- Texts that are written, and read as they stand. -/
def Settings.Plain (m : Settings) : Prop :=
  ∀ key value, m key = some value → TextReadable (key, value) ∧ TextStorable (key, value)

/-- What the invocation sets is written, and read as it stands. -/
def Invocation.SetsPlain (inv : Invocation) : Prop :=
  ∀ items key value, commandLine inv.args = some items → .set key value ∈ requested items →
    TextReadable (key, value) ∧ TextStorable (key, value)

/-- On invocations that set plain texts the program with the legacy format refines the machine
that the v2 format refines: two maps that never refuse. -/
theorem legacy_refines_maps (H : Healthy lib i h) (hl : lib.ListLaws) (hreplaces : H.Replaces)
    (hhealthy : ∀ system path, Configured (sections system) path → H.Section path)
    (hdisjoint : ∀ path, ¬ (Configured (sections true) path ∧ Configured (sections false) path))
    (huses : ∀ inv ∈ invs, inv.UsesFormat lib crc32 cfg i nvramLegacyFormat sections)
    (hplain : ∀ inv ∈ invs, inv.SetsPlain) {maps : Maps}
    (hrelated : (legacyKeeper H hl hreplaces).RelatedMaps sections Settings.Plain maps s) :
    ∃ outs, RefRun lib crc32 cfg maps invs outs ∧
      List.Forall₂ (fun (p : Observation × σ) (out : Observation × Maps) =>
        p.1 = out.1 ∧ (legacyKeeper H hl hreplaces).RelatedMaps sections Settings.Plain out.2 p.2)
        (observations (H.observe crc32 cfg) invs s) outs := by
  have hkept : ∀ m texts, m.Plain → Enumerates texts m → ∀ o,
      (legacyKeeper H hl hreplaces).keeps m o ↔ o = some m := by
    intro m texts hm htexts o
    refine (legacyKeeps_iff_of_readable (fun key value hvalue => (hm key value hvalue).1) htexts
      o).trans (and_iff_right fun key value hvalue => (hm key value hvalue).2)
  have hclosed : ∀ inv ∈ invs, ∀ items, commandLine inv.args = some items → ∀ m : Settings,
      m.Plain → (m.after (requested items)).Plain := by
    intro inv hinv items hitems m hm key value hvalue
    rcases Settings.eq_or_mem_of_after hvalue with hold | hset
    · exact hm key value hold
    · exact hplain inv hinv items key value hitems hset
  obtain ⟨outs, hrun, hall⟩ := Matches.exists_run
    (fun inv hinv => Keeper.matches_refStep (huses inv hinv) hl hhealthy hdisjoint hkept
      (hclosed inv hinv)) hrelated
  exact ⟨outs, Keeper.refRun_of_specRun hrun, hall⟩

end

/-! ### Evaluated -/

/-- The files of the two sides. -/
def legacySections : Bool → Option CString × Option CString :=
  sectionsOf legacyConfig (fun _ => none) []

theorem usesLegacy_sample {inv : Invocation} (it : Operation) (henv : inv.env = fun _ => none)
    (hitems : commandLine inv.args = some [.operation it]) :
    inv.UsesFormat plainLibnvram zlibCrc32 legacyConfig .file nvramLegacyFormat
      legacySections :=
  inv.usesFormat_of_defaults rfl rfl it henv hitems

theorem replaces_files : (fileMachine.healthy plainLibnvram none zeros).Replaces :=
  fun _ _ _ => ⟨trivial, rfl⟩

theorem legacySections_disjoint (path : CString) :
    ¬ (Configured (legacySections true) path ∧ Configured (legacySections false) path) := by
  intro hboth
  obtain ⟨hsystem, huser⟩ := hboth
  rcases hsystem with hsystem | hsystem
  · cases hsystem
    exact huser.elim (by decide) (by decide)
  · cases hsystem

/-- No files stand for no settings. -/
theorem related_noFiles :
    (legacyKeeper (fileMachine.healthy plainLibnvram none zeros) Plain.listLaws
      replaces_files).Related legacySections (fun _ => some fun _ => none) noFiles := by
  refine ⟨fun system => ⟨[], ?_, represents_nil⟩, fun system key value hvalue => by cases hvalue⟩
  cases system with
  | true => exact ⟨lit "sa", rfl, rfl⟩
  | false => exact ⟨lit "ua", rfl, rfl⟩

/-- A key with a blank in front, a key with a separator, a query, and an empty value after which
the section cannot be read. -/
def legacyRun : List Invocation :=
  [⟨fun _ => none, [lit "set", lit " a", lit "v"], by decide⟩,
    ⟨fun _ => none, [lit "set", lit "b=", lit "v"], by decide⟩,
    ⟨fun _ => none, [lit "get", lit "a"], by decide⟩,
    ⟨fun _ => none, [lit "set", lit "c", lit ""], by decide⟩,
    ⟨fun _ => none, [lit "get", lit "a"], by decide⟩]

theorem legacy_program_refines_sample :
    (observations ((fileMachine.healthy plainLibnvram none zeros).observe zlibCrc32 legacyConfig)
        legacyRun noFiles).map Prod.fst =
      [⟨true, []⟩, ⟨false, []⟩, ⟨true, (lit "v").bytes ++ [newline]⟩, ⟨true, []⟩, ⟨false, []⟩] ∧
      ∃ outs, SpecRun (KeepStep plainLibnvram zlibCrc32 legacyConfig LegacyKeeps)
          (fun _ => some fun _ => none) legacyRun outs ∧
        List.Forall₂ (fun (p : Observation × Machine FileSystem) (out : Observation × Kept) =>
          p.1 = out.1 ∧ (legacyKeeper (fileMachine.healthy plainLibnvram none zeros)
            Plain.listLaws replaces_files).Related legacySections out.2 p.2)
          (observations ((fileMachine.healthy plainLibnvram none zeros).observe zlibCrc32
            legacyConfig) legacyRun noFiles) outs := by
  refine ⟨by decide +kernel, legacy_program_refines _ Plain.listLaws replaces_files
    (fun _ _ _ => trivial) legacySections_disjoint (fun inv hinv => ?_) related_noFiles⟩
  simp only [legacyRun, List.mem_cons, List.not_mem_nil, or_false] at hinv
  rcases hinv with rfl | rfl | rfl | rfl | rfl
  · exact usesLegacy_sample (.set (lit " a") (lit "v")) rfl rfl
  · exact usesLegacy_sample (.set (lit "b=") (lit "v")) rfl rfl
  · exact usesLegacy_sample (.get (lit "a")) rfl rfl
  · exact usesLegacy_sample (.set (lit "c") (lit "")) rfl rfl
  · exact usesLegacy_sample (.get (lit "a")) rfl rfl

theorem legacy_refines_maps_sample :
    ∃ outs, RefRun plainLibnvram zlibCrc32 legacyConfig (fun _ _ => none) setAndGet outs ∧
      List.Forall₂ (fun (p : Observation × Machine FileSystem) (out : Observation × Maps) =>
        p.1 = out.1 ∧ (legacyKeeper (fileMachine.healthy plainLibnvram none zeros)
          Plain.listLaws replaces_files).RelatedMaps legacySections Settings.Plain out.2 p.2)
        (observations ((fileMachine.healthy plainLibnvram none zeros).observe zlibCrc32
          legacyConfig) setAndGet noFiles) outs := by
  have hset : ∀ {inv : Invocation}, inv ∈ setAndGet → inv.UsesFormat plainLibnvram zlibCrc32
      legacyConfig .file nvramLegacyFormat legacySections ∧ inv.SetsPlain := by
    intro inv hinv
    simp only [setAndGet, List.mem_cons, List.not_mem_nil, or_false] at hinv
    rcases hinv with rfl | rfl
    · refine ⟨usesLegacy_sample (.set (lit "key") (lit "value")) rfl rfl, ?_⟩
      intro items key value hitems hmem
      obtain rfl : items = [.operation (.set (lit "key") (lit "value"))] :=
        Option.some.inj (hitems.symm.trans rfl)
      cases List.mem_singleton.mp hmem
      decide
    · refine ⟨usesLegacy_sample (.get (lit "key")) rfl rfl, ?_⟩
      intro items key value hitems hmem
      obtain rfl : items = [.operation (.get (lit "key"))] :=
        Option.some.inj (hitems.symm.trans rfl)
      cases List.mem_singleton.mp hmem
  exact legacy_refines_maps _ Plain.listLaws replaces_files (fun _ _ _ => trivial)
    legacySections_disjoint (fun inv hinv => (hset hinv).1) (fun inv hinv => (hset hinv).2)
    ⟨related_noFiles, fun system key value hvalue => by cases hvalue⟩

end Nvram
