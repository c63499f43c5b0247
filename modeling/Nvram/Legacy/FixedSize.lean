import Nvram.Legacy.Domain
import Nvram.Legacy.Torn
import Nvram.Interface.Block

/-!
# The legacy format on sections of a fixed size

The text in a legacy section has no end of its own: `legacy_init` reads as many bytes as the
interface reports.  On a partition the erased bytes behind the text are malformed, and on a
block device the old bytes there are read as lines of the store.
-/

namespace Nvram

open Effects

/-! ### Text in front of other bytes -/

/-- The bytes behind a text that holds `list` are well-formed lines, and setting their entries
leaves the list as it is. -/
def LeavesList (lib : Libnvram) (list : List Entry) (tail : Bytes) : Prop :=
  ∃ entries, legacyParse tail = some entries ∧ entries.foldl lib.listSet list = list

/-- Rows that can be read give their entries, and then what follows gives its own. -/
theorem legacyParse_rows_append {list : List Entry} (hw : ∀ e ∈ list, Writable e)
    (hread : ∀ e ∈ list, Rereadable e) (tail : Bytes) :
    legacyParse (list.flatMap row ++ tail) = (legacyParse tail).map (list.map reread ++ ·) := by
  induction list with
  | nil => simp
  | cons e list ih =>
      have hrest := ih (fun e' he' => hw e' (List.mem_cons_of_mem _ he'))
        fun e' he' => hread e' (List.mem_cons_of_mem _ he')
      rw [List.flatMap_cons, List.append_assoc, legacyParse_row_append (hw e List.mem_cons_self),
        if_pos (hread e List.mem_cons_self), hrest, Option.map_map]
      rfl

/-- Texts with distinct keys that the reader takes as they stand. -/
structure TextDomain (texts : List (CString × CString)) : Prop where
  distinct : (texts.map Prod.fst).Nodup
  readable : ∀ t ∈ texts, TextReadable t

theorem legacyList_rows_append_iff {lib : Libnvram} (hset : lib.SetsInPlace)
    {texts : List (CString × CString)} (hdomain : TextDomain texts)
    (hwritable : ∀ t ∈ texts, TextWritable t) (tail : Bytes) :
    legacyList lib (texts.flatMap textRow ++ tail) = some (texts.map textEntry) ↔
      LeavesList lib (texts.map textEntry) tail := by
  have hrows : ∀ e ∈ texts.map textEntry, Writable e := by
    intro e he
    obtain ⟨t, ht, rfl⟩ := List.mem_map.mp he
    exact (writable_textEntry_iff t).mpr (hwritable t ht)
  have hboth : ∀ e ∈ texts.map textEntry, Rereadable e ∧ reread e = e := by
    intro e he
    obtain ⟨t, ht, rfl⟩ := List.mem_map.mp he
    exact reread_textEntry (hwritable t ht) (hdomain.readable t ht)
  have hsame : (texts.map textEntry).map reread = texts.map textEntry := by
    rw [List.map_congr_left fun e he => (hboth e he).2]
    exact List.map_id' _
  have htexts : (texts.map textEntry).foldl lib.listSet [] = texts.map textEntry := by
    have hrow := (legacyList_rows_eq_iff hset hdomain.distinct hwritable).mpr hdomain.readable
    rw [legacyList, ← flatMap_row_textEntry, legacyParse_rows hrows,
      if_pos fun e he => (hboth e he).1, Option.map_some, hsame] at hrow
    exact Option.some.inj hrow
  rw [legacyList, ← flatMap_row_textEntry,
    legacyParse_rows_append hrows (fun e he => (hboth e he).1), hsame, LeavesList]
  cases hparse : legacyParse tail with
  | none => simp
  | some entries =>
      simp only [Option.map_some, Option.some.injEq, List.foldl_append, htexts]
      constructor
      · intro h
        exact ⟨entries, rfl, h⟩
      · intro h
        obtain ⟨_, rfl, hfold⟩ := h
        exact hfold

/-- Erased bytes are no lines. -/
theorem leavesList_erased_iff {lib : Libnvram} {list : List Entry} {n : ℕ} :
    LeavesList lib list (List.replicate n 0xFF) ↔ n = 0 := by
  constructor
  · intro h
    obtain ⟨entries, hparse, -⟩ := h
    cases n with
    | zero => rfl
    | succ n =>
        have hblank : isBlank 0xFF = false := by decide
        have hnone : findEntry (0xFF :: List.replicate n 0xFF) = none := by
          have hmem : equals ∉ (0xFF : UInt8) :: List.replicate n 0xFF := by
            rw [← List.replicate_succ]
            intro hmem
            exact absurd (List.eq_of_mem_replicate hmem) (by decide)
          unfold findEntry
          rw [find_eq_none_iff.mpr hmem]
        rw [List.replicate_succ, legacyParse_cons hblank, hnone] at hparse
        cases hparse
  · intro h
    subst h
    exact ⟨[], rfl, rfl⟩

/-! ### Sessions on one section -/

section

variable {σ : Type} (h : Handler callSig σ) (i : Interface)
  (sections : Option CString × Option CString)

/-- `legacy_init` returns 0 with the list. -/
def Reloads (s : σ) (list : List Entry) : Prop :=
  ∃ nvram, (run h (legacyInit i sections.1 sections.2) s).1 = .ok (nvram, list)

/-- A handle as `legacy_init` makes it on the sections. -/
def Opened (nvram : SingleNvram) : Prop :=
  ∃ s list, (run h (legacyInit i sections.1 sections.2) s).1 = .ok (nvram, list)

/-- A commit that returned 0. -/
structure CommitStep (σ : Type) where
  before : σ
  texts : List (CString × CString)
  after : σ

/-- Inits and successful commits in any order, with the steps the commits make. -/
inductive Commits : σ → List (CommitStep σ) → Prop where
  | done (s : σ) : Commits s []
  | init {s : σ} {steps : List (CommitStep σ)} :
      Commits (run h (legacyInit i sections.1 sections.2) s).2 steps → Commits s steps
  | commit {s t : σ} {nvram : SingleNvram} {texts : List (CString × CString)}
      {steps : List (CommitStep σ)} : Opened h i sections nvram →
      run h (legacyCommit nvram (texts.map textEntry)) s = (.ok (), t) → Commits t steps →
      Commits s (⟨s, texts, t⟩ :: steps)

end

namespace Healthy

variable {lib : Libnvram} {σ : Type} {i : Interface} {h : Handler callSig σ}
  (H : Healthy lib i h) {sections : Option CString × Option CString} {path : CString}
  (hpath : legacySection sections.1 sections.2 = some path) (hsection : H.Section path)

include hpath hsection

theorem openOn_of_opened {nvram : SingleNvram} (hopened : Opened h i sections nvram) :
    ∃ s, nvram.OpenOn (H.view s) i path := by
  obtain ⟨s, list, hinit⟩ := hopened
  have hsections : ∀ p, configured sections.1 = some p → H.Section p := fun p hp =>
    eq_of_legacySection hpath hp ▸ hsection
  obtain ⟨r, t, hrun, hresult, -⟩ := H.run_legacyInit hsections s
  rw [hrun] at hinit
  obtain rfl : r = .ok (nvram, list) := hinit
  obtain ⟨path', hpath', -, hopen⟩ := hresult.of_ok
  obtain rfl := Option.some.inj (hpath.symm.trans hpath')
  exact ⟨s, hopen⟩

/-- Every step of a run stores its text, which fits and keeps the separators out. -/
theorem commits_stored {s : σ} {steps : List (CommitStep σ)} (hrun : Commits h i sections s steps)
    {step : CommitStep σ} (hstep : step ∈ steps) :
    Storable (step.texts.map textEntry) ∧ H.Fits path (step.texts.flatMap textRow) ∧
      H.contents step.after path =
        H.store path (H.contents step.before path) (step.texts.flatMap textRow) := by
  induction hrun with
  | done s => cases hstep
  | init _ ih => exact ih hstep
  | @commit s t nvram texts steps hopened hcommit _ ih =>
      rcases List.mem_cons.mp hstep with rfl | hstep
      · obtain ⟨s₀, hopen⟩ := H.openOn_of_opened hpath hsection hopened
        obtain ⟨r, t', hrun, hok, hstored, -, -⟩ :=
          H.run_legacyCommit hopen (fun _ hp => hp) (texts.map textEntry) s
        obtain ⟨rfl, rfl⟩ := Prod.mk.inj (hcommit.symm.trans hrun)
        obtain ⟨hstorable, hfits⟩ := hok.mp rfl
        rw [flatMap_row_textEntry] at hfits hstored
        refine ⟨hstorable, hfits, ?_⟩
        show H.contents t path = _
        rw [hstored hstorable, storeAt, Function.update_self]
      · exact ih hstep

/-- After a step the list is loaded again exactly when what stands behind its text leaves it
as it is. -/
theorem reloads_iff (hset : lib.SetsInPlace) {s : σ} {steps : List (CommitStep σ)}
    (hrun : Commits h i sections s steps) {step : CommitStep σ} (hstep : step ∈ steps)
    (hdomain : TextDomain step.texts) {tail : Bytes}
    (htail : H.store path (H.contents step.before path) (step.texts.flatMap textRow) =
      step.texts.flatMap textRow ++ tail) :
    Reloads h i sections step.after (step.texts.map textEntry) ↔
      LeavesList lib (step.texts.map textEntry) tail := by
  obtain ⟨hstorable, -, hcontent⟩ := H.commits_stored hpath hsection hrun hstep
  have hwritable : ∀ t ∈ step.texts, TextWritable t := fun t ht =>
    (writable_textEntry_iff t).mp (hstorable _ (List.mem_map_of_mem ht)).1
  rw [Reloads, H.run_legacyInit_iff hpath hsection, hcontent, htail]
  exact legacyList_rows_append_iff hset hdomain hwritable tail

/-- A section that holds a list can be opened, and a list that fits committed. -/
theorem exists_commit {s : σ} {list : List Entry}
    (hlist : legacyList lib (H.contents s path) = some list) {texts : List (CString × CString)}
    (hwritable : ∀ t ∈ texts, TextWritable t) (hsize : (texts.flatMap textRow).length ≤ intMax)
    (hfits : H.Fits path (texts.flatMap textRow)) :
    ∃ t u, Commits h i sections s [⟨t, texts, u⟩] ∧ H.contents t path = H.contents s path ∧
      H.contents u path = H.store path (H.contents s path) (texts.flatMap textRow) := by
  obtain ⟨nvram, hinit⟩ := (H.run_legacyInit_iff hpath hsection s list).mpr hlist
  have hopened : Opened h i sections nvram := ⟨s, list, hinit⟩
  obtain ⟨s₀, hopen⟩ := H.openOn_of_opened hpath hsection hopened
  have hsections : ∀ p, configured sections.1 = some p → H.Section p := fun p hp =>
    eq_of_legacySection hpath hp ▸ hsection
  obtain ⟨_, t, hinit, -, hcontents, -⟩ := H.run_legacyInit hsections s
  have hnext : (run h (legacyInit i sections.1 sections.2) s).2 = t := congrArg Prod.snd hinit
  obtain ⟨r, u, hrun, hok, hstored, -, -⟩ :=
    H.run_legacyCommit hopen (fun _ hp => hp) (texts.map textEntry) t
  have hstorable := (storable_texts_iff hsize).mpr hwritable
  rw [flatMap_row_textEntry] at hok hstored
  obtain rfl := hok.mpr ⟨hstorable, hfits⟩
  have hcommits : Commits h i sections t [⟨t, texts, u⟩] := .commit hopened hrun (.done u)
  rw [← hnext] at hcommits
  refine ⟨t, u, ?_, congrFun hcontents path, ?_⟩
  · rw [← hnext]
    exact .init hcommits
  · rw [hstored hstorable, storeAt, Function.update_self, hcontents]

end Healthy

/-- After each successful commit of a run the next init gives the committed list: on a
partition exactly when the text fills it, on a block device exactly when the bytes that stood
behind the text before leave the list as it is. -/
theorem legacy_fixed_size_iff {lib : Libnvram} (hset : lib.SetsInPlace)
    (fill : (n : ℕ) → {buf : Bytes // buf.length = n}) {table : List MtdPartition}
    {sections : Option CString × Option CString} {path : CString}
    (hpath : legacySection sections.1 sections.2 = some path) {k : Fin table.length}
    (hk : labelled table path = some k) :
    (∀ (line : Option (WpLine table)) m steps,
      Commits (mtdMachine lib line fill) .mtd sections m steps →
      ∀ step ∈ steps, TextDomain step.texts →
        (Reloads (mtdMachine lib line fill) .mtd sections step.after (step.texts.map textEntry) ↔
          (step.texts.flatMap textRow).length = (table.get k).capacity)) ∧
    (∀ gpio m steps, Commits (@blockMachine table lib gpio fill) .file sections m steps →
      ∀ step ∈ steps, TextDomain step.texts →
        (Reloads (@blockMachine table lib gpio fill) .file sections step.after
            (step.texts.map textEntry) ↔
          LeavesList lib (step.texts.map textEntry)
            ((step.before.sys.content k).drop (step.texts.flatMap textRow).length))) := by
  have hsome : (labelled table path).isSome := Option.isSome_iff_exists.mpr ⟨k, hk⟩
  refine ⟨?_, ?_⟩
  · intro line m steps hrun step hstep hdomain
    have hcapacity : (table.get k).capacity = table[k].capacity := rfl
    let H := mtdMachine.healthy lib line fill
    obtain ⟨-, hfits, -⟩ := H.commits_stored hpath hsome hrun hstep
    obtain ⟨j, hj, herases, hle⟩ := hfits
    obtain rfl : k = j := Option.some.inj (hk.symm.trans hj)
    have hle : (step.texts.flatMap textRow).length ≤ table[k].capacity := hle
    have htail : H.store path (H.contents step.before path) (step.texts.flatMap textRow) =
        step.texts.flatMap textRow ++
          List.replicate (table[k].capacity - (step.texts.flatMap textRow).length) 0xFF := by
      rw [mtdMachine_store lib line fill hk, written, if_pos herases, programmed,
        List.take_of_length_le hle]
    rw [H.reloads_iff hpath hsome hset hrun hstep hdomain htail, leavesList_erased_iff,
      hcapacity]
    omega
  · intro gpio m steps hrun step hstep hdomain
    let H := @blockMachine.healthy table lib gpio fill
    obtain ⟨-, hfits, -⟩ := H.commits_stored hpath hsome hrun hstep
    obtain ⟨j, hj, hle⟩ := hfits
    obtain rfl : k = j := Option.some.inj (hk.symm.trans hj)
    have hlength : (step.before.sys.content k).length = (table.get k).capacity :=
      step.before.sys.length_content k
    have hcontent : H.contents step.before path = step.before.sys.content k :=
      step.before.sys.contents_of_labelled hk
    have htail : H.store path (H.contents step.before path) (step.texts.flatMap textRow) =
        step.texts.flatMap textRow ++
          (step.before.sys.content k).drop (step.texts.flatMap textRow).length := by
      rw [hcontent, blockMachine_store lib gpio fill hk, overwritten]
      refine List.take_of_length_le ?_
      rw [List.length_append, List.length_drop]
      omega
    exact H.reloads_iff hpath hsome hset hrun hstep hdomain htail

/-- A table with one section, named `ua`, of the length of `bytes`. -/
def oneSection (bytes : Bytes) (h : bytes.length < 2 ^ 63) : List MtdPartition :=
  [⟨lit "ua", bytes.length, h⟩]

section

variable (bytes : Bytes) (h : bytes.length < 2 ^ 63)

theorem oneSection_capacity (i : Fin (oneSection bytes h).length) :
    bytes.length = (oneSection bytes h)[i].capacity := by
  obtain ⟨n, hn⟩ := i
  obtain rfl : n = 0 := Nat.lt_one_iff.mp hn
  rfl

/-- The section holds `bytes`. -/
def holding : Machine (Flash (oneSection bytes h)) :=
  ⟨⟨fun _ => bytes, oneSection_capacity bytes h, fun _ => none, 3, 1⟩, []⟩

def ua : Option CString × Option CString := (some (lit "ua"), none)

theorem labelled_oneSection :
    labelled (oneSection bytes h) (lit "ua") = some ⟨0, Nat.one_pos⟩ := rfl

end

theorem legacySection_ua : legacySection ua.1 ua.2 = some (lit "ua") := by decide

/-- A text of two entries that fills its partition is read again. -/
theorem legacy_fixed_size_iff_sample :
    ∃ t u, Commits (mtdMachine plainLibnvram none zeros) .mtd ua
        (holding (lit "k=v\na=1\n").bytes (by decide))
        [⟨t, [(lit "b", lit "2"), (lit "k", lit "w")], u⟩] ∧
      Reloads (mtdMachine plainLibnvram none zeros) .mtd ua u
        [textEntry (lit "b", lit "2"), textEntry (lit "k", lit "w")] := by
  have hset : plainLibnvram.SetsInPlace := fun _ _ => rfl
  have hk := labelled_oneSection (lit "k=v\na=1\n").bytes (by decide)
  have hlist : legacyList plainLibnvram (lit "k=v\na=1\n").bytes =
      some [textEntry (lit "k", lit "v"), textEntry (lit "a", lit "1")] := by
    decide
  obtain ⟨t, u, hrun, -, -⟩ := (mtdMachine.healthy plainLibnvram none zeros).exists_commit
    legacySection_ua (Option.isSome_iff_exists.mpr ⟨_, hk⟩)
    (s := holding (lit "k=v\na=1\n").bytes (by decide)) hlist
    (show ∀ t ∈ [(lit "b", lit "2"), (lit "k", lit "w")], TextWritable t by decide) (by decide)
    ⟨_, hk, by decide, by decide⟩
  have hdomain : TextDomain [(lit "b", lit "2"), (lit "k", lit "w")] := ⟨by decide, by decide⟩
  have hlength : ([(lit "b", lit "2"), (lit "k", lit "w")].flatMap textRow).length = 8 := by
    decide
  exact ⟨t, u, hrun, ((legacy_fixed_size_iff hset zeros legacySection_ua hk).1 none _ _ hrun _
    List.mem_cons_self hdomain).mpr hlength⟩

/-- A text of four bytes on a partition of eight bytes cannot be read again, and on a block
device the end of a longer text comes back. -/
theorem legacy_tail_is_parsed :
    (∃ t u, Commits (mtdMachine plainLibnvram none zeros) .mtd ua
        (holding (lit "a=1\nb=2\n").bytes (by decide)) [⟨t, [(lit "a", lit "1")], u⟩] ∧
      ∀ list, ¬ Reloads (mtdMachine plainLibnvram none zeros) .mtd ua u list) ∧
    ∃ t u, Commits (blockMachine plainLibnvram none zeros) .file ua
        (holding (lit "a=1\nb=2\n").bytes (by decide)) [⟨t, [(lit "a", lit "1")], u⟩] ∧
      Reloads (blockMachine plainLibnvram none zeros) .file ua u
        [textEntry (lit "a", lit "1"), textEntry (lit "b", lit "2")] := by
  have hk := labelled_oneSection (lit "a=1\nb=2\n").bytes (by decide)
  have hsection : (labelled (oneSection (lit "a=1\nb=2\n").bytes (by decide))
      (lit "ua")).isSome := Option.isSome_iff_exists.mpr ⟨_, hk⟩
  have hlist : legacyList plainLibnvram (lit "a=1\nb=2\n").bytes =
      some [textEntry (lit "a", lit "1"), textEntry (lit "b", lit "2")] := by
    decide
  have hwritable : ∀ t ∈ [(lit "a", lit "1")], TextWritable t := by decide
  constructor
  · obtain ⟨t, u, hrun, -, hu⟩ := (mtdMachine.healthy plainLibnvram none zeros).exists_commit
      legacySection_ua hsection (s := holding (lit "a=1\nb=2\n").bytes (by decide)) hlist
      hwritable (by decide) ⟨_, hk, by decide, by decide⟩
    refine ⟨t, u, hrun, ?_⟩
    intro list
    rw [Reloads, (mtdMachine.healthy plainLibnvram none zeros).run_legacyInit_iff
      legacySection_ua hsection, hu]
    have hnone : legacyList plainLibnvram (programmed 8 (lit "a=1\n").bytes) = none := by decide
    intro h
    cases hnone.symm.trans h
  · obtain ⟨t, u, hrun, -, hu⟩ := (blockMachine.healthy plainLibnvram none zeros).exists_commit
      legacySection_ua hsection (s := holding (lit "a=1\nb=2\n").bytes (by decide)) hlist
      hwritable (by decide) ⟨_, hk, by decide⟩
    refine ⟨t, u, hrun, ?_⟩
    rw [Reloads, (blockMachine.healthy plainLibnvram none zeros).run_legacyInit_iff
      legacySection_ua hsection, hu]
    exact hlist

end Nvram
