import Nvram.Platform.RoundTrip

/-!
# What stands behind the platform header

`platform_commit` writes the header alone.  What a section holds behind it is left to the
write of the interface: a regular file is cut to the header, and a partition is erased first.
-/

namespace Nvram

open Effects

/-- The length, and every byte behind the header, are as they were. -/
def KeepsBehindHeader (old new : Bytes) : Prop :=
  new.length = old.length ∧ ∀ i, PLATFORM_HEADER_SIZE ≤ i → new[i]? = old[i]?

theorem keepsBehindHeader_iff {old new : Bytes} : KeepsBehindHeader old new ↔
    new.length = old.length ∧ new.drop PLATFORM_HEADER_SIZE = old.drop PLATFORM_HEADER_SIZE := by
  refine and_congr_right fun _ => ?_
  constructor
  · intro h
    refine List.ext_getElem? fun i => ?_
    rw [List.getElem?_drop, List.getElem?_drop]
    exact h _ (Nat.le_add_right _ _)
  · intro h i hi
    have hdrop := congrArg (fun l => l[i - PLATFORM_HEADER_SIZE]?) h
    simpa only [List.getElem?_drop, Nat.add_sub_cancel' hi] using hdrop

/-- A header alone keeps what is behind it when nothing is. -/
theorem keepsBehindHeader_header_iff {old header : Bytes}
    (hheader : header.length = PLATFORM_HEADER_SIZE) :
    KeepsBehindHeader old header ↔ old.length = PLATFORM_HEADER_SIZE := by
  rw [keepsBehindHeader_iff, List.drop_of_length_le hheader.le, hheader]
  constructor
  · intro h
    exact h.1.symm
  · intro h
    exact ⟨h.symm, (List.drop_of_length_le h.le).symm⟩

/-- A header on an erased partition keeps what is behind it when that is erased. -/
theorem keepsBehindHeader_programmed_iff {old header : Bytes}
    (hheader : header.length = PLATFORM_HEADER_SIZE) (hfits : header.length ≤ old.length) :
    KeepsBehindHeader old (programmed old.length header) ↔
      ∀ b ∈ old.drop PLATFORM_HEADER_SIZE, b = 0xFF := by
  have hnew : programmed old.length header =
      header ++ List.replicate (old.length - PLATFORM_HEADER_SIZE) 0xFF := by
    rw [programmed, List.take_of_length_le hfits, hheader]
  have hbehind : (old.drop PLATFORM_HEADER_SIZE).length = old.length - PLATFORM_HEADER_SIZE :=
    List.length_drop
  have hlength : (programmed old.length header).length = old.length := by
    rw [hnew, List.length_append, List.length_replicate, hheader]
    omega
  rw [keepsBehindHeader_iff, and_iff_right hlength, hnew, List.drop_left' hheader, eq_comm,
    List.eq_replicate_iff, and_iff_right hbehind]

/-! ### After an update -/

namespace Healthy

variable {lib : Libnvram} {σ : Type} {i : Interface} {h : Handler callSig σ}

/-- A commit after an init stores a header over what the section held. -/
theorem contents_platform_update (H : Healthy lib i h) (crc32 : Bytes → UInt32)
    {build : PlatformBuild} {erange : Bool} (herrno : ∀ s, (h .errnoIsErange s).1 = erange)
    {path : CString} (hsection : H.Section path) {sectionB : Option CString} {s t u : σ}
    {nvram : SingleNvram} {list list' : List Entry}
    (hinit : run h (platformInit crc32 build i (some path) sectionB) s = (.ok (nvram, list), t))
    (hcommit : run h (platformCommit crc32 build nvram list') t = (.ok (), u)) :
    ∃ header, H.Fits path (serializeHeader crc32 header) ∧
      H.contents u = H.storeAt (H.contents s) path (serializeHeader crc32 header) := by
  have hpaths : ∀ p, configured (some path) = some p → H.Section p := fun p hp =>
    Option.some.inj (eq_some_of_configured hp) ▸ hsection
  obtain ⟨r, t', hrun, hresult, hsame⟩ := H.run_platformInit crc32 build (some path) sectionB
    hpaths s
  obtain ⟨hr, ht⟩ := Prod.mk.inj (hrun.symm.trans hinit)
  subst hr ht
  have hopen : nvram.OpenOn (H.view s) i path := by
    obtain ⟨p, hone, -, hopen⟩ := hresult.of_ok
    obtain rfl : path = p :=
      Option.some.inj (eq_some_of_configured (configured_of_legacySection hone))
    exact hopen
  have hallow : build.allowWrite = true := by
    by_contra hno
    rw [platformCommit, if_pos hno] at hcommit
    cases hcommit
  obtain ⟨r, u', hrun', hresult'⟩ := H.run_platformCommit crc32 hallow herrno hopen
    (fun _ hp => hp) list' t'
  obtain ⟨hr, hu⟩ := Prod.mk.inj (hrun'.symm.trans hcommit)
  subst hr hu
  cases hheader : headerOfList erange (startHeader build) list' with
  | error e =>
      rw [hheader] at hresult'
      obtain ⟨⟨e, he⟩, -⟩ := hresult'
      cases he
  | ok header =>
      rw [hheader] at hresult'
      obtain ⟨hok, hstored⟩ := hresult'
      rw [hsame.1] at hstored
      exact ⟨header, hok.mp rfl, hstored⟩

end Healthy

/-- A successful update keeps what is behind the header of a regular file exactly when there
is nothing, and of a partition exactly when it is all erased. -/
theorem platform_update_keeps_blobs_iff (crc32 : Bytes → UInt32) (lib : Libnvram)
    (fill : (n : ℕ) → {buf : Bytes // buf.length = n}) (build : PlatformBuild)
    (sectionB : Option CString) :
    (∀ gpio path m nvram list m₁ list' m₂,
      run (fileMachine lib gpio fill) (platformInit crc32 build .file (some path) sectionB) m =
        (.ok (nvram, list), m₁) →
      run (fileMachine lib gpio fill) (platformCommit crc32 build nvram list') m₁ = (.ok (), m₂) →
      (KeepsBehindHeader (m.sys.content path) (m₂.sys.content path) ↔
        (m.sys.content path).length = PLATFORM_HEADER_SIZE)) ∧
    (∀ (table : List MtdPartition) (line : Option (WpLine table)) (label : CString)
        (k : Fin table.length), labelled table label = some k →
      ∀ m nvram list m₁ list' m₂,
      run (mtdMachine lib line fill) (platformInit crc32 build .mtd (some label) sectionB) m =
        (.ok (nvram, list), m₁) →
      run (mtdMachine lib line fill) (platformCommit crc32 build nvram list') m₁ = (.ok (), m₂) →
      (KeepsBehindHeader (m.sys.content k) (m₂.sys.content k) ↔
        ∀ b ∈ (m.sys.content k).drop PLATFORM_HEADER_SIZE, b = 0xFF)) := by
  refine ⟨?_, ?_⟩
  · intro gpio path m nvram list m₁ list' m₂ hinit hcommit
    have herrno : ∀ s, (fileMachine lib gpio fill .errnoIsErange s).1 = false := fun _ => rfl
    obtain ⟨header, -, hcontents⟩ := (fileMachine.healthy lib gpio fill).contents_platform_update
      crc32 herrno trivial hinit hcommit
    have hcontent : m₂.sys.content path = serializeHeader crc32 header := by
      have hpath := congrFun hcontents path
      rw [Healthy.storeAt, Function.update_self] at hpath
      exact hpath
    rw [hcontent]
    exact keepsBehindHeader_header_iff (serializeHeader_length crc32 header)
  · intro table line label k hk m nvram list m₁ list' m₂ hinit hcommit
    have herrno : ∀ s, (mtdMachine lib line fill .errnoIsErange s).1 = false := fun _ => rfl
    have hsection : (mtdMachine.healthy lib line fill).Section label :=
      Option.isSome_iff_exists.mpr ⟨k, hk⟩
    obtain ⟨header, hfits, hcontents⟩ := (mtdMachine.healthy lib line fill).contents_platform_update
      crc32 herrno hsection hinit hcommit
    obtain ⟨j, hj, herases, hle⟩ := hfits
    obtain rfl : k = j := Option.some.inj (hk.symm.trans hj)
    have hcapacity := m.sys.length_content k
    have hcontent : m₂.sys.content k =
        programmed (m.sys.content k).length (serializeHeader crc32 header) := by
      have hlabel := congrFun hcontents label
      rw [Healthy.storeAt, Function.update_self] at hlabel
      rw [← m₂.sys.contents_of_labelled hk, hcapacity]
      refine hlabel.trans ?_
      rw [mtdMachine_store lib line fill hk, written, if_pos herases]
    rw [hcontent]
    exact keepsBehindHeader_programmed_iff (serializeHeader_length crc32 header)
      (hle.trans_eq hcapacity.symm)

/-! ### Evaluated -/

/-- The block of a header without values. -/
def emptyBlock : Bytes := serializeHeader zlibCrc32 (headerOf fun _ => none)

theorem parse_emptyBlock (blob : Bytes) :
    parseHeader zlibCrc32 ((emptyBlock ++ blob).take PLATFORM_HEADER_SIZE) =
      some ((headerOf fun _ => none).stored zlibCrc32) := by
  rw [emptyBlock, List.take_left' (serializeHeader_length _ _)]
  exact parseHeader_serializeHeader _ ⟨rfl, by decide⟩

/-- Setting a field of that block returns 0 where a block fits. -/
theorem Healthy.sets_config1 {σ : Type} {i : Interface} {h : Handler callSig σ}
    (H : Healthy plainLibnvram i h) (herrno : ∀ s, (h .errnoIsErange s).1 = false)
    (hsection : H.Section (lit "p"))
    (hfits : ∀ header, H.Fits (lit "p") (serializeHeader zlibCrc32 header)) {blob : Bytes} {s : σ}
    (hcontent : H.contents s (lit "p") = emptyBlock ++ blob) :
    ∃ nvram list t u,
      run h (platformInit zlibCrc32 writableBuild i (some (lit "p")) none) s =
        (.ok (nvram, list), t) ∧
      run h (platformCommit zlibCrc32 writableBuild nvram
        (plainLibnvram.listSet list (textEntry (lit "config1", lit "1")))) t = (.ok (), u) := by
  have hnone : AllTaken fun _ => none := fun f s hs => by cases hs
  have hset : plainLibnvram.SetsInPlace := fun _ _ => rfl
  have hparse := parse_emptyBlock blob
  rw [← hcontent] at hparse
  have hpaths : ∀ p, configured (some (lit "p")) = some p → H.Section p := fun p hp =>
    Option.some.inj (eq_some_of_configured hp) ▸ hsection
  obtain ⟨r, t, hinit, hresult, -⟩ :=
    H.run_platformInit zlibCrc32 writableBuild (some (lit "p")) none hpaths s
  have hsection' : legacySection (some (lit "p")) none = some (lit "p") := by decide
  have hview : (H.view s).contents (lit "p") = H.contents s (lit "p") := rfl
  rw [SingleResult, hsection'] at hresult
  dsimp only at hresult
  rw [hview, platformList_eq hset hparse rfl] at hresult
  obtain ⟨nvram, rfl, hopen⟩ := hresult
  have htakes : ∀ f, FieldTakes f (Function.update
      (fun g => (headerData ((headerOf fun _ => none).stored zlibCrc32) g).text) .config1
      (lit "1") f) := by
    intro f
    by_cases hf : f = .config1
    · subst hf
      rw [Function.update_self, fieldTakes_iff_of_numeric (by decide)]
      decide
    · rw [Function.update_of_ne hf, headerData_stored, text_headerOf hnone]
      exact (fieldTakes_loadedText hnone f).1
  have hallow : writableBuild.allowWrite = true := rfl
  obtain ⟨r, u, hcommit, hdone⟩ := H.run_platformCommit zlibCrc32 hallow herrno hopen
    (fun _ hp => hp) ((tableTexts _).map textEntry) t
  rw [headerOfList_tableTexts htakes] at hdone
  obtain rfl := hdone.1.mpr (hfits _)
  rw [← put_tableTexts] at hcommit
  exact ⟨nvram, _, t, u, hinit, hcommit⟩

/-- A file with a valid header and a blob behind it. -/
def blobFile (blob : Bytes) : Machine FileSystem :=
  ⟨⟨Function.update (fun _ => none) (lit "p") (some (emptyBlock ++ blob)), fun _ => none, 3, 0⟩, []⟩

theorem content_blobFile (blob : Bytes) :
    (blobFile blob).sys.content (lit "p") = emptyBlock ++ blob := by
  simp [blobFile, FileSystem.content]

theorem blobFile_update (blob : Bytes) :
    ∃ nvram list m₁ m₂,
      initOnFile zlibCrc32 plainLibnvram none zeros (lit "p") none (blobFile blob) =
        (.ok (nvram, list), m₁) ∧
      commitOnFile zlibCrc32 plainLibnvram none zeros nvram
        (plainLibnvram.listSet list (textEntry (lit "config1", lit "1"))) m₁ = (.ok (), m₂) :=
  (fileMachine.healthy plainLibnvram none zeros).sets_config1 (fun _ => rfl) trivial
    (fun _ => trivial) (content_blobFile blob)

/-- One partition, with a valid header and erased bytes behind it. -/
def onePartition : List MtdPartition := [⟨lit "p", 1088, by decide⟩]

def erasedBehind : Machine (Flash onePartition) where
  sys :=
    { content := fun _ => emptyBlock ++ List.replicate 64 0xFF
      length_content := fun i => by
        obtain rfl : i = ⟨0, by decide⟩ := Fin.eq_of_val_eq (Nat.lt_one_iff.mp i.isLt)
        rw [List.length_append, List.length_replicate]
        exact congrArg (· + 64) (serializeHeader_length _ _)
      fds := fun _ => none
      nextFd := 3
      nextAddr := 0 }
  stdout := []

theorem labelled_onePartition : labelled onePartition (lit "p") = some ⟨0, by decide⟩ := by
  decide

theorem erasedBehind_update :
    ∃ nvram list m₁ m₂,
      run (mtdMachine plainLibnvram none zeros)
        (platformInit zlibCrc32 writableBuild .mtd (some (lit "p")) none) erasedBehind =
          (.ok (nvram, list), m₁) ∧
      run (mtdMachine plainLibnvram none zeros) (platformCommit zlibCrc32 writableBuild nvram
        (plainLibnvram.listSet list (textEntry (lit "config1", lit "1")))) m₁ = (.ok (), m₂) := by
  refine (mtdMachine.healthy plainLibnvram none zeros).sets_config1 (fun _ => rfl)
    (Option.isSome_iff_exists.mpr ⟨_, labelled_onePartition⟩)
    (fun header => ⟨_, labelled_onePartition, by decide, ?_⟩) (s := erasedBehind)
    (erasedBehind.sys.contents_of_labelled labelled_onePartition)
  rw [serializeHeader_length]
  decide

theorem platform_update_keeps_blobs_iff_sample :
    (∃ nvram list m₁ m₂,
      initOnFile zlibCrc32 plainLibnvram none zeros (lit "p") none (blobFile []) =
        (.ok (nvram, list), m₁) ∧
      commitOnFile zlibCrc32 plainLibnvram none zeros nvram
        (plainLibnvram.listSet list (textEntry (lit "config1", lit "1"))) m₁ = (.ok (), m₂) ∧
      KeepsBehindHeader ((blobFile []).sys.content (lit "p")) (m₂.sys.content (lit "p"))) ∧
    ∃ nvram list m₁ m₂,
      run (mtdMachine plainLibnvram none zeros)
        (platformInit zlibCrc32 writableBuild .mtd (some (lit "p")) none) erasedBehind =
          (.ok (nvram, list), m₁) ∧
      run (mtdMachine plainLibnvram none zeros) (platformCommit zlibCrc32 writableBuild nvram
        (plainLibnvram.listSet list (textEntry (lit "config1", lit "1")))) m₁ = (.ok (), m₂) ∧
      KeepsBehindHeader (erasedBehind.sys.content ⟨0, by decide⟩)
        (m₂.sys.content ⟨0, by decide⟩) := by
  have hiff := platform_update_keeps_blobs_iff zlibCrc32 plainLibnvram zeros writableBuild none
  constructor
  · obtain ⟨nvram, list, m₁, m₂, hinit, hcommit⟩ := blobFile_update []
    refine ⟨nvram, list, m₁, m₂, hinit, hcommit,
      (hiff.1 none (lit "p") (blobFile []) nvram list m₁ _ m₂ hinit hcommit).mpr ?_⟩
    rw [content_blobFile, List.append_nil]
    exact serializeHeader_length _ _
  · obtain ⟨nvram, list, m₁, m₂, hinit, hcommit⟩ := erasedBehind_update
    refine ⟨nvram, list, m₁, m₂, hinit, hcommit, (hiff.2 onePartition none (lit "p") _
      labelled_onePartition erasedBehind nvram list m₁ _ m₂ hinit hcommit).mpr fun b hb => ?_⟩
    have hbehind : (emptyBlock ++ List.replicate 64 0xFF).drop PLATFORM_HEADER_SIZE =
        List.replicate 64 0xFF := List.drop_left' (serializeHeader_length _ _)
    exact List.eq_of_mem_replicate (hbehind ▸ hb)

/-- With three bytes behind the header, setting a field cuts them off. -/
theorem platform_update_cuts_blob :
    ∃ header nvram list m₁ m₂,
      parseHeader zlibCrc32 (((blobFile [1, 2, 3]).sys.content (lit "p")).take
        PLATFORM_HEADER_SIZE) = some header ∧ header.hdrVersion = 0 ∧
      initOnFile zlibCrc32 plainLibnvram none zeros (lit "p") none (blobFile [1, 2, 3]) =
        (.ok (nvram, list), m₁) ∧
      commitOnFile zlibCrc32 plainLibnvram none zeros nvram
        (plainLibnvram.listSet list (textEntry (lit "config1", lit "1"))) m₁ = (.ok (), m₂) ∧
      ¬ KeepsBehindHeader ((blobFile [1, 2, 3]).sys.content (lit "p"))
        (m₂.sys.content (lit "p")) := by
  obtain ⟨nvram, list, m₁, m₂, hinit, hcommit⟩ := blobFile_update [1, 2, 3]
  obtain ⟨new, -, hcontents⟩ := (fileMachine.healthy plainLibnvram none zeros)
    |>.contents_platform_update zlibCrc32 (fun _ => rfl) trivial hinit hcommit
  have hcontent : m₂.sys.content (lit "p") = serializeHeader zlibCrc32 new := by
    have hpath := congrFun hcontents (lit "p")
    rw [Healthy.storeAt, Function.update_self] at hpath
    exact hpath
  refine ⟨(headerOf fun _ => none).stored zlibCrc32, nvram, list, m₁, m₂, ?_, rfl, hinit,
    hcommit, ?_⟩
  · rw [content_blobFile]
    exact parse_emptyBlock _
  · rw [hcontent, keepsBehindHeader_header_iff (serializeHeader_length _ _), content_blobFile,
      List.length_append]
    have hlength : emptyBlock.length = PLATFORM_HEADER_SIZE := serializeHeader_length _ _
    rw [hlength]
    decide

end Nvram
