import Nvram.Legacy.Keeper
import Nvram.Platform.RoundTrip

/-!
# The platform format as a keeper of settings

A commit is refused where a key names no field, where a field does not take its value, and in a
build without writing.  What is kept are all fields of the header: each as the canonical text of
its value, and as the canonical text of no value where it has none.
-/

namespace Nvram

open Effects Errno

/-! ### What becomes of settings -/

/-- The settings that a header of these settings is loaded as. -/
def canonical (m : Settings) : Settings := fun key =>
  (fieldOf key).map fun f => loadedText f (m (fields f).key)

/-- Every key names a field, which takes its value. -/
def SettingsTaken (m : Settings) : Prop :=
  ∀ key value, m key = some value → ∃ f, fieldOf key = some f ∧ FieldTakes f value

/-- What becomes of settings that the platform format commits. -/
def PlatformKeeps (build : PlatformBuild) : Keeps := fun m o =>
  build.allowWrite = true ∧ SettingsTaken m ∧ o = some (canonical m)

theorem enumerates_tableTexts (text : FieldName → CString) :
    Enumerates (tableTexts text) fun key => (fieldOf key).map text := by
  refine ⟨tableTexts_nodup text, fun key value => ?_⟩
  rw [Option.map_eq_some_iff]
  constructor
  · intro hmem
    obtain ⟨f, -, heq⟩ := List.mem_map.mp hmem
    obtain ⟨rfl, rfl⟩ := Prod.mk.inj heq
    exact ⟨f, fieldOf_key f, rfl⟩
  · intro h
    obtain ⟨f, hf, rfl⟩ := h
    rw [← fieldOf_eq_some_iff.mp hf]
    exact List.mem_map.mpr ⟨f, mem_version0Fields f, rfl⟩

section

variable {texts : List (CString × CString)} {m : Settings} (htexts : Enumerates texts m)

include htexts

theorem textsAccepted_iff_settingsTaken : TextsAccepted texts ↔ SettingsTaken m :=
  htexts.forall_iff

theorem valuesIn_of_enumerates (f : FieldName) : valuesIn texts f = m (fields f).key := by
  unfold valuesIn
  cases hlookup : texts.lookup (fields f).key with
  | some value =>
      obtain ⟨before, after, rfl, -⟩ := List.lookup_eq_some_iff.mp hlookup
      exact ((htexts.mem_iff (fields f).key value).mp (by simp)).symm
  | none =>
      cases hvalue : m (fields f).key with
      | none => rfl
      | some value =>
          have hmem := (htexts.mem_iff (fields f).key value).mpr hvalue
          have hne := List.lookup_eq_none_iff.mp hlookup _ hmem
          simp at hne

end

theorem SettingsTaken.allTaken {m : Settings} (h : SettingsTaken m) :
    AllTaken fun f => m (fields f).key := by
  intro f s hs
  obtain ⟨g, hg, htakes⟩ := h (fields f).key s hs
  rw [fieldOf_key] at hg
  obtain rfl := Option.some.inj hg
  exact htakes

/-- The canonical text of no value, or of a value that is taken, is short. -/
theorem strlen_loadedText_lt {f : FieldName} {value : Option CString}
    (h : ∀ s ∈ value, FieldTakes f s) : (loadedText f value).strlen < 64 := by
  by_cases hf : (fields f).type = .string
  · rw [loadedText, hf]
    cases value with
    | none => decide
    | some s =>
        have htakes := h s rfl
        rw [FieldTakes, hf] at htakes
        exact htakes
  · have hloaded : loadedText f value = hexString (storedNumber f value) := by
      rw [loadedText, storedNumber]
      split
      · exact absurd ‹_› hf
      · rfl
    have hle := (storedNumber_le h).trans (max_lt_two_pow f)
    rw [hloaded]
    exact length_hexText_lt (lt_of_le_of_lt hle (by decide))

theorem strtoul_le (s : CString) : (strtoul s).1 ≤ ULONG_MAX := by
  have hpos : 0 < 2 ^ 64 := by decide
  rw [strtoul]
  dsimp only
  split_ifs with hlarge
  · exact le_rfl
  · exact Nat.le_sub_one_of_lt (Nat.mod_lt _ hpos)
  · exact not_lt.mp hlarge

/-- A canonical text is its own canonical text. -/
theorem loadedText_loadedText (f : FieldName) (value : Option CString) :
    loadedText f (some (loadedText f value)) = loadedText f value := by
  have hle : (value.elim 0 fun s => (strtoul s).1) ≤ ULONG_MAX := by
    cases value with
    | none => exact Nat.zero_le _
    | some s => exact strtoul_le s
  unfold loadedText
  cases (fields f).type with
  | string => rfl
  | u32 => simp only [Option.elim_some, strtoul_hexString hle]
  | u64 => simp only [Option.elim_some, strtoul_hexString hle]

theorem canonical_key (m : Settings) (f : FieldName) :
    canonical m (fields f).key = some (loadedText f (m (fields f).key)) := by
  rw [canonical, fieldOf_key, Option.map_some]

/-- Changes of canonical settings are changes of the settings. -/
theorem canonical_after (m : Settings) (operations : List Operation) :
    canonical ((canonical m).after operations) = canonical (m.after operations) := by
  have hfield : ∀ f, loadedText f ((canonical m).after operations (fields f).key) =
      loadedText f (m.after operations (fields f).key) := by
    intro f
    unfold Settings.after
    cases (operations.filterMap (Operation.setting? (fields f).key)).getLast? with
    | some setting => rw [Option.getD_some, Option.getD_some]
    | none =>
        rw [Option.getD_none, Option.getD_none, canonical_key]
        exact loadedText_loadedText f _
  funext key
  unfold canonical
  exact congrArg (Option.map · (fieldOf key)) (funext hfield)

theorem canonical_short {m : Settings} (h : SettingsTaken m) : (canonical m).Short := by
  intro key value hvalue
  obtain ⟨f, hf, rfl⟩ := Option.map_eq_some_iff.mp hvalue
  obtain rfl := fieldOf_eq_some_iff.mp hf
  have hlt := strlen_loadedText_lt (h.allTaken f)
  refine ⟨?_, hlt.trans (by decide)⟩
  cases f <;> decide

/-! ### The keeper -/

section

variable {lib : Libnvram} {crc32 : Bytes → UInt32} {build : PlatformBuild} {σ : Type}
  {i : Interface} {h : Handler callSig σ}

def nvramPlatformFormat.initSpec (lib : Libnvram) (crc32 : Bytes → UInt32)
    (build : PlatformBuild) : (nvramPlatformFormat crc32 build).InitSpec lib where
  Opens v i sections := SingleResult (platformList crc32 lib) v i sections.1 sections.2
  init hA _ _ hsecA _ := under_platformInit hA crc32 build hsecA

/-- A program that prints nothing and keeps to the interface leaves the output as it was. -/
theorem Healthy.run_within_stdout (H : Healthy lib i h) {α : Type} {paths : CString → Prop}
    {Q : α → Prop} {p : NProg α} (hp : Confined (Call.Within i paths) Q p) (s : σ) :
    H.stdout (run h p s).2 = H.stdout s := by
  refine run_preserves (I := fun t => H.stdout t = H.stdout s) (fun o t ho ht => ?_) hp rfl
  obtain ⟨hi, -, -, hprinted⟩ := ho
  rw [H.printed o t hi, hprinted, List.append_nil, ht]

/-- What a section holds is decided by the block at its start. -/
theorem platformList_of_prefix {block content : Bytes}
    (hlength : block.length = PLATFORM_HEADER_SIZE) (hfront : block <+: content) :
    platformList crc32 lib content = platformList crc32 lib block := by
  have htake : content.take PLATFORM_HEADER_SIZE = block := by
    rw [← hlength]
    exact (List.prefix_iff_eq_take.mp hfront).symm
  have hblock : block.take PLATFORM_HEADER_SIZE = block := List.take_of_length_le hlength.le
  have hsize : PLATFORM_HEADER_SIZE ≤ content.length := hlength ▸ hfront.length_le
  rw [platformList, platformList, if_pos hsize, if_pos hlength.ge, htake, hblock]

/-- The header of a list that stands for settings. -/
theorem headerOfList_represents (hversion : build.version = 0)
    {texts : List (CString × CString)} {m : Settings} (htexts : Enumerates texts m)
    (header : PlatformHeader) :
    headerOfList false (startHeader build) (texts.map textEntry) = .ok header ↔
      SettingsTaken m ∧ header = headerOf fun f => m (fields f).key := by
  have hstart : startHeader build = headerOf fun _ => none := by
    rw [headerOf_none, startHeader, hversion]
    rfl
  have hvalues : (fun f => (valuesIn texts f).or none) = fun f => m (fields f).key := by
    funext f
    rw [Option.or_none, valuesIn_of_enumerates htexts]
  rw [hstart, headerOfList_texts htexts.distinct (fun _ _ _ _ => rfl), hvalues,
    textsAccepted_iff_settingsTaken htexts]

/-- Headers fit, and `errno` is not `ERANGE` when a commit looks. -/
structure Healthy.TakesHeaders (H : Healthy lib i h) : Prop where
  fits : ∀ path buf, buf.length = PLATFORM_HEADER_SIZE → H.Fits path buf
  errno : ∀ s, (h .errnoIsErange s).1 = false

theorem commitEnds_platform {H : Healthy lib i h} (hset : lib.SetsInPlace)
    (htakes : H.TakesHeaders) (hversion : build.version = 0)
    {sections : Option CString × Option CString} {nvram : SingleNvram} {loaded list : List Entry}
    {m : Settings} {s t : σ}
    (hopens : (nvramPlatformFormat.initSpec lib crc32 build).Opens (H.view s) i sections
      (.ok (nvram, loaded)))
    (hlist : Represents list m) :
    CommitEnds H (SingleLoads (platformList crc32 lib)) (PlatformKeeps build) sections m t
      (run h ((nvramPlatformFormat crc32 build).commit nvram list) t).1.1
      (run h ((nvramPlatformFormat crc32 build).commit nvram list) t).2 := by
  have hresult : SingleResult (platformList crc32 lib) (H.view s) i sections.1 sections.2
      (.ok (nvram, loaded)) := hopens
  obtain ⟨path, hpath, -, hopen⟩ := hresult.of_ok
  have hstdout : H.stdout (run h ((nvramPlatformFormat crc32 build).commit nvram list) t).2 =
      H.stdout t := by
    refine H.run_within_stdout ((nvramPlatformFormat.frame crc32 build).commit i (fun _ => True)
      nvram list ?_) t
    exact ⟨hopen.interface, fun _ _ => trivial⟩
  have hcommit : run h ((nvramPlatformFormat crc32 build).commit nvram list) t =
      (((run h (platformCommit crc32 build nvram list) t).1, nvram),
        (run h (platformCommit crc32 build nvram list) t).2) := by
    show run h (platformCommit crc32 build nvram list >>= fun r => pure (r, nvram)) t = _
    rw [run_bind]
    rfl
  rw [hcommit] at hstdout ⊢
  cases hallow : build.allowWrite with
  | false =>
      -- nothing is written in this build
      have hrefused : platformCommit crc32 build nvram list = .ret (.error enotsup) := by
        rw [platformCommit, if_pos (by simp [hallow])]
        rfl
      rw [hrefused]
      refine .refused (fun o hkeeps => ?_) ⟨enotsup, rfl⟩ ⟨rfl, rfl⟩
      have hwrites := hkeeps.1
      rw [hallow] at hwrites
      cases hwrites
  | true =>
      obtain ⟨texts, rfl, htexts⟩ := hlist.exists_texts
      obtain ⟨r, u, hrun, hends⟩ := H.run_platformCommit crc32 hallow htakes.errno hopen
        (fun _ hpriv => hpriv) (texts.map textEntry) t
      rw [hrun] at hstdout ⊢
      have hheader := headerOfList_represents hversion htexts
      cases hfound : headerOfList false (startHeader build) (texts.map textEntry) with
      | error e =>
          rw [hfound] at hends
          refine .refused (fun o hkeeps => ?_) hends.1 ⟨hends.2, hstdout⟩
          have hok := (hheader _).mpr ⟨hkeeps.2.1, rfl⟩
          rw [hfound] at hok
          cases hok
      | ok header =>
          rw [hfound] at hends
          obtain ⟨htaken, rfl⟩ := (hheader header).mp hfound
          obtain ⟨hok, hcontents⟩ := hends
          have hlength := serializeHeader_length crc32 (headerOf fun f => m (fields f).key)
          have hfits := htakes.fits path _ hlength
          refine .kept (some (canonical m)) ⟨hallow, htaken, rfl⟩ (hok.mpr hfits) ?_
            (fun p hp => ?_) hstdout
          · refine ⟨(tableTexts fun f => loadedText f (m (fields f).key)).map textEntry, ?_,
              (enumerates_tableTexts _).represents⟩
            rw [singleLoads_iff hpath, hcontents, Healthy.storeAt, Function.update_self,
              platformList_of_prefix hlength (H.store_prefix path _ _ hfits)]
            exact platformList_headerOf crc32 hset htaken.allTaken
          · have hne : p ≠ path := by
              intro heq
              subst heq
              exact hp (configured_of_section hpath)
            rw [hcontents, Healthy.storeAt, Function.update_of_ne hne]

/-- The platform format on sections that take its headers. -/
def platformKeeper (H : Healthy lib i h) (crc32 : Bytes → UInt32) (hset : lib.SetsInPlace)
    (htakes : H.TakesHeaders) (hversion : build.version = 0) :
    Keeper H (nvramPlatformFormat crc32 build) where
  frame := nvramPlatformFormat.frame crc32 build
  spec := nvramPlatformFormat.initSpec lib crc32 build
  loads := SingleLoads (platformList crc32 lib)
  keeps := PlatformKeeps build
  loads_congr := SingleLoads.congr
  loads_unique := SingleLoads.unique
  loads_of_opens hopens := SingleResult.loads hopens
  not_loads_of_fails hopens := SingleResult.not_loads hopens
  short hkeeps _ := by
    obtain ⟨-, htaken, heq⟩ := hkeeps
    obtain rfl := Option.some.inj heq
    exact canonical_short htaken
  commit hopens _ hlist := commitEnds_platform hset htakes hversion hopens hlist

/-! ### Runs of the program -/

variable {cfg : BuildConfig} {sections : Bool → Option CString × Option CString} {s : σ}
  {invs : List Invocation}

/-- With the platform format every run of invocations is one of the machine whose commits are
`PlatformKeeps`, from any stores that stand for what its sides hold. -/
theorem platform_program_refines (H : Healthy lib i h) (hl : lib.ListLaws)
    (hset : lib.SetsInPlace) (htakes : H.TakesHeaders) (hversion : build.version = 0)
    (hhealthy : ∀ system path, Configured (sections system) path → H.Section path)
    (hdisjoint : ∀ path, ¬ (Configured (sections true) path ∧ Configured (sections false) path))
    (huses : ∀ inv ∈ invs,
      inv.UsesFormat lib crc32 cfg i (nvramPlatformFormat crc32 build) sections) {kept : Kept}
    (hrelated : (platformKeeper H crc32 hset htakes hversion).Related sections kept s) :
    ∃ outs, SpecRun (KeepStep lib crc32 cfg (PlatformKeeps build)) kept invs outs ∧
      List.Forall₂ (fun (p : Observation × σ) (out : Observation × Kept) =>
        p.1 = out.1 ∧ (platformKeeper H crc32 hset htakes hversion).Related sections out.2 p.2)
        (observations (H.observe crc32 cfg) invs s) outs :=
  (platformKeeper H crc32 hset htakes hversion).exists_keepRun huses hl hhealthy hdisjoint hrelated

/-- However successful sets and deletes are split into invocations, every field ends as the
canonical text of what the last of them says of it. -/
theorem platform_batches_compose (H : Healthy lib i h) (hl : lib.ListLaws)
    (hset : lib.SetsInPlace) (htakes : H.TakesHeaders) (hversion : build.version = 0)
    (hhealthy : ∀ system path, Configured (sections system) path → H.Section path)
    (hdisjoint : ∀ path, ¬ (Configured (sections true) path ∧ Configured (sections false) path))
    (huses : ∀ inv ∈ invs,
      inv.UsesFormat lib crc32 cfg i (nvramPlatformFormat crc32 build) sections) {maps : Maps}
    (hmaps : ∀ system, canonical (maps system) = maps system)
    (hrelated : (platformKeeper H crc32 hset htakes hversion).Related sections
      (fun system => some (maps system)) s)
    (hok : ∀ p ∈ observations (H.observe crc32 cfg) invs s, p.1.success = true) :
    (platformKeeper H crc32 hset htakes hversion).Related sections
      (fun system => some (canonical
        ((maps system).after (invs.flatMap (Invocation.writes · system)))))
      (finalState (H.observe crc32 cfg) invs s) :=
  (platformKeeper H crc32 hset htakes hversion).related_finalState (fun _ _ hkeeps => hkeeps.2.2)
    canonical_after huses hl hhealthy hdisjoint hmaps hrelated hok

end

/-! ### Evaluated -/

/-- A build with one file a side and the platform format. -/
def platformConfig : BuildConfig :=
  { legacyConfig with
    formatDefault := lit "platform"
    formatPlatform := some writableBuild }

/-- A number, a query of it, a key that is no field, a deletion, and a query of a field that has
no value. -/
def platformRun : List Invocation :=
  [⟨fun _ => none, [lit "set", lit "config1", lit "16"], by decide⟩,
    ⟨fun _ => none, [lit "get", lit "config1"], by decide⟩,
    ⟨fun _ => none, [lit "set", lit "speed", lit "1"], by decide⟩,
    ⟨fun _ => none, [lit "delete", lit "config1"], by decide⟩,
    ⟨fun _ => none, [lit "get", lit "config1"], by decide⟩]

theorem usesPlatform_sample {inv : Invocation} (it : Operation) (henv : inv.env = fun _ => none)
    (hitems : commandLine inv.args = some [.operation it]) :
    inv.UsesFormat plainLibnvram zlibCrc32 platformConfig .file
      (nvramPlatformFormat zlibCrc32 writableBuild) legacySections :=
  inv.usesFormat_of_defaults rfl rfl it henv hitems

theorem setsInPlace_plain : plainLibnvram.SetsInPlace := fun _ _ => rfl

theorem takesHeaders_files : (fileMachine.healthy plainLibnvram none zeros).TakesHeaders :=
  ⟨fun _ _ _ => trivial, fun _ => rfl⟩

/-- The platform format on files, as a keeper. -/
def platformFileKeeper : Keeper (fileMachine.healthy plainLibnvram none zeros)
    (nvramPlatformFormat zlibCrc32 writableBuild) :=
  platformKeeper _ zlibCrc32 setsInPlace_plain takesHeaders_files rfl

theorem platform_program_refines_sample :
    (observations ((fileMachine.healthy plainLibnvram none zeros).observe zlibCrc32
        platformConfig) platformRun noFiles).map Prod.fst =
      [⟨true, []⟩, ⟨true, (lit "0x10").bytes ++ [newline]⟩, ⟨false, []⟩, ⟨true, []⟩,
        ⟨true, (lit "0x0").bytes ++ [newline]⟩] ∧
      ∃ outs, SpecRun (KeepStep plainLibnvram zlibCrc32 platformConfig
          (PlatformKeeps writableBuild)) (fun _ => some fun _ => none) platformRun outs ∧
        List.Forall₂ (fun (p : Observation × Machine FileSystem) (out : Observation × Kept) =>
          p.1 = out.1 ∧ platformFileKeeper.Related legacySections out.2 p.2)
          (observations ((fileMachine.healthy plainLibnvram none zeros).observe zlibCrc32
            platformConfig) platformRun noFiles) outs := by
  refine ⟨by decide +kernel, platform_program_refines _ Plain.listLaws setsInPlace_plain
    takesHeaders_files rfl (fun _ _ _ => trivial) legacySections_disjoint (fun inv hinv => ?_)
    ⟨fun system => ⟨[], ?_, represents_nil⟩, fun system key value hvalue => by cases hvalue⟩⟩
  · simp only [platformRun, List.mem_cons, List.not_mem_nil, or_false] at hinv
    rcases hinv with rfl | rfl | rfl | rfl | rfl
    · exact usesPlatform_sample (.set (lit "config1") (lit "16")) rfl rfl
    · exact usesPlatform_sample (.get (lit "config1")) rfl rfl
    · exact usesPlatform_sample (.set (lit "speed") (lit "1")) rfl rfl
    · exact usesPlatform_sample (.del (lit "config1")) rfl rfl
    · exact usesPlatform_sample (.get (lit "config1")) rfl rfl
  · cases system with
    | true => exact ⟨lit "sa", rfl, rfl⟩
    | false => exact ⟨lit "ua", rfl, rfl⟩

/-- The header of no values in both files. -/
def headerFiles : Machine FileSystem :=
  ⟨⟨fun path => if path = lit "sa" ∨ path = lit "ua"
      then some (serializeHeader zlibCrc32 (headerOf fun _ => none)) else none,
    fun _ => none, 3, 0⟩, []⟩

theorem related_headerFiles :
    platformFileKeeper.Related legacySections (fun _ => some (canonical fun _ => none))
      headerFiles := by
  have hempty : SettingsTaken fun _ => none := by
    intro key value hvalue
    cases hvalue
  have hlist := platformList_headerOf zlibCrc32 setsInPlace_plain hempty.allTaken
  refine ⟨fun system => ⟨_, ?_, (enumerates_tableTexts _).represents⟩,
    fun system => canonical_short hempty⟩
  cases system with
  | true => exact ⟨lit "sa", rfl, hlist⟩
  | false => exact ⟨lit "ua", rfl, hlist⟩

/-- A number in two steps, and a deletion. -/
def platformBatches : List Invocation :=
  [⟨fun _ => none, [lit "set", lit "config1", lit "3"], by decide⟩,
    ⟨fun _ => none, [lit "set", lit "config1", lit "16"], by decide⟩,
    ⟨fun _ => none, [lit "delete", lit "config2"], by decide⟩]

theorem platform_batches_compose_sample :
    (platformBatches.flatMap (Invocation.writes · false) =
        [.set (lit "config1") (lit "3"), .set (lit "config1") (lit "16"), .del (lit "config2")]) ∧
      platformFileKeeper.Related legacySections
        (fun system => some (canonical ((canonical fun _ => none).after
          (platformBatches.flatMap (Invocation.writes · system)))))
        (finalState ((fileMachine.healthy plainLibnvram none zeros).observe zlibCrc32
          platformConfig) platformBatches headerFiles) := by
  have hok : (observations ((fileMachine.healthy plainLibnvram none zeros).observe zlibCrc32
      platformConfig) platformBatches headerFiles).all (fun p => p.1.success) = true := by
    decide +kernel
  refine ⟨rfl, platform_batches_compose _ Plain.listLaws setsInPlace_plain takesHeaders_files rfl
    (fun _ _ _ => trivial) legacySections_disjoint (fun inv hinv => ?_)
    (fun _ => canonical_after (fun _ => none) []) related_headerFiles
    (List.all_eq_true.mp hok)⟩
  simp only [platformBatches, List.mem_cons, List.not_mem_nil, or_false] at hinv
  rcases hinv with rfl | rfl | rfl
  · exact usesPlatform_sample (.set (lit "config1") (lit "3")) rfl rfl
  · exact usesPlatform_sample (.set (lit "config1") (lit "16")) rfl rfl
  · exact usesPlatform_sample (.del (lit "config2")) rfl rfl

end Nvram
