import Nvram.Libnvram.Plain
import Nvram.Platform.Header
import Nvram.Platform.Session

/-!
# The platform list round trip

A list of distinct keys that `list_to_header` takes becomes the header `headerOf` of its
values, a function of one value for each field.  Loading that header gives every field its
canonical text, from which the same header is built again.
-/

namespace Nvram

open Effects Errno

/-! ### The header of the values -/

/-- The value of each field, if it has one. -/
abbrev FieldValues := FieldName → Option CString

/-- The number that is stored for a value of a numeric field, 0 for no value. -/
def storedNumber (f : FieldName) (value : Option CString) : ℕ :=
  match (fields f).type with
  | .string => 0
  | _ => value.elim 0 fun s => (strtoul s).1

/-- The bytes that are stored for a name. -/
def storedName (value : Option CString) : Bytes :=
  overwrite (List.replicate 64 0) 0 (value.elim [] fun s => s.bytesZ.take 64)

theorem storedName_length (value : Option CString) : (storedName value).length = 64 := by
  refine (overwrite_length ?_).trans List.length_replicate
  rw [List.length_replicate]
  cases value with
  | none => decide
  | some s => simp

/-- The build that the round trip is about: header version 0, and writing allowed. -/
def writableBuild : PlatformBuild := ⟨0, true⟩

/-- The header with these numbers and this name. -/
def headerWith (name : Bytes) (hname : name.length = 64) (number : FieldName → ℕ) :
    PlatformHeader :=
  { startHeader writableBuild with
    name := name
    nameLength := hname
    ddrcBlobOffset := UInt32.ofNat (number .ddrcBlobOffset)
    ddrcBlobSize := UInt32.ofNat (number .ddrcBlobSize)
    ddrcBlobType := UInt32.ofNat (number .ddrcBlobType)
    ddrcBlobCrc32 := UInt32.ofNat (number .ddrcBlobCrc32)
    ddrcSize := UInt64.ofNat (number .ddrcSize)
    config1 := UInt32.ofNat (number .config1)
    config2 := UInt32.ofNat (number .config2)
    config3 := UInt32.ofNat (number .config3)
    config4 := UInt32.ofNat (number .config4)
    totalSize := UInt32.ofNat (number .totalSize) }

/-- The header of the values. -/
def headerOf (values : FieldValues) : PlatformHeader :=
  headerWith (storedName (values .name)) (storedName_length _) fun f => storedNumber f (values f)

theorem headerOf_congr {values values' : FieldValues}
    (hname : storedName (values .name) = storedName (values' .name))
    (hnumber : ∀ f, storedNumber f (values f) = storedNumber f (values' f)) :
    headerOf values = headerOf values' := by
  have hfun : (fun f => storedNumber f (values f)) = fun f => storedNumber f (values' f) :=
    funext hnumber
  rw [headerOf, headerOf, hfun]
  congr 1

theorem headerOf_none : headerOf (fun _ => none) = startHeader writableBuild := rfl

/-- A value that a field takes while `errno` is not `ERANGE`. -/
def FieldTakes (f : FieldName) (s : CString) : Prop :=
  match (fields f).type with
  | .string => s.strlen < 64
  | type => ¬ OutOfRange false type s

theorem fieldTakes_iff_of_numeric {f : FieldName} (hf : (fields f).type ≠ .string) (s : CString) :
    FieldTakes f s ↔ ¬ OutOfRange false (fields f).type s := by
  unfold FieldTakes
  cases h : (fields f).type with
  | string => exact absurd h hf
  | u32 => exact Iff.rfl
  | u64 => exact Iff.rfl

theorem storeData_number {f : FieldName} (hf : (fields f).type ≠ .string) (values : FieldValues)
    (value : Bytes) (s : CString) :
    storeData (headerOf values) f value (numberData (fields f).type (strtoul s).1) =
      .ok (headerOf (Function.update values f (some s))) := by
  cases f with
  | name => exact absurd rfl hf
  | _ => rfl

/-- A field without a value takes an accepted one, and refuses any other. -/
theorem valueToHeader_headerOf {values : FieldValues} {f : FieldName} (hnone : values f = none)
    (key : Bytes) (s : CString) :
    (FieldTakes f s → valueToHeader false (headerOf values) f (fields f) ⟨key, s.bytesZ⟩ =
        (.ok (headerOf (Function.update values f (some s))), false)) ∧
      (¬ FieldTakes f s → ∃ err e,
        valueToHeader false (headerOf values) f (fields f) ⟨key, s.bytesZ⟩ = (.error err, e)) := by
  by_cases hf : (fields f).type = .string
  · obtain rfl : f = .name := by
      cases f with
      | name => rfl
      | _ => cases hf
    have hlength := s.bytesZ_length
    have hvalue : valueToHeader false (headerOf values) .name (fields .name) ⟨key, s.bytesZ⟩ =
        (storeData (headerOf values) .name s.bytesZ (.str (CString.ofBuf s.bytesZ)), false) := by
      rw [valueToHeader, if_neg (not_not.mpr (getLast?_bytesZ s))]
      rfl
    have haccepted : FieldTakes .name s ↔ s.bytesZ.length ≤ 64 := by
      rw [hlength]
      exact Nat.lt_iff_add_one_le
    rw [hvalue, haccepted, storeData]
    refine ⟨fun hle => ?_, fun hlong => ?_⟩
    · rw [dif_pos hle]
      have hname : overwrite (headerOf values).name 0 s.bytesZ = storedName (some s) := by
        have hblank : (headerOf values).name = List.replicate 64 0 := by
          show storedName (values .name) = _
          rw [hnone]
          rfl
        rw [hblank, storedName, Option.elim_some, List.take_of_length_le hle]
      have hupdate : headerOf (Function.update values .name (some s)) =
          { headerOf values with
            name := storedName (some s)
            nameLength := storedName_length _ } := rfl
      rw [hupdate]
      simp only [hname]
    · rw [dif_neg hlong]
      exact ⟨_, _, rfl⟩
  · have hconvert := convertValue_numeric hf false s.bytesZ
    rw [CString.ofBuf_bytesZ] at hconvert
    rw [fieldTakes_iff_of_numeric hf, not_not, valueToHeader,
      if_neg (not_not.mpr (getLast?_bytesZ s))]
    refine ⟨fun hin => ?_, fun hout => ?_⟩
    · rw [hconvert.2 hin]
      exact congrArg (·, false) (storeData_number hf values s.bytesZ s)
    · obtain ⟨msg, e, h⟩ := hconvert.1 hout
      rw [h]
      exact ⟨_, _, rfl⟩

/-! ### The header of a list -/

/-- The entries name fields and their values are accepted. -/
def TextsAccepted (texts : List (CString × CString)) : Prop :=
  ∀ t ∈ texts, ∃ f, fieldOf t.1 = some f ∧ FieldTakes f t.2

/-- The values in a list of texts. -/
def valuesIn (texts : List (CString × CString)) : FieldValues := fun f =>
  texts.lookup (fields f).key

theorem entryHeader_textEntry (header : PlatformHeader) (key s : CString) :
    entryHeader false header (textEntry (key, s)) =
      match (fieldOf key).map fun f =>
        (f, valueToHeader false header f (fields f) (textEntry (key, s))) with
      | none => .error einval
      | some (_, .error (e, _), _) => .error e
      | some (_, .ok header, erange) => .ok (header, erange) := by
  unfold entryHeader textEntry
  rewrite [listToHeaderVersionIterator_key]
  rfl

/-- A list of distinct keys is converted exactly when every entry is accepted, to the header
of its values. -/
theorem headerOfList_texts {texts : List (CString × CString)}
    (hdistinct : (texts.map Prod.fst).Nodup) {values : FieldValues}
    (hnew : ∀ t ∈ texts, ∀ f, fieldOf t.1 = some f → values f = none) (header : PlatformHeader) :
    headerOfList false (headerOf values) (texts.map textEntry) = .ok header ↔
      TextsAccepted texts ∧ header = headerOf fun f => (valuesIn texts f).or (values f) := by
  induction texts generalizing values with
  | nil =>
      have hnone : (fun f => (valuesIn [] f).or (values f)) = values := rfl
      rw [hnone, List.map_nil, headerOfList, Except.ok.injEq, eq_comm]
      exact (and_iff_right fun t ht => by cases ht).symm
  | cons t texts ih =>
      obtain ⟨key, s⟩ := t
      obtain ⟨hfresh, hrest⟩ := List.nodup_cons.mp hdistinct
      have hversion : (headerOf values).hdrVersion = 0 := rfl
      -- an entry that is refused
      have hrefused : (∃ e, entryHeader false (headerOf values) (textEntry (key, s)) = .error e) →
          ¬ (∃ f, fieldOf key = some f ∧ FieldTakes f s) →
          (headerOfList false (headerOf values) (((key, s) :: texts).map textEntry) = .ok header ↔
            TextsAccepted ((key, s) :: texts) ∧
              header = headerOf fun f => (valuesIn ((key, s) :: texts) f).or (values f)) := by
        intro hentry hno
        obtain ⟨e, he⟩ := hentry
        rw [List.map_cons, headerOfList, if_pos hversion, he]
        refine iff_of_false (fun h => by cases h) fun h => hno ?_
        exact h.1 (key, s) List.mem_cons_self
      have hentry := entryHeader_textEntry (headerOf values) key s
      cases hfield : fieldOf key with
      | none =>
          refine hrefused ⟨einval, by rw [hentry, hfield]; rfl⟩ fun h => ?_
          obtain ⟨f, hf, -⟩ := h
          rw [hfield] at hf
          cases hf
      | some f =>
          have hnone := hnew (key, s) List.mem_cons_self f hfield
          obtain ⟨htaken, hbad⟩ := valueToHeader_headerOf hnone key.bytesZ s
          rw [hfield] at hentry
          by_cases haccepted : FieldTakes f s
          swap
          · obtain ⟨err, e, h⟩ := hbad haccepted
            refine hrefused ⟨err.1, by rw [hentry, Option.map_some, textEntry, h]⟩ fun h => ?_
            obtain ⟨g, hg, hgood⟩ := h
            rw [hfield] at hg
            obtain rfl := Option.some.inj hg
            exact haccepted hgood
          have hok : entryHeader false (headerOf values) (textEntry (key, s)) =
              .ok (headerOf (Function.update values f (some s)), false) := by
            rw [hentry, Option.map_some, textEntry, htaken haccepted]
          have hkey : (fields f).key = key := fieldOf_eq_some_iff.mp hfield
          have hnew' : ∀ t ∈ texts, ∀ g, fieldOf t.1 = some g →
              Function.update values f (some s) g = none := by
            intro t ht g hg
            have hne : g ≠ f := by
              intro heq
              subst heq
              have hsame : t.1 = key := (fieldOf_eq_some_iff.mp hg).symm.trans hkey
              exact hfresh (List.mem_map.mpr ⟨t, ht, hsame⟩)
            rw [Function.update_of_ne hne]
            exact hnew t (List.mem_cons_of_mem _ ht) g hg
          have hvalues : (fun g => (valuesIn texts g).or (Function.update values f (some s) g)) =
              fun g => (valuesIn ((key, s) :: texts) g).or (values g) := by
            funext g
            by_cases hg : g = f
            · subst hg
              have hlast : valuesIn texts g = none := by
                rw [valuesIn, List.lookup_eq_none_iff]
                intro p hp
                have hne : key ≠ p.1 := fun heq => hfresh (List.mem_map.mpr ⟨p, hp, heq.symm⟩)
                rw [hkey]
                simpa using hne
              rw [hlast, Function.update_self, valuesIn, hkey, List.lookup_cons_self]
              rfl
            · have hne : ((fields g).key == key) = false := by
                rw [← hkey]
                simpa using fun h => hg (fields_key_injective h)
              rw [Function.update_of_ne hg, valuesIn, valuesIn, List.lookup_cons, hne]
          have hmore : TextsAccepted ((key, s) :: texts) ↔ TextsAccepted texts := by
            rw [TextsAccepted, List.forall_mem_cons]
            exact and_iff_right ⟨f, hfield, haccepted⟩
          rw [List.map_cons, headerOfList, if_pos hversion, hok]
          dsimp only
          rw [ih hrest hnew', hvalues, hmore]

/-! ### Loading -/

/-- The text a field is loaded with after a value of it, or none, was committed. -/
def loadedText (f : FieldName) (value : Option CString) : CString :=
  match (fields f).type with
  | .string => value.getD (lit "")
  | _ => hexString (value.elim 0 fun s => (strtoul s).1)

/-- The fields in the order of the table with a text for each. -/
def tableTexts (text : FieldName → CString) : List (CString × CString) :=
  version0Fields.map fun f => ((fields f).key, text f)

theorem tableTexts_nodup (text : FieldName → CString) :
    ((tableTexts text).map Prod.fst).Nodup := by
  have hkeys : (tableTexts text).map Prod.fst = version0Fields.map fun f => (fields f).key := by
    rw [tableTexts, List.map_map]
    rfl
  rw [hkeys]
  decide

theorem distinct_tableTexts (text : FieldName → CString) :
    Keyed.Distinct Entry.key ((tableTexts text).map textEntry) := by
  have hmap : ((tableTexts text).map textEntry).map Entry.key =
      ((tableTexts text).map Prod.fst).map CString.bytesZ := by
    rw [List.map_map, List.map_map]
    rfl
  rw [Keyed.Distinct, hmap]
  exact (tableTexts_nodup text).map CString.bytesZ_injective

@[simp] theorem valuesIn_tableTexts (text : FieldName → CString) :
    valuesIn (tableTexts text) = fun f => some (text f) := by
  funext f
  cases f <;> rfl

theorem get_tableTexts (text : FieldName → CString) (f : FieldName) :
    Keyed.get Entry.key ((tableTexts text).map textEntry) (fields f).key.bytesZ =
      some (textEntry ((fields f).key, text f)) :=
  Keyed.get_of_mem (distinct_tableTexts text) (List.mem_map_of_mem
    (List.mem_map.mpr ⟨f, mem_version0Fields f, rfl⟩))

theorem textsAccepted_tableTexts {text : FieldName → CString} :
    TextsAccepted (tableTexts text) ↔ ∀ f, FieldTakes f (text f) := by
  constructor
  · intro h f
    obtain ⟨g, hg, htakes⟩ := h _ (List.mem_map.mpr ⟨f, mem_version0Fields f, rfl⟩)
    rw [fieldOf_key] at hg
    obtain rfl := Option.some.inj hg
    exact htakes
  · intro h t ht
    obtain ⟨f, -, rfl⟩ := List.mem_map.mp ht
    exact ⟨f, fieldOf_key f, h f⟩

/-- `list_to_header` takes a table of accepted texts. -/
theorem headerOfList_tableTexts {text : FieldName → CString} (h : ∀ f, FieldTakes f (text f)) :
    headerOfList false (startHeader writableBuild) ((tableTexts text).map textEntry) =
      .ok (headerOf fun f => some (text f)) := by
  rw [← headerOf_none]
  refine (headerOfList_texts (tableTexts_nodup text) (fun _ _ _ _ => rfl) _).mpr
    ⟨textsAccepted_tableTexts.mpr h, ?_⟩
  rw [valuesIn_tableTexts]
  rfl

/-- Setting one field of a table. -/
theorem put_tableTexts (text : FieldName → CString) (f : FieldName) (s : CString) :
    Keyed.put Entry.key (textEntry ((fields f).key, s)) ((tableTexts text).map textEntry) =
      (tableTexts (Function.update text f s)).map textEntry := by
  have hmem : (textEntry ((fields f).key, s)).key ∈
      ((tableTexts text).map textEntry).map Entry.key :=
    List.mem_map.mpr ⟨_, Keyed.mem_of_get (get_tableTexts text f), rfl⟩
  rw [Keyed.put_of_mem (distinct_tableTexts text) hmem, tableTexts, tableTexts, List.map_map,
    List.map_map, List.map_map]
  refine List.map_congr_left fun g _ => ?_
  by_cases hg : g = f
  · subst hg
    simp [textEntry]
  · have hne : (fields g).key.bytesZ ≠ (fields f).key.bytesZ := fun h =>
      hg (fields_key_injective (CString.bytesZ_injective h))
    simp [textEntry, hne, hg]

/-- Accepted values. -/
def AllTaken (values : FieldValues) : Prop := ∀ f, ∀ s ∈ values f, FieldTakes f s

theorem allTaken_valuesIn {texts : List (CString × CString)} (h : TextsAccepted texts) :
    AllTaken (valuesIn texts) := by
  intro f s hs
  obtain ⟨l₁, l₂, htexts, -⟩ := List.lookup_eq_some_iff.mp hs
  have hmem : ((fields f).key, s) ∈ texts := by
    rw [htexts]
    simp
  obtain ⟨g, hg, htakes⟩ := h _ hmem
  rw [fieldOf_key] at hg
  obtain rfl := Option.some.inj hg
  exact htakes

theorem ofBuf_storedName {value : Option CString} (h : ∀ s ∈ value, s.strlen < 64) :
    CString.ofBuf (storedName value) = value.getD (lit "") ∧ (0 : UInt8) ∈ storedName value := by
  cases value with
  | none => exact ⟨rfl, by decide⟩
  | some s =>
      have hle : s.bytesZ.length ≤ 64 := s.bytesZ_length ▸ h s rfl
      have hstored : storedName (some s) =
          s.bytes ++ 0 :: (List.replicate 64 0).drop (0 + s.bytesZ.length) := by
        rw [storedName, Option.elim_some, List.take_of_length_le hle, overwrite, List.take_zero,
          List.nil_append, CString.bytesZ, List.append_assoc]
        rfl
      rw [hstored]
      refine ⟨?_, by simp⟩
      have hs : ∀ b ∈ s.bytes, decide (b ≠ 0) = true := fun b hb => by
        simpa using fun heq : b = 0 => s.noNul (heq ▸ hb)
      have hbytes : (s.bytes ++ 0 :: (List.replicate 64 0).drop (0 + s.bytesZ.length)).takeWhile
          (· ≠ 0) = s.bytes := by
        rw [List.takeWhile_append_of_pos hs, List.takeWhile_cons_of_neg (by simp),
          List.append_nil]
      cases s
      simp only [CString.ofBuf, Option.getD_some, CString.mk.injEq]
      exact hbytes

theorem max_lt_two_pow (f : FieldName) : (fields f).type.max ≤ ULONG_MAX := by
  cases f <;> decide

/-- A number that is stored is the one of the value. -/
theorem storedNumber_le {f : FieldName} {value : Option CString}
    (h : ∀ s ∈ value, FieldTakes f s) : storedNumber f value ≤ (fields f).type.max := by
  by_cases hf : (fields f).type = .string
  · rw [storedNumber, hf]
    exact Nat.zero_le _
  · have hnumber : storedNumber f value = value.elim 0 fun s => (strtoul s).1 := by
      rw [storedNumber]
      split
      · exact absurd ‹_› hf
      · rfl
    rw [hnumber]
    cases value with
    | none => exact Nat.zero_le _
    | some s =>
        have hin := (fieldTakes_iff_of_numeric hf s).mp (h s rfl)
        exact not_lt.mp fun hlt => hin (Or.inl hlt)

theorem headerData_headerOf (values : FieldValues) (f : FieldName) :
    headerData (headerOf values) f =
      match (fields f).type with
      | .string => .str (CString.ofBuf (storedName (values f)))
      | type => numberData type (storedNumber f (values f)) := by
  cases f <;> rfl

/-- What is loaded after accepted values were committed. -/
theorem text_headerOf {values : FieldValues} (h : AllTaken values) (f : FieldName) :
    (headerData (headerOf values) f).text = loadedText f (values f) := by
  have hle := storedNumber_le (h f)
  have htakes := h f
  rw [headerData_headerOf, loadedText]
  rw [storedNumber] at hle ⊢
  cases htype : (fields f).type with
  | string =>
      have hshort : ∀ s ∈ values f, s.strlen < 64 := fun s hs => by
        have hs' := htakes s hs
        rw [FieldTakes, htype] at hs'
        exact hs'
      exact (ofBuf_storedName hshort).1
  | u32 =>
      rw [htype] at hle
      have hu32 : FieldType.u32 ≠ .string := by decide
      exact congrArg hexString (numberData_number hu32 hle)
  | u64 =>
      rw [htype] at hle
      have hu64 : FieldType.u64 ≠ .string := by decide
      exact congrArg hexString (numberData_number hu64 hle)

/-- The list of a content is what libnvram makes of the texts of the header in it. -/
theorem platformList_eq {crc32 : Bytes → UInt32} {lib : Libnvram} (hset : lib.SetsInPlace)
    {content : Bytes} {header : PlatformHeader}
    (hparse : parseHeader crc32 (content.take PLATFORM_HEADER_SIZE) = some header)
    (hversion : header.hdrVersion = 0) :
    platformList crc32 lib content = some ((headerTexts header).map textEntry) := by
  have hsize : PLATFORM_HEADER_SIZE ≤ content.length := by
    have hlength : (content.take PLATFORM_HEADER_SIZE).length = PLATFORM_HEADER_SIZE := by
      by_contra hno
      rw [parseHeader, dif_neg hno] at hparse
      cases hparse
    rw [List.length_take] at hlength
    omega
  have hput : lib.listSet = fun list entry => Keyed.put Entry.key entry list :=
    funext fun list => funext fun entry => hset list entry
  have hdistinct : Keyed.Distinct Entry.key ([] ++ (headerTexts header).map textEntry) :=
    distinct_tableTexts _
  rw [platformList, if_pos hsize, hparse]
  dsimp only
  rw [if_pos hversion, hput]
  exact congrArg some (Keyed.foldl_put_append hdistinct)

/-- The block of accepted values is loaded as their canonical texts. -/
theorem platformList_headerOf (crc32 : Bytes → UInt32) {lib : Libnvram} (hset : lib.SetsInPlace)
    {values : FieldValues} (h : AllTaken values) :
    platformList crc32 lib (serializeHeader crc32 (headerOf values)) =
      some ((tableTexts fun f => loadedText f (values f)).map textEntry) := by
  have hname : (0 : UInt8) ∈ (headerOf values).name := (ofBuf_storedName (h .name)).2
  have htake : (serializeHeader crc32 (headerOf values)).take PLATFORM_HEADER_SIZE =
      serializeHeader crc32 (headerOf values) :=
    List.take_of_length_le (serializeHeader_length crc32 _).le
  have hparse : parseHeader crc32
      ((serializeHeader crc32 (headerOf values)).take PLATFORM_HEADER_SIZE) =
        some ((headerOf values).stored crc32) := by
    rw [htake]
    exact parseHeader_serializeHeader crc32 ⟨rfl, hname⟩
  have htexts : headerTexts ((headerOf values).stored crc32) =
      tableTexts fun f => loadedText f (values f) := by
    refine List.map_congr_left fun f _ => ?_
    rw [headerData_stored, text_headerOf h]
  rw [platformList_eq hset hparse rfl, htexts]

/-! ### Canonical texts -/

/-- A text of a number is taken, and is its own canonical text. -/
theorem fieldTakes_hexString {f : FieldName} (hf : (fields f).type ≠ .string) {n : ℕ}
    (h : n ≤ (fields f).type.max) :
    FieldTakes f (hexString n) ∧ loadedText f (some (hexString n)) = hexString n ∧
      storedNumber f (some (hexString n)) = n := by
  have hstrtoul := strtoul_hexString (h.trans (max_lt_two_pow f))
  have hnumber : storedNumber f (some (hexString n)) = n := by
    rw [storedNumber]
    split
    · exact absurd ‹_› hf
    · rw [Option.elim_some, hstrtoul]
  refine ⟨?_, ?_, hnumber⟩
  · rw [fieldTakes_iff_of_numeric hf, OutOfRange, hstrtoul]
    simpa using h
  · rw [loadedText]
    split
    · exact absurd ‹_› hf
    · rw [Option.elim_some, hstrtoul]

/-- The texts of a loaded header are canonical. -/
theorem loadedText_text (header : PlatformHeader) (f : FieldName) :
    loadedText f (some (headerData header f).text) = (headerData header f).text := by
  by_cases hf : (fields f).type = .string
  · rw [loadedText, hf]
    rfl
  · have hnumber : ∃ n, n ≤ (fields f).type.max ∧ (headerData header f).text = hexString n := by
      have hdata := headerData_type header f
      cases hmember : headerData header f with
      | u32 v =>
          rw [hmember] at hdata
          have hlt := v.toNat_lt
          exact ⟨v.toNat, by rw [← hdata]; exact Nat.le_sub_one_of_lt hlt, rfl⟩
      | u64 v =>
          rw [hmember] at hdata
          have hlt := v.toNat_lt
          exact ⟨v.toNat, by rw [← hdata]; exact Nat.le_sub_one_of_lt hlt, rfl⟩
      | str s =>
          rw [hmember] at hdata
          exact absurd hdata.symm hf
    obtain ⟨n, hle, hn⟩ := hnumber
    rw [hn]
    exact (fieldTakes_hexString hf hle).2.1

/-- The canonical text of an accepted value is accepted, and is stored as the value is. -/
theorem fieldTakes_loadedText {values : FieldValues} (h : AllTaken values) (f : FieldName) :
    FieldTakes f (loadedText f (values f)) ∧
      storedNumber f (some (loadedText f (values f))) = storedNumber f (values f) := by
  by_cases hf : (fields f).type = .string
  · have htakes := h f
    rw [loadedText, storedNumber, storedNumber, hf]
    refine ⟨?_, rfl⟩
    cases hvalue : values f with
    | none =>
        rw [FieldTakes, hf]
        decide
    | some s => exact htakes s hvalue
  · have hle := storedNumber_le (h f)
    have hloaded : loadedText f (values f) = hexString (storedNumber f (values f)) := by
      rw [loadedText, storedNumber]
      split
      · exact absurd ‹_› hf
      · rfl
    obtain ⟨htakes, -, hnumber⟩ := fieldTakes_hexString hf hle
    rw [hloaded]
    exact ⟨htakes, hnumber⟩

/-- Loading and committing again gives the same header. -/
theorem headerOf_loadedText {values : FieldValues} (h : AllTaken values) :
    (headerOf fun f => some (loadedText f (values f))) = headerOf values := by
  refine headerOf_congr ?_ fun f => (fieldTakes_loadedText h f).2
  cases hvalue : values .name with
  | none => rfl
  | some s => rfl

/-! ### On regular files -/

section

variable (crc32 : Bytes → UInt32) (lib : Libnvram) (gpio : Option CString)
  (fill : (n : ℕ) → {buf : Bytes // buf.length = n})

/-- `platform_init` of the file at a path. -/
abbrev initOnFile (path : CString) (sectionB : Option CString) (m : Machine FileSystem) :
    Except Errno (SingleNvram × List Entry) × Machine FileSystem :=
  run (fileMachine lib gpio fill) (platformInit crc32 writableBuild .file (some path) sectionB) m

/-- `platform_commit` of a list to a handle. -/
abbrev commitOnFile (nvram : SingleNvram) (list : List Entry) (m : Machine FileSystem) :
    Except Errno Unit × Machine FileSystem :=
  run (fileMachine lib gpio fill) (platformCommit crc32 writableBuild nvram list) m

/-- A handle of the file at a path. -/
def OnFile (path : CString) (nvram : SingleNvram) : Prop :=
  nvram.interface = .file ∧ ∃ priv, nvram.interfacePriv = some priv ∧ priv.path = path

variable {path : CString}

variable {lib} in
theorem initOnFile_eq (hpath : 0 < path.strlen) {sectionB : Option CString}
    (hB : emptySection sectionB) (m : Machine FileSystem) {list : List Entry}
    (hlist : platformList crc32 lib (m.sys.content path) = some list) :
    ∃ nvram m', initOnFile crc32 lib gpio fill path sectionB m = (.ok (nvram, list), m') ∧
      OnFile path nvram ∧ m'.sys.content = m.sys.content := by
  obtain ⟨r, m', hrun, hresult, hsame⟩ :=
    (fileMachine.healthy lib gpio fill).run_platformInit crc32 writableBuild (some path) sectionB
      (fun _ _ => trivial) m
  have hsection : legacySection (some path) sectionB = some path := by
    rw [legacySection, if_pos hB, configured, if_pos hpath]
  have hview : ((fileMachine.healthy lib gpio fill).view m).contents path = m.sys.content path :=
    rfl
  rw [SingleResult, hsection] at hresult
  dsimp only at hresult
  rw [hview, hlist] at hresult
  obtain ⟨nvram, rfl, hopen⟩ := hresult
  obtain ⟨priv, hpriv, hat, -⟩ := hopen.priv
  exact ⟨nvram, m', hrun, ⟨hopen.interface, priv, hpriv, hat⟩, hsame.1⟩

theorem commitOnFile_eq {nvram : SingleNvram} (hnvram : OnFile path nvram) (list : List Entry)
    (m : Machine FileSystem) :
    ∃ r m', commitOnFile crc32 lib gpio fill nvram list m = (r, m') ∧
      match headerOfList false (startHeader writableBuild) list with
      | .error _ => ∃ e, r = .error e
      | .ok header => r = .ok () ∧ m'.sys.content path = serializeHeader crc32 header := by
  obtain ⟨hinterface, priv, hpriv, hat⟩ := hnvram
  have hopen : nvram.OpenOn ((fileMachine.healthy lib gpio fill).view m) .file path :=
    ⟨hinterface, priv, hpriv, hat, trivial⟩
  have hallow : writableBuild.allowWrite = true := rfl
  have herrno : ∀ s, (fileMachine lib gpio fill .errnoIsErange s).1 = false := fun _ => rfl
  obtain ⟨r, m', hrun, hresult⟩ :=
    (fileMachine.healthy lib gpio fill).run_platformCommit crc32 hallow herrno hopen
      (fun _ _ => trivial) list m
  refine ⟨r, m', hrun, ?_⟩
  cases hheader : headerOfList false (startHeader writableBuild) list with
  | error e =>
      rw [hheader] at hresult
      exact hresult.1
  | ok header =>
      rw [hheader] at hresult
      obtain ⟨hok, hcontents⟩ := hresult
      refine ⟨hok.mpr trivial, ?_⟩
      have hpathContent := congrFun hcontents path
      rw [Healthy.storeAt, Function.update_self] at hpathContent
      exact hpathContent

variable {lib} in
/-- A commit of distinct texts that returns 0 leaves the block of their values. -/
theorem commitOnFile_texts {nvram : SingleNvram} (hnvram : OnFile path nvram)
    {texts : List (CString × CString)} (hdistinct : (texts.map Prod.fst).Nodup)
    {m m' : Machine FileSystem}
    (hrun : commitOnFile crc32 lib gpio fill nvram (texts.map textEntry) m = (.ok (), m')) :
    TextsAccepted texts ∧
      m'.sys.content path = serializeHeader crc32 (headerOf (valuesIn texts)) := by
  obtain ⟨r, m₁, hrun₁, hresult⟩ :=
    commitOnFile_eq crc32 lib gpio fill hnvram (texts.map textEntry) m
  obtain ⟨rfl, rfl⟩ := Prod.mk.inj (hrun₁.symm.trans hrun)
  cases hheader : headerOfList false (startHeader writableBuild) (texts.map textEntry) with
  | error e =>
      rw [hheader] at hresult
      obtain ⟨e, he⟩ := hresult
      cases he
  | ok header =>
      rw [hheader] at hresult
      rw [← headerOf_none] at hheader
      obtain ⟨haccepted, rfl⟩ :=
        (headerOfList_texts hdistinct (fun _ _ _ _ => rfl) header).mp hheader
      have hvalues : (fun f => (valuesIn texts f).or none) = valuesIn texts :=
        funext fun f => Option.or_none
      rw [hvalues] at hresult
      exact ⟨haccepted, hresult.2⟩

/-- A table of accepted texts is committed. -/
theorem commitOnFile_table {nvram : SingleNvram} (hnvram : OnFile path nvram)
    {text : FieldName → CString} (h : ∀ f, FieldTakes f (text f)) (m : Machine FileSystem) :
    ∃ m', commitOnFile crc32 lib gpio fill nvram ((tableTexts text).map textEntry) m =
        (.ok (), m') ∧
      m'.sys.content path = serializeHeader crc32 (headerOf fun f => some (text f)) := by
  obtain ⟨r, m', hrun, hresult⟩ :=
    commitOnFile_eq crc32 lib gpio fill hnvram ((tableTexts text).map textEntry) m
  rw [headerOfList_tableTexts h] at hresult
  obtain ⟨rfl, hcontent⟩ := hresult
  exact ⟨m', hrun, hcontent⟩

variable {lib} in
/-- Every list of distinct texts that is committed is loaded in canonical form, and the
canonical form is committed to the same block.  From any valid block of version 0, setting one
field to a value that is committed leaves the texts of the others. -/
theorem platform_list_round_trip (hset : lib.SetsInPlace) (hpath : 0 < path.strlen)
    {sectionB : Option CString} (hB : emptySection sectionB) :
    (∀ (texts : List (CString × CString)), (texts.map Prod.fst).Nodup →
      ∀ nvram, OnFile path nvram → ∀ m m₁,
        commitOnFile crc32 lib gpio fill nvram (texts.map textEntry) m = (.ok (), m₁) →
      let loaded := (tableTexts fun f => loadedText f (valuesIn texts f)).map textEntry
      ∃ nvram' m₂ m₃, initOnFile crc32 lib gpio fill path sectionB m₁ =
          (.ok (nvram', loaded), m₂) ∧
        commitOnFile crc32 lib gpio fill nvram' loaded m₂ = (.ok (), m₃) ∧
        (m₁.sys.content path).length = 1024 ∧ m₃.sys.content path = m₁.sys.content path) ∧
    (∀ (m : Machine FileSystem) (header : PlatformHeader),
      parseHeader crc32 ((m.sys.content path).take 1024) = some header → header.hdrVersion = 0 →
      ∃ nvram list m₁,
        initOnFile crc32 lib gpio fill path sectionB m = (.ok (nvram, list), m₁) ∧
        ∀ f value m₂, commitOnFile crc32 lib gpio fill nvram
            (lib.listSet list (textEntry ((fields f).key, value))) m₁ = (.ok (), m₂) →
          ∃ nvram' list' m₃,
            initOnFile crc32 lib gpio fill path sectionB m₂ = (.ok (nvram', list'), m₃) ∧
            ∀ g, g ≠ f → ∃ entry, Keyed.get Entry.key list (fields g).key.bytesZ = some entry ∧
              Keyed.get Entry.key list' (fields g).key.bytesZ = some entry) := by
  refine ⟨?_, ?_⟩
  · intro texts hdistinct nvram hnvram m m₁ hcommit
    obtain ⟨haccepted, hcontent⟩ := commitOnFile_texts crc32 gpio fill hnvram hdistinct hcommit
    have hvalues := allTaken_valuesIn haccepted
    have hlist := platformList_headerOf crc32 hset hvalues
    rw [← hcontent] at hlist
    obtain ⟨nvram', m₂, hinit, hnvram', -⟩ := initOnFile_eq crc32 gpio fill hpath hB m₁ hlist
    obtain ⟨m₃, hagain, hcontent₃⟩ := commitOnFile_table crc32 lib gpio fill hnvram'
      (fun f => (fieldTakes_loadedText hvalues f).1) m₂
    refine ⟨nvram', m₂, m₃, hinit, hagain, ?_, ?_⟩
    · rw [hcontent]
      exact serializeHeader_length crc32 _
    · rw [hcontent₃, headerOf_loadedText hvalues, hcontent]
  · intro m header hparse hversion
    have hlist := platformList_eq hset hparse hversion
    obtain ⟨nvram, m₁, hinit, hnvram, -⟩ := initOnFile_eq crc32 gpio fill hpath hB m hlist
    refine ⟨nvram, _, m₁, hinit, fun f value m₂ hcommit => ?_⟩
    have htexts : headerTexts header = tableTexts fun g => (headerData header g).text := rfl
    rw [hset, htexts, put_tableTexts] at hcommit
    obtain ⟨haccepted, hcontent⟩ :=
      commitOnFile_texts crc32 gpio fill hnvram (tableTexts_nodup _) hcommit
    have hloaded := platformList_headerOf crc32 hset (allTaken_valuesIn haccepted)
    rw [← hcontent] at hloaded
    obtain ⟨nvram', m₃, hinit', -, -⟩ := initOnFile_eq crc32 gpio fill hpath hB m₂ hloaded
    refine ⟨nvram', _, m₃, hinit', fun g hg => ⟨_, get_tableTexts _ g, ?_⟩⟩
    rw [get_tableTexts, valuesIn_tableTexts]
    dsimp only
    rw [Function.update_of_ne hg, loadedText_text]

end

/-- A number and the name. -/
def sampleTexts : List (CString × CString) :=
  [(lit "config1", lit "16"), (lit "name", lit "board")]

/-- They are committed to an empty file system and loaded; then another number is set. -/
theorem platform_list_round_trip_sample :
    ∃ m₁ nvram list m₂ m₃ list',
      commitOnFile zlibCrc32 plainLibnvram none zeros ⟨.file, some ⟨lit "p", ⟨0, none, none⟩⟩⟩
        (sampleTexts.map textEntry) noFiles = (.ok (), m₁) ∧
      initOnFile zlibCrc32 plainLibnvram none zeros (lit "p") none m₁ = (.ok (nvram, list), m₂) ∧
      list.length = 11 ∧ textEntry (lit "config1", lit "0x10") ∈ list ∧
      commitOnFile zlibCrc32 plainLibnvram none zeros nvram
        (plainLibnvram.listSet list (textEntry (lit "config2", lit "010"))) m₂ = (.ok (), m₃) ∧
      (∃ nvram' m₄, initOnFile zlibCrc32 plainLibnvram none zeros (lit "p") none m₃ =
        (.ok (nvram', list'), m₄)) ∧
      Keyed.get Entry.key list' (lit "config1").bytesZ =
        some (textEntry (lit "config1", lit "0x10")) ∧
      Keyed.get Entry.key list' (lit "name").bytesZ =
        some (textEntry (lit "name", lit "board")) := by
  have hset : plainLibnvram.SetsInPlace := fun _ _ => rfl
  have hpath : 0 < (lit "p").strlen := by decide
  have hB : emptySection none = true := rfl
  have hnvram : OnFile (lit "p") ⟨.file, some ⟨lit "p", ⟨0, none, none⟩⟩⟩ := ⟨rfl, _, rfl, rfl⟩
  have hdistinct : (sampleTexts.map Prod.fst).Nodup := by decide
  obtain ⟨htables, hfields⟩ := platform_list_round_trip zlibCrc32 none zeros hset hpath hB
  have hcommit : (commitOnFile zlibCrc32 plainLibnvram none zeros
      ⟨.file, some ⟨lit "p", ⟨0, none, none⟩⟩⟩ (sampleTexts.map textEntry) noFiles).1 = .ok () := by
    decide +kernel
  generalize hrun : commitOnFile zlibCrc32 plainLibnvram none zeros
    ⟨.file, some ⟨lit "p", ⟨0, none, none⟩⟩⟩ (sampleTexts.map textEntry) noFiles = done at hcommit
  obtain ⟨r, m₁⟩ := done
  obtain rfl : r = .ok () := hcommit
  obtain ⟨_, _, -, hinit, -⟩ := htables sampleTexts hdistinct _ hnvram noFiles m₁ hrun
  -- the other half, from the block that was committed
  obtain ⟨haccepted, hcontent⟩ := commitOnFile_texts zlibCrc32 none zeros hnvram hdistinct hrun
  have hvalues := allTaken_valuesIn haccepted
  have hparse : parseHeader zlibCrc32 ((m₁.sys.content (lit "p")).take 1024) =
      some ((headerOf (valuesIn sampleTexts)).stored zlibCrc32) := by
    have hlength : (serializeHeader zlibCrc32 (headerOf (valuesIn sampleTexts))).length = 1024 :=
      serializeHeader_length zlibCrc32 _
    rw [hcontent, List.take_of_length_le hlength.le]
    exact parseHeader_serializeHeader zlibCrc32 ⟨rfl, (ofBuf_storedName (by decide)).2⟩
  obtain ⟨_, list, m₂, hinit₂, hfields⟩ := hfields m₁ _ hparse rfl
  obtain ⟨hok, rfl⟩ := Prod.mk.inj (hinit₂.symm.trans hinit)
  obtain ⟨rfl, rfl⟩ := Prod.mk.inj (Except.ok.inj hok)
  have hlist := platformList_headerOf zlibCrc32 hset hvalues
  rw [← hcontent] at hlist
  obtain ⟨nvram, _, hinit₃, hnvram', -⟩ := initOnFile_eq zlibCrc32 none zeros hpath hB m₁ hlist
  obtain ⟨hok, -⟩ := Prod.mk.inj (hinit₃.symm.trans hinit)
  obtain ⟨rfl, -⟩ := Prod.mk.inj (Except.ok.inj hok)
  have htakes : ∀ f, FieldTakes f (Function.update
      (fun g => loadedText g (valuesIn sampleTexts g)) .config2 (lit "010") f) := by
    intro f
    by_cases hf : f = .config2
    · subst hf
      rw [Function.update_self, fieldTakes_iff_of_numeric (by decide)]
      decide
    · rw [Function.update_of_ne hf]
      exact (fieldTakes_loadedText hvalues f).1
  obtain ⟨m₃, hcommit₂, -⟩ := commitOnFile_table zlibCrc32 plainLibnvram none zeros hnvram' htakes m₂
  rw [← put_tableTexts] at hcommit₂
  obtain ⟨nvram', list', m₄, hinit₄, hothers⟩ := hfields .config2 (lit "010") m₃ hcommit₂
  refine ⟨m₁, _, _, m₂, m₃, list', rfl, hinit, by decide +kernel, by decide +kernel, hcommit₂,
    ⟨nvram', m₄, hinit₄⟩, ?_, ?_⟩
  · obtain ⟨entry, hold, hnew⟩ := hothers .config1 (by decide)
    refine hnew.trans (hold.symm.trans ?_)
    decide +kernel
  · obtain ⟨entry, hold, hnew⟩ := hothers .name (by decide)
    refine hnew.trans (hold.symm.trans ?_)
    decide +kernel

end Nvram
