import Nvram.Platform.Numerals

/-!
# The ambient `errno` in `list_to_header`

`value_to_header` takes the greatest value of `strtoull` for an overflow when `errno` is
`ERANGE`, and nothing sets `errno` to 0 before the call.  So a field that holds `2^64-1` is
taken or refused as earlier calls of the process have left `errno`; everything else is not.
-/

namespace Nvram

open Effects Errno

def ERANGE : ℕ := 34

/-- The field that the key of an entry names. -/
def entryField (entry : Entry) : Option FieldName :=
  version0Fields.find? fun f => strncmpEq (fields f).key entry.key

/-- A value that the field takes while `errno` is clear. -/
def ValueTaken (f : FieldName) (value : Bytes) : Prop :=
  value.getLast? = some 0 ∧
    ((fields f).type = .string → value.length ≤ 64) ∧
    ((fields f).type ≠ .string → ¬ OutOfRange false (fields f).type (CString.ofBuf value))

/-- An entry that `list_to_header` takes while `errno` is clear. -/
def EntryTaken (entry : Entry) : Prop := ∃ f, entryField entry = some f ∧ ValueTaken f entry.value

/-- A 64-bit field with the greatest value, which is no overflow. -/
def AtMaximum (entry : Entry) : Prop :=
  ∃ f, entryField entry = some f ∧ (fields f).type = .u64 ∧
    (strtoul (CString.ofBuf entry.value)).1 = ULONG_MAX ∧
    (strtoul (CString.ofBuf entry.value)).2.2 = false

/-- No entry with the greatest value in a list that is taken as a whole while `errno` is
clear. -/
def ErrnoFree (build : PlatformBuild) (list : List Entry) : Prop :=
  build.version = 0 → (∀ entry ∈ list, EntryTaken entry) → ∀ entry ∈ list, ¬ AtMaximum entry

/-! ### One value -/

/-- For a 32-bit field the greatest value of `strtoul` is out of range anyway. -/
theorem outOfRange_errno {type : FieldType} (htype : type ≠ .string) (s : CString) :
    OutOfRange true type s ↔ OutOfRange false type s ∨
      type = .u64 ∧ (strtoul s).1 = ULONG_MAX ∧ (strtoul s).2.2 = false := by
  unfold OutOfRange
  rw [Bool.true_or, Bool.false_or]
  cases type with
  | string => exact absurd rfl htype
  | u32 =>
      have hmax : FieldType.max .u32 < ULONG_MAX := by decide
      constructor
      · intro h
        rcases h with hlt | ⟨heq, -⟩
        · exact .inl (.inl hlt)
        · exact .inl (.inl (heq ▸ hmax))
      · intro h
        rcases h with (hlt | ⟨heq, -⟩) | ⟨hne, -⟩
        · exact .inl hlt
        · exact .inl (heq ▸ hmax)
        · cases hne
  | u64 =>
      constructor
      · intro h
        rcases h with hlt | ⟨heq, -⟩
        · exact .inl (.inl hlt)
        · cases hflow : (strtoul s).2.2 with
          | true => exact .inl (.inr ⟨heq, rfl⟩)
          | false => exact .inr ⟨rfl, heq, rfl⟩
      · intro h
        rcases h with (hlt | ⟨heq, -⟩) | ⟨-, heq, -⟩
        · exact .inl hlt
        · exact .inr ⟨heq, rfl⟩
        · exact .inr ⟨heq, rfl⟩

/-- The number of a numeric field is stored, and the version of the header stays. -/
theorem storeData_numeric {f : FieldName} (hf : (fields f).type ≠ .string)
    (header : PlatformHeader) (value : Bytes) (n : ℕ) :
    ∃ new, storeData header f value (numberData (fields f).type n) = .ok new ∧
      new.hdrVersion = header.hdrVersion := by
  cases f with
  | name => exact absurd rfl hf
  | _ => exact ⟨_, rfl, rfl⟩

theorem storeData_name {value : Bytes} (h : value.length ≤ 64) (header : PlatformHeader)
    (s : CString) :
    ∃ new, storeData header .name value (.str s) = .ok new ∧
      new.hdrVersion = header.hdrVersion := by
  unfold storeData
  dsimp only
  rw [dif_pos h]
  exact ⟨_, rfl, rfl⟩

/-- A value that no errno saves is refused with `-EINVAL`. -/
theorem valueToHeader_refused {f : FieldName} {entry : Entry} (h : ¬ ValueTaken f entry.value)
    (erange : Bool) (header : PlatformHeader) :
    ∃ msg er, valueToHeader erange header f (fields f) entry = (.error (einval, msg), er) := by
  unfold valueToHeader
  by_cases hend : entry.value.getLast? = some 0
  · rw [if_neg (not_not.mpr hend)]
    by_cases hf : (fields f).type = .string
    · obtain rfl : f = .name := by
        cases f with
        | name => rfl
        | _ => cases hf
      have hlong : ¬ entry.value.length ≤ 64 := by
        intro hle
        exact h ⟨hend, fun _ => hle, fun hne => absurd hf hne⟩
      have hstore : storeData header .name entry.value (.str (CString.ofBuf entry.value)) =
          .error (einval, some "field id [%d] with key \"%s\" too long value\n") := by
        rw [storeData, dif_neg hlong]
      exact ⟨_, erange, congrArg (·, erange) hstore⟩
    · have hout : OutOfRange erange (fields f).type (CString.ofBuf entry.value) := by
        by_contra hin
        refine h ⟨hend, fun hstring => absurd hstring hf, fun _ hfalse => hin ?_⟩
        cases erange with
        | false => exact hfalse
        | true => exact (outOfRange_errno hf _).mpr (.inl hfalse)
      obtain ⟨msg, er, hconvert⟩ := (convertValue_numeric hf erange entry.value).1 hout
      rw [hconvert]
      exact ⟨_, _, rfl⟩
  · rw [if_pos hend]
    exact ⟨_, _, rfl⟩

/-- A value that is taken gives one header, whatever `errno` is where it is taken. -/
theorem valueToHeader_taken {f : FieldName} {entry : Entry} (h : ValueTaken f entry.value)
    (header : PlatformHeader) :
    ∃ new, new.hdrVersion = header.hdrVersion ∧
      ∀ erange, ((fields f).type ≠ .string →
          ¬ OutOfRange erange (fields f).type (CString.ofBuf entry.value)) →
        valueToHeader erange header f (fields f) entry = (.ok new, erange) := by
  obtain ⟨hend, hshort, hin⟩ := h
  by_cases hf : (fields f).type = .string
  · obtain rfl : f = .name := by
      cases f with
      | name => rfl
      | _ => cases hf
    obtain ⟨new, hstore, hversion⟩ :=
      storeData_name (hshort hf) header (CString.ofBuf entry.value)
    refine ⟨new, hversion, fun erange _ => ?_⟩
    rw [valueToHeader, if_neg (not_not.mpr hend)]
    exact congrArg (·, erange) hstore
  · obtain ⟨new, hstore, hversion⟩ := storeData_numeric hf header entry.value
      (strtoul (CString.ofBuf entry.value)).1
    refine ⟨new, hversion, fun erange hrange => ?_⟩
    rw [valueToHeader, if_neg (not_not.mpr hend),
      (convertValue_numeric hf erange entry.value).2 (hrange hf)]
    exact congrArg (·, erange) hstore

/-! ### One entry -/

theorem entryHeader_refused {entry : Entry} (h : ¬ EntryTaken entry) (erange : Bool)
    (header : PlatformHeader) : entryHeader erange header entry = .error einval := by
  unfold entryHeader
  rw [listToHeaderVersionIterator_eq]
  cases hfield : version0Fields.find? (fun f => strncmpEq (fields f).key entry.key) with
  | none => rfl
  | some f =>
      have hvalue : ¬ ValueTaken f entry.value := fun htaken => h ⟨f, hfield, htaken⟩
      obtain ⟨msg, er, hrefused⟩ := valueToHeader_refused hvalue erange header
      rw [Option.map_some, hrefused]

/-- An entry that is taken while `errno` is clear: at the maximum it is refused with `ERANGE`,
and elsewhere `errno` makes no difference. -/
theorem entryHeader_taken {entry : Entry} (h : EntryTaken entry) (header : PlatformHeader) :
    ∃ new, new.hdrVersion = header.hdrVersion ∧
      entryHeader false header entry = .ok (new, false) ∧
      (AtMaximum entry → entryHeader true header entry = .error einval) ∧
      (¬ AtMaximum entry → entryHeader true header entry = .ok (new, true)) := by
  obtain ⟨f, hfield, htaken⟩ := h
  have hfind : version0Fields.find? (fun f => strncmpEq (fields f).key entry.key) = some f := hfield
  obtain ⟨new, hversion, hstore⟩ := valueToHeader_taken htaken header
  refine ⟨new, hversion, ?_, ?_, ?_⟩
  · unfold entryHeader
    rw [listToHeaderVersionIterator_eq, hfind, Option.map_some, hstore false htaken.2.2]
  · intro hmax
    obtain ⟨g, hg, htype, hvalue, hflow⟩ := hmax
    obtain rfl : f = g := Option.some.inj (hfield.symm.trans hg)
    have hf : (fields f).type ≠ .string := by
      rw [htype]
      decide
    have hout : OutOfRange true (fields f).type (CString.ofBuf entry.value) :=
      (outOfRange_errno hf _).mpr (.inr ⟨htype, hvalue, hflow⟩)
    obtain ⟨msg, er, hconvert⟩ := (convertValue_numeric hf true entry.value).1 hout
    unfold entryHeader
    rw [listToHeaderVersionIterator_eq, hfind, Option.map_some, valueToHeader,
      if_neg (not_not.mpr htaken.1), hconvert]
  · intro hmax
    have hin : (fields f).type ≠ .string →
        ¬ OutOfRange true (fields f).type (CString.ofBuf entry.value) := by
      intro hf hout
      rcases (outOfRange_errno hf _).mp hout with hfalse | ⟨htype, hvalue, hflow⟩
      · exact htaken.2.2 hf hfalse
      · exact hmax ⟨f, hfield, htype, hvalue, hflow⟩
    unfold entryHeader
    rw [listToHeaderVersionIterator_eq, hfind, Option.map_some, hstore true hin]

/-! ### The whole list -/

/-- A list with an entry that is refused, or of another version, gives `-EINVAL`. -/
theorem headerOfList_untaken {list : List Entry} {header : PlatformHeader}
    (h : list ≠ [] ∧ header.hdrVersion ≠ 0 ∨ ∃ entry ∈ list, ¬ EntryTaken entry)
    (erange : Bool) : headerOfList erange header list = .error einval := by
  induction list generalizing header erange with
  | nil =>
      rcases h with ⟨hnil, -⟩ | ⟨entry, hmem, -⟩
      · exact absurd rfl hnil
      · cases hmem
  | cons first list ih =>
      rw [headerOfList]
      by_cases hversion : header.hdrVersion = 0
      · rw [if_pos hversion]
        obtain ⟨entry, hmem, hentry⟩ : ∃ entry ∈ first :: list, ¬ EntryTaken entry := by
          rcases h with ⟨-, hne⟩ | hex
          · exact absurd hversion hne
          · exact hex
        by_cases hfirst : EntryTaken first
        · have hrest : ∃ entry ∈ list, ¬ EntryTaken entry := by
            rcases List.mem_cons.mp hmem with rfl | hmem
            · exact absurd hfirst hentry
            · exact ⟨entry, hmem, hentry⟩
          obtain ⟨new, -, hfalse, hmax, hnot⟩ := entryHeader_taken hfirst header
          cases erange with
          | false =>
              rw [hfalse]
              exact ih (.inr hrest) false
          | true =>
              by_cases hat : AtMaximum first
              · rw [hmax hat]
              · rw [hnot hat]
                exact ih (.inr hrest) true
        · rw [entryHeader_refused hfirst]
      · rw [if_neg hversion]

/-- A list that is taken while `errno` is clear gives the same header with `ERANGE` if no entry
is at the maximum, and `-EINVAL` otherwise. -/
theorem headerOfList_taken {list : List Entry} (h : ∀ entry ∈ list, EntryTaken entry)
    {header : PlatformHeader} (hversion : header.hdrVersion = 0) :
    ∃ new, headerOfList false header list = .ok new ∧
      ((∀ entry ∈ list, ¬ AtMaximum entry) → headerOfList true header list = .ok new) ∧
      ((∃ entry ∈ list, AtMaximum entry) → headerOfList true header list = .error einval) := by
  induction list generalizing header with
  | nil =>
      refine ⟨header, rfl, fun _ => rfl, ?_⟩
      intro hex
      obtain ⟨entry, hmem, -⟩ := hex
      cases hmem
  | cons first list ih =>
      obtain ⟨mid, hmid, hfalse, hmax, hnot⟩ := entryHeader_taken (h first List.mem_cons_self) header
      obtain ⟨new, hok, hclear, hat⟩ :=
        ih (fun entry hmem => h entry (List.mem_cons_of_mem _ hmem)) (hmid.trans hversion)
      refine ⟨new, ?_, ?_, ?_⟩
      · rw [headerOfList, if_pos hversion, hfalse]
        exact hok
      · intro hall
        rw [headerOfList, if_pos hversion, hnot (hall first List.mem_cons_self)]
        exact hclear fun entry hmem => hall entry (List.mem_cons_of_mem _ hmem)
      · intro hex
        obtain ⟨entry, hmem, hentry⟩ := hex
        rw [headerOfList, if_pos hversion]
        by_cases hfirst : AtMaximum first
        · rw [hmax hfirst]
        · rw [hnot hfirst]
          rcases List.mem_cons.mp hmem with rfl | hmem
          · exact absurd hentry hfirst
          · exact hat ⟨entry, hmem, hentry⟩

theorem headerOfList_errno_iff (build : PlatformBuild) (list : List Entry) :
    headerOfList true (startHeader build) list = headerOfList false (startHeader build) list ↔
      ErrnoFree build list := by
  have hstart : (startHeader build).hdrVersion = build.version := rfl
  constructor
  · intro hsame hversion htaken entry hmem hmax
    obtain ⟨new, hok, -, hat⟩ := headerOfList_taken htaken (hstart.trans hversion)
    rw [hok, hat ⟨entry, hmem, hmax⟩] at hsame
    cases hsame
  · intro hfree
    by_cases hgood : build.version = 0 ∧ ∀ entry ∈ list, EntryTaken entry
    · obtain ⟨hversion, htaken⟩ := hgood
      obtain ⟨new, hok, hclear, -⟩ := headerOfList_taken htaken (hstart.trans hversion)
      rw [hok, hclear (hfree hversion htaken)]
    · by_cases hnil : list = []
      · rw [hnil]
        rfl
      · have hbad : list ≠ [] ∧ (startHeader build).hdrVersion ≠ 0 ∨
            ∃ entry ∈ list, ¬ EntryTaken entry := by
          by_cases hversion : build.version = 0
          · right
            by_contra hall
            refine hgood ⟨hversion, fun entry hmem => ?_⟩
            by_contra hentry
            exact hall ⟨entry, hmem, hentry⟩
          · exact .inl ⟨hnil, hversion⟩
        rw [headerOfList_untaken hbad, headerOfList_untaken hbad]

/-- `list_to_header` gives the same result for every two values of `errno` at its start exactly
when no entry stands at the maximum in a list it would otherwise take. -/
theorem list_to_header_errno_iff {σ : Type} (h : Handler callSig σ) (s : σ)
    (build : PlatformBuild) (list : List Entry) :
    (∀ errno errno' : ℕ,
      (run h (listToHeader build (decide (errno = ERANGE)) list) s).1 =
        (run h (listToHeader build (decide (errno' = ERANGE)) list) s).1) ↔
      ErrnoFree build list := by
  have hrun : ∀ erange, (run h (listToHeader build erange list) s).1 =
      headerOfList erange (startHeader build) list := by
    intro erange
    exact ((inner_listToHeaderFrom erange (startHeader build) list).runs (runs_trace h _ s)).2
  rw [← headerOfList_errno_iff]
  constructor
  · intro hall
    have hpair := hall ERANGE 0
    rw [hrun, hrun] at hpair
    exact hpair
  · intro hsame errno errno'
    rw [hrun, hrun]
    cases decide (errno = ERANGE) <;> cases decide (errno' = ERANGE)
    · rfl
    · exact hsame.symm
    · exact hsame
    · rfl

/-- The 64-bit field with the value `2^64-1`. -/
def maximumList : List Entry := [textEntry (lit "ddrc_size", lit "18446744073709551615")]

/-- The greatest value is taken when `errno` is clear and refused when it is `ERANGE`. -/
theorem list_to_header_errno_dependent :
    (∃ evs header, Runs (listToHeader ⟨0, true⟩ (decide (0 = ERANGE)) maximumList) evs
        (.ok header)) ∧
      ∃ evs, Runs (listToHeader ⟨0, true⟩ (decide (ERANGE = ERANGE)) maximumList) evs
        (.error einval) := by
  constructor
  · exact ⟨[], _, .ret _⟩
  · exact ⟨_, .op (r := ()) (.ret _)⟩

end Nvram
