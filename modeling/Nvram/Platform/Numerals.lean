import Nvram.Platform.Fields
import Nvram.Platform.Literals

/-!
# Numbers in the platform format

The value of a numeric field is to be an unsigned integer literal that fits.  `strtoul` reads other
strings too: white space, a sign that negates modulo `2^64`, a literal with any text behind it, or
no digits at all.  `value_to_header` looks at the number only, so it takes each of these whose
number is in range.
-/

namespace Nvram

open Effects Errno

/-! ### Values of numeric fields -/

/-- The largest number a field of the type holds. -/
def FieldType.max : FieldType → ℕ
  | .u32 => 2 ^ 32 - 1
  | .u64 => 2 ^ 64 - 1
  | .string => 0

/-- The number that `strtoul` reads does not pass the tests of `value_to_header`. -/
def OutOfRange (erange : Bool) (type : FieldType) (s : CString) : Prop :=
  type.max < (strtoul s).1 ∨ (strtoul s).1 = ULONG_MAX ∧ (erange || (strtoul s).2.2) = true

instance (erange : Bool) (type : FieldType) (s : CString) : Decidable (OutOfRange erange type s) :=
  inferInstanceAs (Decidable (_ ∨ _))

/-- A number in the member of `union data` for the type. -/
def numberData : FieldType → ℕ → Data
  | .u64, n => .u64 (UInt64.ofNat n)
  | _, n => .u32 (UInt32.ofNat n)

/-- The number in a numeric member. -/
def Data.number : Data → ℕ
  | .u32 v => v.toNat
  | .u64 v => v.toNat
  | .str _ => 0

/-- The end pointer is never `NULL`, so the test for it never refuses a value. -/
theorem strtoul_endptr (s : CString) : (strtoul s).2.1 ≠ none := by
  unfold strtoul
  dsimp only
  split <;> simp

/-- An overflow shows in the value. -/
theorem strtoul_overflow {s : CString} (h : (strtoul s).2.2 = true) : (strtoul s).1 = ULONG_MAX := by
  unfold strtoul at h ⊢
  dsimp only at h ⊢
  split at h
  · rename_i hmax
    rw [if_pos hmax]
  · cases h

/-- A numeric value is taken exactly when its number is in range, and then `errno` is as it
was. -/
theorem convertValue_numeric {type : FieldType} (htype : type ≠ .string) (erange : Bool)
    (value : Bytes) :
    (OutOfRange erange type (CString.ofBuf value) →
        ∃ msg e, convertValue erange type value = (.error msg, e)) ∧
      (¬ OutOfRange erange type (CString.ofBuf value) → convertValue erange type value =
        (.ok (numberData type (strtoul (CString.ofBuf value)).1), erange)) := by
  generalize hs : CString.ofBuf value = s
  have hend := strtoul_endptr s
  have hover : ¬ OutOfRange erange type s → (erange || (strtoul s).2.2) = erange := by
    intro hin
    cases hflow : (strtoul s).2.2 with
    | false => exact Bool.or_false _
    | true => exact absurd (Or.inr ⟨strtoul_overflow hflow, by simp [hflow]⟩) hin
  cases type with
  | string => exact absurd rfl htype
  | u32 =>
      simp only [OutOfRange, FieldType.max] at hover ⊢
      simp only [convertValue, hs, hend, and_false, false_or]
      refine ⟨fun hout => ?_, fun hin => ?_⟩
      · rw [if_pos hout.symm]
        exact ⟨_, _, rfl⟩
      · rw [if_neg fun h => hin h.symm, hover hin]
        rfl
  | u64 =>
      simp only [OutOfRange, FieldType.max] at hover ⊢
      simp only [convertValue, hs, hend, and_false, false_or]
      refine ⟨fun hout => ?_, fun hin => ?_⟩
      · rw [if_pos hout.symm]
        exact ⟨_, _, rfl⟩
      · rw [if_neg fun h => hin h.symm, hover hin]
        rfl

theorem convertValue_errno {erange er : Bool} {type : FieldType} {value : Bytes} {data : Data}
    (h : convertValue erange type value = (.ok data, er)) : er = erange := by
  by_cases htype : type = .string
  · subst htype
    exact (Prod.mk.inj h).2.symm
  · obtain ⟨hbad, hgood⟩ := convertValue_numeric htype erange value
    by_cases hout : OutOfRange erange type (CString.ofBuf value)
    · obtain ⟨msg, e, hconvert⟩ := hbad hout
      rw [hconvert] at h
      cases h
    · rw [hgood hout] at h
      exact (Prod.mk.inj h).2.symm

theorem valueToHeader_errno {erange er : Bool} {header new : PlatformHeader} {f : FieldName}
    {field : Field} {entry : Entry}
    (h : valueToHeader erange header f field entry = (.ok new, er)) : er = erange := by
  unfold valueToHeader at h
  split at h
  · cases h
  · split at h
    · cases h
    · rename_i hconvert
      obtain rfl := convertValue_errno hconvert
      exact (Prod.mk.inj h).2.symm

/-- Storing a value leaves `errno` as it was. -/
theorem entryHeader_errno {erange er : Bool} {header new : PlatformHeader} {entry : Entry}
    (h : entryHeader erange header entry = .ok (new, er)) : er = erange := by
  unfold entryHeader at h
  rw [listToHeaderVersionIterator_eq] at h
  cases hfind : version0Fields.find? (fun f => strncmpEq (fields f).key entry.key) with
  | none =>
      rw [hfind] at h
      cases h
  | some f =>
      rw [hfind, Option.map_some] at h
      cases hvalue : valueToHeader erange header f (fields f) entry with
      | mk r e =>
          rw [hvalue] at h
          cases r with
          | error err => cases h
          | ok new' =>
              obtain ⟨-, rfl⟩ := Prod.mk.inj (Except.ok.inj h)
              exact valueToHeader_errno hvalue

/-- An entry that no header takes makes the whole list fail. -/
theorem headerOfList_refused {erange : Bool} {entry : Entry}
    (hrefused : ∀ header, ∃ e, entryHeader erange header entry = .error e) {list : List Entry}
    (hmem : entry ∈ list) (header : PlatformHeader) :
    ∃ e, headerOfList erange header list = .error e := by
  induction list generalizing header with
  | nil => cases hmem
  | cons first list ih =>
      rw [headerOfList]
      by_cases hversion : header.hdrVersion = 0
      · rw [if_pos hversion]
        cases hfirst : entryHeader erange header first with
        | error e => exact ⟨e, rfl⟩
        | ok result =>
            obtain ⟨new, er⟩ := result
            obtain rfl := entryHeader_errno hfirst
            rcases List.mem_cons.mp hmem with rfl | hmem
            · obtain ⟨e, he⟩ := hrefused header
              rw [hfirst] at he
              cases he
            · exact ih hmem new
      · rw [if_neg hversion]
        exact ⟨einval, rfl⟩

theorem getLast?_bytesZ (s : CString) : s.bytesZ.getLast? = some 0 := by
  rw [CString.bytesZ, List.getLast?_append]
  rfl

section

variable {f : FieldName} (hf : (fields f).type ≠ .string) (erange : Bool) (header : PlatformHeader)
  (key : Bytes) (s : CString)

include hf

/-- A numeric field refuses a value whose number is out of range. -/
theorem valueToHeader_outOfRange (hout : OutOfRange erange (fields f).type s) :
    ∃ msg e, valueToHeader erange header f (fields f) ⟨key, s.bytesZ⟩ =
      (.error (einval, some msg), e) := by
  obtain ⟨msg, e, hconvert⟩ := (convertValue_numeric hf erange s.bytesZ).1 (by
    rwa [CString.ofBuf_bytesZ])
  refine ⟨msg, e, ?_⟩
  rw [valueToHeader, if_neg (not_not.mpr (getLast?_bytesZ s)), hconvert]

/-- It stores the number of any other value. -/
theorem valueToHeader_inRange (hin : ¬ OutOfRange erange (fields f).type s) :
    ∃ new, valueToHeader erange header f (fields f) ⟨key, s.bytesZ⟩ = (.ok new, erange) ∧
      headerData new f = numberData (fields f).type (strtoul s).1 := by
  have hconvert := (convertValue_numeric hf erange s.bytesZ).2
  rw [CString.ofBuf_bytesZ] at hconvert
  rw [valueToHeader, if_neg (not_not.mpr (getLast?_bytesZ s)), hconvert hin]
  cases f with
  | name => exact absurd rfl hf
  | _ => exact ⟨_, rfl, rfl⟩

end

/-- A literal is out of range when its number is too large, or when it is `2^64-1` and `errno`
is `ERANGE` already. -/
theorem outOfRange_literal {type : FieldType} {s : CString} {n : ℕ}
    (h : UnsignedLiteral s.bytes n) (erange : Bool) :
    OutOfRange erange type s ↔ type.max < n ∨ n = ULONG_MAX ∧ erange = true := by
  have hmax : type.max ≤ ULONG_MAX := by
    cases type <;> decide
  have hconvert := convert_literal h
  by_cases hbig : ULONG_MAX < n
  · have hstrtoul : strtoul s = (ULONG_MAX, some s.bytes.length, true) := by
      rw [strtoul, hconvert]
      exact if_pos hbig
    rw [OutOfRange, hstrtoul]
    exact iff_of_true (Or.inr ⟨rfl, by simp⟩) (Or.inl (by omega))
  · have hstrtoul : strtoul s = (n, some s.bytes.length, false) := by
      rw [strtoul, hconvert]
      exact if_neg hbig
    rw [OutOfRange, hstrtoul, Bool.or_false]

/-! ### Lists and commits -/

/-- `errno` before `list_to_header`. -/
def ErrnoIs (erange : Bool) : (o : Call) → Call.Res o → Prop
  | .errnoIsErange, r => r = erange
  | _, _ => True

/-- The header `list_to_header` starts from. -/
def startHeader (build : PlatformBuild) : PlatformHeader :=
  { PlatformHeader.zero with hdrMagic := HEADER_MAGIC, hdrVersion := build.version }

/-- A commit that the list or the build refuses writes nothing; any other writes the header of
the list, if it gets the memory for it. -/
theorem runs_platformCommit {crc32 : Bytes → UInt32} {build : PlatformBuild} {erange : Bool}
    {nvram : SingleNvram} {list : List Entry} {evs : List CallEvent} {r : Except Errno Unit}
    (hrun : Runs (platformCommit crc32 build nvram list) evs r)
    (herrno : ∀ e ∈ evs, ErrnoIs erange e.op e.res) :
    ((∃ e, r = .error e) ∧ Call.writesIn evs = []) ∨
      build.allowWrite = true ∧ ∃ header, headerOfList erange (startHeader build) list = .ok header ∧
        Call.writesIn evs =
          [.write nvram.interface nvram.interfacePriv (serializeHeader crc32 header)] := by
  unfold platformCommit at hrun
  split at hrun
  · obtain ⟨rfl, rfl⟩ := runs_ret_iff.mp hrun
    exact Or.inl ⟨⟨_, rfl⟩, rfl⟩
  · rename_i hallow
    simp only [errnoIsErange_bind] at hrun
    obtain ⟨er, rest, rfl, hbody⟩ := runs_op_iff.mp hrun
    obtain rfl : er = erange := herrno ⟨_, er⟩ List.mem_cons_self
    obtain ⟨evs₁, evs₂, result, rfl, hlist, hafter⟩ := runs_bind_iff.mp hbody
    obtain ⟨hinner, hresult⟩ := (inner_listToHeaderFrom er (startHeader build) list).runs hlist
    have hsilent : Call.writesIn evs₁ = [] := Call.writesIn_eq_nil fun e he => (hinner e he).2.2.2.2
    rw [Call.writesIn_cons rfl, Call.writesIn_append, hsilent, List.nil_append]
    cases result with
    | error e =>
        obtain ⟨rfl, rfl⟩ := runs_ret_iff.mp hafter
        exact Or.inl ⟨⟨e, rfl⟩, rfl⟩
    | ok header =>
        simp only [malloc_bind] at hafter
        obtain ⟨mem, evs₃, rfl, hmem⟩ := runs_op_iff.mp hafter
        rw [Call.writesIn_cons rfl]
        cases mem with
        | none =>
            obtain ⟨rfl, rfl⟩ := runs_ret_iff.mp hmem
            exact Or.inl ⟨⟨_, rfl⟩, rfl⟩
        | some mem =>
            right
            refine ⟨by simpa using hallow, header, hresult.symm, ?_⟩
            simp only [Interface.write_bind] at hmem
            obtain ⟨done, evs₄, rfl, hdone⟩ := runs_op_iff.mp hmem
            rw [Call.writesIn_write]
            cases done with
            | ok u =>
                obtain ⟨rfl, rfl⟩ := runs_ret_iff.mp hdone
                rfl
            | error e =>
                simp only [Interface.sectionOf_bind, prErr_bind] at hdone
                obtain ⟨path, evs₅, rfl, hlog⟩ := runs_op_iff.mp hdone
                obtain ⟨u, evs₆, rfl, hend⟩ := runs_op_iff.mp hlog
                obtain ⟨rfl, rfl⟩ := runs_ret_iff.mp hend
                rfl

/-! ### Which values are accepted -/

/-- What is to hold of a value for a numeric field: it is taken exactly when it is a literal
that fits, the member becomes its number, and otherwise no list with it is converted and none is
committed. -/
structure AcceptsNumeral (crc32 : Bytes → UInt32) (build : PlatformBuild) (erange : Bool)
    (f : FieldName) (s : CString) : Prop where
  accepts : ∀ header,
    (∃ new er, valueToHeader erange header f (fields f) ⟨(fields f).key.bytesZ, s.bytesZ⟩ =
      (.ok new, er)) ↔ ∃ n, UnsignedLiteral s.bytes n ∧ n ≤ (fields f).type.max
  stores : ∀ header new er n,
    valueToHeader erange header f (fields f) ⟨(fields f).key.bytesZ, s.bytesZ⟩ = (.ok new, er) →
      UnsignedLiteral s.bytes n → (headerData new f).number = n
  refuses : (¬ ∃ n, UnsignedLiteral s.bytes n ∧ n ≤ (fields f).type.max) →
    ∀ list : List Entry, ⟨(fields f).key.bytesZ, s.bytesZ⟩ ∈ list →
      (∀ evs r, Runs (listToHeader build erange list) evs r → ∃ e, r = .error e) ∧
      ∀ nvram evs r, Runs (platformCommit crc32 build nvram list) evs r →
        (∀ e ∈ evs, ErrnoIs erange e.op e.res) → (∃ e, r = .error e) ∧ Call.writesIn evs = []

/-- A number that a field of the type does not hold: as it stands, or behind `-` and then negated
modulo `2^64`.  With `errno` at `ERANGE` already, `2^64-1` is one too. -/
def TooLarge (erange : Bool) (type : FieldType) : Bool → ℕ → Prop
  | false, n => type.max < n ∨ n = 2 ^ 64 - 1 ∧ erange = true
  | true, n => 2 ^ 64 - 1 < n ∨ 0 < n ∧ type.max + n < 2 ^ 64 ∨ n = 1 ∧ erange = true

/-- A literal, but for `2^64-1` in the u64 field when `errno` is `ERANGE` already; or another
string that starts with a number which the field does not hold. -/
def NumeralOrRefused (erange : Bool) (type : FieldType) (s : CString) : Prop :=
  (∃ n, UnsignedLiteral s.bytes n ∧ ¬ (type = .u64 ∧ n = 2 ^ 64 - 1 ∧ erange = true)) ∨
    (¬ ∃ n, UnsignedLiteral s.bytes n) ∧
      ∃ negative n, StartsWithNumber s.bytes negative n ∧ TooLarge erange type negative n

/-- What `strtoul` reads is out of range exactly when the string starts with a number that is too
large. -/
theorem outOfRange_iff {erange : Bool} {type : FieldType} {s : CString} :
    OutOfRange erange type s ↔
      ∃ negative n, StartsWithNumber s.bytes negative n ∧ TooLarge erange type negative n := by
  have hmax : type.max ≤ 2 ^ 64 - 1 := by
    cases type <;> decide
  have hnumber : (∃ negative n, StartsWithNumber s.bytes negative n ∧
        TooLarge erange type negative n) ↔ (convert 0 s.bytes).consumed ≠ 0 ∧
      TooLarge erange type (convert 0 s.bytes).negative (convert 0 s.bytes).magnitude := by
    constructor
    · rintro ⟨negative, n, hstarts, hlarge⟩
      obtain ⟨hne, rfl, rfl⟩ := startsWithNumber_iff.mp hstarts
      exact ⟨hne, hlarge⟩
    · rintro ⟨hne, hlarge⟩
      exact ⟨_, _, startsWithNumber_iff.mpr ⟨hne, rfl, rfl⟩, hlarge⟩
  rw [hnumber]
  by_cases hzero : (convert 0 s.bytes).consumed = 0
  · -- no digits: 0 is read
    have hstrtoul : strtoul s = (0, some 0, false) := by
      rw [strtoul, convert_eq_of_consumed hzero]
      rfl
    refine iff_of_false ?_ fun h => h.1 hzero
    rw [OutOfRange, hstrtoul]
    rintro (hlt | ⟨heq, -⟩)
    · exact absurd hlt (Nat.not_lt_zero _)
    · exact absurd heq (by decide)
  · rw [and_iff_right hzero, OutOfRange, strtoul]
    generalize convert 0 s.bytes = c
    obtain ⟨n, negative, consumed⟩ := c
    have hulong : ULONG_MAX = 2 ^ 64 - 1 := rfl
    dsimp only
    by_cases hover : ULONG_MAX < n
    · rw [if_pos hover]
      refine iff_of_true (Or.inr ⟨rfl, Bool.or_true _⟩) ?_
      cases negative with
      | false => exact Or.inl (by omega)
      | true => exact Or.inl (by omega)
    · rw [if_neg hover]
      cases negative with
      | false => simp only [TooLarge, hulong, Bool.false_eq_true, if_false, Bool.or_false]
      | true =>
          simp only [TooLarge, if_true, Bool.or_false]
          rcases Nat.eq_zero_or_pos n with rfl | hpos
          · simp [ULONG_MAX]
          · rw [Nat.mod_eq_of_lt (by omega), hulong]
            have hone : 2 ^ 64 - n = 2 ^ 64 - 1 ↔ n = 1 := by omega
            rw [hone]
            constructor
            · rintro (h | h)
              · exact Or.inr (Or.inl ⟨hpos, by omega⟩)
              · exact Or.inr (Or.inr h)
            · rintro (h | h | h)
              · omega
              · exact Or.inl (by omega)
              · exact Or.inr h

/-- A literal that fits is out of range in the one case of `2^64-1`. -/
theorem outOfRange_fitting {type : FieldType} (htype : type ≠ .string) {erange : Bool}
    {s : CString} {n : ℕ} (hn : UnsignedLiteral s.bytes n) (hle : n ≤ type.max) :
    OutOfRange erange type s ↔ type = .u64 ∧ n = 2 ^ 64 - 1 ∧ erange = true := by
  rw [outOfRange_literal hn, or_iff_right (not_lt.mpr hle)]
  constructor
  · rintro ⟨rfl, he⟩
    refine ⟨?_, rfl, he⟩
    cases type with
    | string => exact absurd rfl htype
    | u32 => exact absurd hle (by decide)
    | u64 => rfl
  · intro h
    exact ⟨h.2.1, h.2.2⟩

/-- Under that condition what is in range is what is a literal that fits. -/
theorem NumeralOrRefused.inRange_iff {type : FieldType} (htype : type ≠ .string) {erange : Bool}
    {s : CString} (h : NumeralOrRefused erange type s) :
    ¬ OutOfRange erange type s ↔ ∃ n, UnsignedLiteral s.bytes n ∧ n ≤ type.max := by
  rcases h with ⟨n, hn, hlast⟩ | ⟨hliteral, hout⟩
  · constructor
    · intro hin
      refine ⟨n, hn, not_lt.mp fun hlt => ?_⟩
      exact hin ((outOfRange_literal hn erange).mpr (Or.inl hlt))
    · rintro ⟨n', hn', hle⟩
      obtain rfl : n = n' := hn.unique hn'
      exact fun hout => hlast ((outOfRange_fitting htype hn hle).mp hout)
  · refine iff_of_false (not_not.mpr (outOfRange_iff.mpr hout)) ?_
    rintro ⟨n, hn, -⟩
    exact hliteral ⟨n, hn⟩

theorem numberData_number {type : FieldType} (htype : type ≠ .string) {n : ℕ} (h : n ≤ type.max) :
    (numberData type n).number = n := by
  cases type with
  | string => exact absurd rfl htype
  | u32 => exact Nat.mod_eq_of_lt (by simp only [FieldType.max] at h; omega)
  | u64 => exact Nat.mod_eq_of_lt (by simp only [FieldType.max] at h; omega)

section

variable {f : FieldName} (hf : (fields f).type ≠ .string) {erange : Bool} {s : CString}

include hf

theorem valueToHeader_accepts_iff (header : PlatformHeader) (key : Bytes) :
    (∃ new er, valueToHeader erange header f (fields f) ⟨key, s.bytesZ⟩ = (.ok new, er)) ↔
      ¬ OutOfRange erange (fields f).type s := by
  by_cases hout : OutOfRange erange (fields f).type s
  · obtain ⟨msg, e, h⟩ := valueToHeader_outOfRange hf erange header key s hout
    refine iff_of_false ?_ (not_not.mpr hout)
    rintro ⟨new, er, hok⟩
    rw [h] at hok
    cases hok
  · obtain ⟨new, h, -⟩ := valueToHeader_inRange hf erange header key s hout
    exact iff_of_true ⟨new, erange, h⟩ hout

theorem stored_literal {header new : PlatformHeader} {key : Bytes} {er : Bool} {n : ℕ}
    (h : valueToHeader erange header f (fields f) ⟨key, s.bytesZ⟩ = (.ok new, er))
    (hn : UnsignedLiteral s.bytes n) : (headerData new f).number = n := by
  have hin := (valueToHeader_accepts_iff hf header key).mp ⟨new, er, h⟩
  have hrange := (outOfRange_literal hn erange).not.mp hin
  have hle : n ≤ (fields f).type.max := not_lt.mp fun hlt => hrange (Or.inl hlt)
  have hmax : (fields f).type.max ≤ ULONG_MAX := by
    cases f <;> decide
  have hstrtoul : (strtoul s).1 = n := by
    rw [strtoul, convert_literal hn]
    dsimp only
    rw [if_neg (by omega)]
    rfl
  obtain ⟨new', h', hdata⟩ := valueToHeader_inRange hf erange header key s hin
  obtain rfl : new = new' := Except.ok.inj (Prod.mk.inj (h.symm.trans h')).1
  rw [hdata, hstrtoul, numberData_number hf hle]

theorem listToHeader_refuses (hout : OutOfRange erange (fields f).type s) {list : List Entry}
    (hmem : ⟨(fields f).key.bytesZ, s.bytesZ⟩ ∈ list) (header : PlatformHeader) :
    ∃ e, headerOfList erange header list = .error e := by
  refine headerOfList_refused (fun header => ?_) hmem header
  obtain ⟨msg, e, h⟩ := valueToHeader_outOfRange hf erange header (fields f).key.bytesZ s hout
  refine ⟨einval, ?_⟩
  rw [entryHeader, listToHeaderVersionIterator_key, fieldOf_key, Option.map_some, h]

end

/-- A numeric field meets what is to hold of a value exactly when the value is a literal (other
than `2^64-1` with `errno` set), or starts with a number that the field does not hold anyway. -/
theorem platform_numerals_iff (crc32 : Bytes → UInt32) (build : PlatformBuild) (erange : Bool)
    {f : FieldName} (hf : (fields f).type ≠ .string) (s : CString) :
    AcceptsNumeral crc32 build erange f s ↔ NumeralOrRefused erange (fields f).type s := by
  constructor
  · intro h
    have haccepts := (valueToHeader_accepts_iff hf PlatformHeader.zero _).symm.trans
      (h.accepts PlatformHeader.zero)
    by_cases hliteral : ∃ n, UnsignedLiteral s.bytes n
    · obtain ⟨n, hn⟩ := hliteral
      refine Or.inl ⟨n, hn, fun hlast => ?_⟩
      have hle : n ≤ (fields f).type.max := by
        rw [hlast.1, hlast.2.1]
        exact le_rfl
      exact haccepts.mpr ⟨n, hn, hle⟩ ((outOfRange_fitting hf hn hle).mpr hlast)
    · refine Or.inr ⟨hliteral, outOfRange_iff.mp ?_⟩
      by_contra hin
      obtain ⟨n, hn, -⟩ := haccepts.mp hin
      exact hliteral ⟨n, hn⟩
  · intro h
    have haccepts := h.inRange_iff hf
    refine ⟨fun header => (valueToHeader_accepts_iff hf header _).trans haccepts,
      fun header new er n hok hn => stored_literal hf hok hn, fun hno list hmem => ?_⟩
    have hout : OutOfRange erange (fields f).type s := not_not.mp fun hin => hno (haccepts.mp hin)
    obtain ⟨e, he⟩ := listToHeader_refuses hf hout hmem (startHeader build)
    refine ⟨fun evs r hrun => ?_, fun nvram evs r hrun herrno => ?_⟩
    · have hresult := ((inner_listToHeaderFrom erange (startHeader build) list).runs hrun).2
      exact ⟨e, hresult.trans he⟩
    · rcases runs_platformCommit hrun herrno with hrefused | ⟨-, header, hok, -⟩
      · exact hrefused
      · rw [he] at hok
        cases hok

theorem platform_numerals_iff_sample :
    AcceptsNumeral zlibCrc32 ⟨0, true⟩ false .config1 (lit "0x10") ∧
      AcceptsNumeral zlibCrc32 ⟨0, true⟩ false .config1 (lit " -1x") := by
  refine ⟨(platform_numerals_iff zlibCrc32 ⟨0, true⟩ false (by decide) (lit "0x10")).mpr ?_,
    (platform_numerals_iff zlibCrc32 ⟨0, true⟩ false (by decide) (lit " -1x")).mpr ?_⟩
  · exact Or.inl ⟨16, .hexadecimal (Or.inl rfl) (by decide +kernel), by decide⟩
  · have hlarge : (0 : ℕ) < 1 ∧ FieldType.u32.max + 1 < 2 ^ 64 :=
      ⟨Nat.one_pos, by decide +kernel⟩
    refine Or.inr ⟨?_, true, 1, startsWithNumber_iff.mpr (by decide), Or.inr (Or.inl hlarge)⟩
    rintro ⟨n, hn⟩
    have hconsumed : (convert 0 (lit " -1x").bytes).consumed = 4 :=
      congrArg Conversion.consumed (convert_literal hn)
    exact absurd hconsumed (by decide)

/-- `value_to_header` takes `abc` for a number, and stores 0. -/
theorem platform_text_accepted_as_zero :
    valueToHeader false PlatformHeader.zero .config1 (fields .config1)
        ⟨(lit "config1").bytesZ, (lit "abc").bytesZ⟩ = (.ok PlatformHeader.zero, false) ∧
      ¬ AcceptsNumeral zlibCrc32 ⟨0, true⟩ false .config1 (lit "abc") := by
  have haccepted : valueToHeader false PlatformHeader.zero .config1 (fields .config1)
      ⟨(lit "config1").bytesZ, (lit "abc").bytesZ⟩ = (.ok PlatformHeader.zero, false) := by
    decide +kernel
  refine ⟨haccepted, fun h => ?_⟩
  obtain ⟨n, hn, -⟩ := (h.accepts PlatformHeader.zero).mp ⟨_, _, haccepted⟩
  have hconsumed : (convert 0 (lit "abc").bytes).consumed = 3 :=
    congrArg Conversion.consumed (convert_literal hn)
  exact absurd hconsumed (by decide)

end Nvram
