import Nvram.Legacy.Session
import Nvram.Platform.Numerals

/-!
# Sessions of the platform format

`platformInit` lists the fields of a valid header as texts, numbers in hexadecimal, and finds
an empty list where there is none.  `platformCommit` writes the header of a list that
`list_to_header` takes, and nothing of any other list.
-/

namespace Nvram

open Effects Errno

/-! ### Texts of members -/

/-- A digit that is printed is read as itself. -/
theorem digitValue_digitChar {d : ℕ} (h : d < 16) :
    digitValue (UInt8.ofNat d.digitChar.toNat) = some d := by
  revert d
  decide

theorem isDigitOf_digitChar {d : ℕ} (h : d < 16) :
    isDigitOf 16 (UInt8.ofNat d.digitChar.toNat) = true := by
  rw [isDigitOf, digitValue_digitChar h]
  simpa using h

/-- The digits of `"%x"`. -/
def hexDigits (n : ℕ) : Bytes := (Nat.toDigits 16 n).map fun c => UInt8.ofNat c.toNat

theorem hexDigits_eq (n : ℕ) :
    hexDigits n = if n < 16 then [UInt8.ofNat n.digitChar.toNat]
      else hexDigits (n / 16) ++ [UInt8.ofNat (n % 16).digitChar.toNat] := by
  rw [hexDigits, Nat.toDigits_eq_if (by decide)]
  split
  · rfl
  · rw [List.map_append]
    rfl

theorem hexDigits_ne_nil (n : ℕ) : hexDigits n ≠ [] := by
  rw [hexDigits]
  simp

theorem isDigitOf_hexDigits (n : ℕ) : ∀ b ∈ hexDigits n, isDigitOf 16 b = true := by
  induction n using Nat.strongRecOn with
  | ind n ih =>
      intro b hb
      rw [hexDigits_eq] at hb
      split at hb
      · rename_i hlt
        rw [List.mem_singleton.mp hb]
        exact isDigitOf_digitChar hlt
      · rename_i hge
        rcases List.mem_append.mp hb with hb | hb
        · exact ih (n / 16) (by omega) b hb
        · rw [List.mem_singleton.mp hb]
          exact isDigitOf_digitChar (Nat.mod_lt n (by decide))

theorem numeral_append_digit (base : ℕ) (ds : Bytes) (b : UInt8) :
    numeral base (ds ++ [b]) = numeral base ds * base + (digitValue b).getD 0 := by
  rw [numeral, List.foldl_append]
  rfl

/-- Reading back the digits of a number. -/
theorem numeral_hexDigits (n : ℕ) : numeral 16 (hexDigits n) = n := by
  induction n using Nat.strongRecOn with
  | ind n ih =>
      rw [hexDigits_eq]
      split
      · rename_i hlt
        show 0 * 16 + (digitValue _).getD 0 = n
        rw [digitValue_digitChar hlt]
        simp
      · rename_i hge
        rw [numeral_append_digit, ih (n / 16) (by omega),
          digitValue_digitChar (Nat.mod_lt n (by decide)), Option.getD_some]
        omega

/-- A hexadecimal text is a literal of its number. -/
theorem unsignedLiteral_hexText (n : ℕ) : UnsignedLiteral (hexText n) n := by
  have htext : hexText n = 48 :: 120 :: hexDigits n := rfl
  have hdigits := isDigitOf_hexDigits n
  have hnumeral := numeral_hexDigits n
  rw [htext]
  cases h : hexDigits n with
  | nil => exact absurd h (hexDigits_ne_nil n)
  | cons d ds =>
      rw [h] at hdigits hnumeral
      have hliteral := UnsignedLiteral.hexadecimal (Or.inl rfl) hdigits
      rwa [hnumeral] at hliteral

theorem zero_not_mem_hexText (n : ℕ) : (0 : UInt8) ∉ hexText n := by
  have htext : hexText n = 48 :: 120 :: hexDigits n := rfl
  rw [htext]
  intro hmem
  have hdigit : (0 : UInt8) ∈ hexDigits n := by simpa using hmem
  exact absurd (isDigitOf_hexDigits n 0 hdigit) (by decide)

/-- `"0x%x"` as a C string. -/
def hexString (n : ℕ) : CString := ⟨hexText n, zero_not_mem_hexText n⟩

theorem strtoul_hexString {n : ℕ} (h : n ≤ ULONG_MAX) : strtoul (hexString n) =
    (n, some (hexString n).strlen, false) := by
  have hconvert : convert 0 (hexString n).bytes = ⟨n, false, (hexText n).length⟩ :=
    convert_literal (unsignedLiteral_hexText n)
  rw [strtoul, hconvert]
  dsimp only
  rw [if_neg (not_lt.mpr h)]
  rfl

theorem length_hexText_lt {n : ℕ} (h : n < 2 ^ 64) : (hexText n).length < 64 := by
  have hlen : (Nat.toDigits 16 n).length ≤ 16 :=
    (Nat.length_toDigits_le_iff (by decide) (by decide)).mpr (by simpa using h)
  simp only [hexText, List.length_cons, List.length_map]
  omega

/-- The text of a member. -/
def Data.text : Data → CString
  | .u32 v => hexString v.toNat
  | .u64 v => hexString v.toNat
  | .str s => s

theorem dataText_eq (data : Data) : dataText data = .ok data.text.bytesZ := by
  cases data with
  | u32 v =>
      have hlt := v.toNat_lt
      have hshort := length_hexText_lt (show v.toNat < 2 ^ 64 by omega)
      simp only [dataText, if_neg (not_le.mpr hshort)]
      rfl
  | u64 v =>
      have hshort := length_hexText_lt v.toNat_lt
      simp only [dataText, if_neg (not_le.mpr hshort)]
      rfl
  | str s => rfl

theorem headerData_type (header : PlatformHeader) (f : FieldName) :
    (headerData header f).type = (fields f).type := by
  cases f <;> rfl

/-- The fields of a header as texts, in the order of the table. -/
def headerTexts (header : PlatformHeader) : List (CString × CString) :=
  version0Fields.map fun f => ((fields f).key, (headerData header f).text)

/-- The list of a content: the fields of a valid header of version 0, nothing if there is no
valid header; `none` for a header of another version. -/
def platformList (crc32 : Bytes → UInt32) (lib : Libnvram) (content : Bytes) :
    Option (List Entry) :=
  if PLATFORM_HEADER_SIZE ≤ content.length then
    match parseHeader crc32 (content.take PLATFORM_HEADER_SIZE) with
    | none => some []
    | some header =>
      if header.hdrVersion = 0 then
        some (((headerTexts header).map textEntry).foldl lib.listSet [])
      else none
  else some []

/-! ### Init -/

section

variable {lib : Libnvram} {fails : Prop} {A : (o : Call) → Call.Res o → Prop}
  (hA : Allocates lib fails A)

include hA

theorem under_valueToList (header : PlatformHeader) (f : FieldName) (list : List Entry) :
    Under A (fun r => r = .ok (lib.listSet list
        (textEntry ((fields f).key, (headerData header f).text))) ∨ Failed fails r)
      (valueToList header f (fields f) list) := by
  have htype : ¬ (fields f).type ≠ (headerData header f).type :=
    not_not.mpr (headerData_type header f).symm
  simp only [valueToList, if_neg htype, dataText_eq, libnvramListSet_bind]
  intro r hr
  rcases hA.listSet _ _ _ hr with rfl | hfailed
  · exact Or.inl rfl
  · obtain ⟨e, rfl⟩ := hfailed.2
    exact fun _ _ => Or.inr (hfailed.error _)

theorem under_headerToListVersionIterator (header : PlatformHeader) (names : List FieldName)
    (list : List Entry) :
    Under A (fun r => r = .ok ((names.map fun f =>
          textEntry ((fields f).key, (headerData header f).text)).foldl lib.listSet list) ∨
        Failed fails r)
      (headerToListVersionIterator header names list) := by
  induction names generalizing list with
  | nil => exact Or.inl rfl
  | cons f names ih =>
      rw [headerToListVersionIterator]
      refine under_seq (under_valueToList hA header f list) fun r hr => ?_
      rcases hr with rfl | hfailed
      · exact ih _
      · obtain ⟨e, rfl⟩ := hfailed.2
        exact Or.inr (hfailed.error _)

end

section

variable {lib : Libnvram} {v : View} {i : Interface} {fails : Prop}
  {A : (o : Call) → Call.Res o → Prop} (hA : Truthful lib v fails A)
  (crc32 : Bytes → UInt32) (build : PlatformBuild)

include hA

theorem under_headerToList (header : PlatformHeader) :
    Under A (fun r => Yields r (if header.hdrVersion = 0 then
          some (((headerTexts header).map textEntry).foldl lib.listSet []) else none) ∨
        Failed fails r)
      (headerToList header []) := by
  unfold headerToList
  split
  · rename_i hversion
    refine (under_headerToListVersionIterator hA.allocates header version0Fields []).mono
      fun r hr => hr.imp_left fun h => ?_
    rw [h, headerTexts, List.map_map]
    rfl
  · exact fun _ _ => Or.inl ⟨einval, rfl⟩

theorem under_platformLoad {path : CString} {priv : NvramPriv} (hpriv : v.Handle priv) :
    Under A (fun r => Yields r (platformList crc32 lib (v.contents priv.path)) ∨ Failed fails r)
      (platformLoad crc32 build i path priv) := by
  simp only [platformLoad, Interface.size_bind]
  intro r hr
  rcases hA.size _ _ _ hr hpriv with rfl | hfailed
  swap
  · obtain ⟨e, rfl⟩ := hfailed.2
    exact fun _ _ => Or.inr (hfailed.error e)
  dsimp only
  unfold platformList
  split
  swap
  · exact fun _ _ => Or.inl rfl
  rename_i hsize
  have hne : v.contents priv.path ≠ [] := by
    intro hnil
    rw [hnil] at hsize
    exact absurd hsize (by decide)
  simp only [malloc_bind]
  intro m hm
  cases m with
  | none =>
      have hfails : fails := (hA.malloc _ _ hm).resolve_left (by simp)
      exact Or.inr ⟨hfails, _, rfl⟩
  | some mem =>
      simp only [Interface.read_bind]
      intro r hr
      rcases hA.read _ _ _ _ hr hpriv hsize hne with ⟨buf, rfl, hbuf⟩ | hfailed
      swap
      · obtain ⟨e, rfl⟩ := hfailed.2
        exact fun _ _ => Or.inr (hfailed.error e)
      dsimp only
      rw [hbuf]
      cases parseHeader crc32 ((v.contents priv.path).take PLATFORM_HEADER_SIZE) with
      | none => exact fun _ _ => Or.inl rfl
      | some header =>
          dsimp only
          by_cases hlater : build.version < header.hdrVersion
          · -- a header of a later version than the supported one
            rw [if_pos hlater]
            have hversion : header.hdrVersion ≠ 0 := fun h => by
              rw [h, UInt32.lt_iff_toNat_lt] at hlater
              exact absurd hlater (Nat.not_lt_zero _)
            rw [if_neg hversion]
            exact fun _ _ => Or.inl ⟨einval, rfl⟩
          · rw [if_neg hlater, prDbg_bind]
            intro _ _
            refine under_seq (under_headerToList hA header) fun r hr => ?_
            cases r with
            | error e => exact fun _ _ => hr
            | ok list => exact hr

theorem under_platformInit {sectionA sectionB : Option CString}
    (hsection : ∀ p, configured sectionA = some p → v.Section p) :
    Under A (fun r => SingleResult (platformList crc32 lib) v i sectionA sectionB r ∨
        Failed fails r)
      (platformInit crc32 build i sectionA sectionB) := by
  rw [platformInit_eq]
  exact under_singleInit hA (platformLoad crc32 build i)
    (fun _ hpriv => under_platformLoad hA crc32 build hpriv) _ hsection

end

/-! ### Commit -/

namespace Healthy

variable {lib : Libnvram} {σ : Type} {i : Interface} {h : Handler callSig σ}

/-- An init returns what its section shows, and changes nothing. -/
theorem run_platformInit (H : Healthy lib i h) (crc32 : Bytes → UInt32) (build : PlatformBuild)
    (sectionA sectionB : Option CString)
    (hsection : ∀ p, configured sectionA = some p → H.Section p) (s : σ) :
    ∃ r t, run h (platformInit crc32 build i sectionA sectionB) s = (r, t) ∧
      SingleResult (platformList crc32 lib) (H.view s) i sectionA sectionB r ∧ H.Same s t := by
  have hreads : Confined (Call.Reads i fun _ => True) _
      (platformInit crc32 build i sectionA sectionB) :=
    reads_platformInit crc32 build fun _ _ => trivial
  have hunder : Under (Answers lib (H.view s)) _ (platformInit crc32 build i sectionA sectionB) :=
    under_platformInit (truthful_answers lib (H.view s)) crc32 build hsection
  obtain ⟨hresult, hsame⟩ := H.run_reads hreads
    (hunder.mono fun r hr => hr.resolve_right not_failed)
  exact ⟨_, _, rfl, hresult, hsame⟩

/-- A commit returns 0 exactly when the build allows it, `list_to_header` takes the list and
the header fits, and it writes the header whenever there is one. -/
theorem run_platformCommit (H : Healthy lib i h) (crc32 : Bytes → UInt32) {build : PlatformBuild}
    (hallow : build.allowWrite = true) {erange : Bool}
    (herrno : ∀ s, (h .errnoIsErange s).1 = erange) {nvram : SingleNvram} {v : View}
    {path : CString} (hopen : nvram.OpenOn v i path)
    (hhandle : ∀ priv, v.Handle priv → H.Handle priv) (list : List Entry) (s : σ) :
    ∃ r t, run h (platformCommit crc32 build nvram list) s = (r, t) ∧
      match headerOfList erange (startHeader build) list with
      | .error _ => (∃ e, r = .error e) ∧ H.contents t = H.contents s
      | .ok header => (r = .ok () ↔ H.Fits path (serializeHeader crc32 header)) ∧
        H.contents t = H.storeAt (H.contents s) path (serializeHeader crc32 header) := by
  obtain ⟨rfl, priv, hpriv, rfl, hview⟩ := hopen
  have hstart := H.same_of_inner Call.inner_errnoIsErange s
  rw [platformCommit, if_neg (not_not.mpr hallow)]
  simp only [errnoIsErange_bind, run_op, herrno]
  generalize (h .errnoIsErange s).2 = t₁ at hstart ⊢
  obtain ⟨hresult, hlist⟩ := H.run_inner (inner_listToHeaderFrom erange (startHeader build) list) t₁
  have hrun : listToHeader build erange list = listToHeaderFrom erange (startHeader build) list := rfl
  rw [hrun, run_bind]
  generalize run h (listToHeaderFrom erange (startHeader build) list) t₁ = found at hresult hlist ⊢
  obtain ⟨r, t₂⟩ := found
  obtain rfl : r = _ := hresult
  have hsame : H.Same s t₂ := hstart.trans hlist
  dsimp only
  cases headerOfList erange (startHeader build) list with
  | error e => exact ⟨_, t₂, rfl, ⟨e, rfl⟩, hsame.1⟩
  | ok header =>
      have hmem := H.same_of_inner (Call.inner_malloc PLATFORM_HEADER_SIZE) t₂
      have hmalloc := H.answers (.malloc PLATFORM_HEADER_SIZE) t₂ (by simp [Call.interface?]) rfl
      obtain ⟨mem, hsome⟩ := Option.isSome_iff_exists.mp hmalloc
      simp only [malloc_bind, run_op]
      generalize (h (.malloc PLATFORM_HEADER_SIZE) t₂).2 = t₃ at hmem ⊢
      replace hsame := hsame.trans hmem
      rw [hsome]
      rw [hpriv]
      obtain ⟨r, w, hrun, hok, hstored, -⟩ := H.run_loggedWrite
        "%s: Failed writing header [%d]: %s\n" (hhandle priv hview)
        (serializeHeader crc32 header) t₃
      rw [hsame.1] at hstored
      exact ⟨r, w, hrun, hok, hstored⟩

end Healthy

end Nvram
