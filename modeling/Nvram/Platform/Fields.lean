import Nvram.Format.Frame

/-!
# From a list to a platform header

`list_to_header` takes the entries in order and stores each value in the member its key names.
It prints what it refuses and does nothing else outside, so its result is a function of the
list: `headerOfList`.  The header that comes out of a list of distinct keys is `headerOf` of the
values, one member for one value.
-/

namespace Nvram

open Effects Errno

/-! ### Keys -/

/-- `strncmp` with the length of a whole C string, its NUL included, compares the strings. -/
theorem strncmpEq_bytesZ_iff (key k : CString) : strncmpEq key k.bytesZ = true ↔ key = k := by
  rw [strncmpEq, decide_eq_true_iff, CString.ofBuf_bytesZ]
  constructor
  · intro h
    by_cases hle : key.strlen ≤ k.strlen
    · have htake : key.bytesZ.take k.bytesZ.length = key.bytesZ :=
        List.take_of_length_le (by simp only [CString.bytesZ_length]; omega)
      rwa [htake, CString.ofBuf_bytesZ] at h
    · -- a longer key differs within the bytes compared
      have hlong : k.bytesZ.length ≤ key.bytes.length := by
        rw [CString.bytesZ_length]
        exact not_le.mp hle
      have htake : key.bytesZ.take k.bytesZ.length = key.bytes.take k.bytesZ.length :=
        List.take_append_of_le_length hlong
      have hnul : (0 : UInt8) ∉ key.bytes.take k.bytesZ.length := fun hmem =>
        key.noNul (List.mem_of_mem_take hmem)
      have hall : (key.bytes.take k.bytesZ.length).takeWhile (· ≠ 0) =
          key.bytes.take k.bytesZ.length :=
        List.takeWhile_eq_self_iff.mpr fun b hb => by
          simpa using fun heq : b = 0 => hnul (heq ▸ hb)
      have hbytes : key.bytes.take k.bytesZ.length = k.bytes := by
        rw [← hall, ← htake]
        exact congrArg CString.bytes h
      have hlen := congrArg List.length hbytes
      rw [List.length_take_of_le hlong, CString.bytesZ_length, CString.strlen] at hlen
      omega
  · intro h
    subst h
    rw [List.take_length, CString.ofBuf_bytesZ]

/-- The field with a key. -/
def fieldOf (key : CString) : Option FieldName :=
  version0Fields.find? fun f => (fields f).key = key

theorem mem_version0Fields (f : FieldName) : f ∈ version0Fields := by
  cases f <;> decide

@[simp] theorem fieldOf_key (f : FieldName) : fieldOf (fields f).key = some f := by
  cases f <;> decide

theorem fieldOf_eq_some_iff {key : CString} {f : FieldName} :
    fieldOf key = some f ↔ (fields f).key = key := by
  constructor
  · intro h
    simpa using List.find?_some h
  · intro h
    rw [← h, fieldOf_key]

theorem fields_key_injective {f g : FieldName} (h : (fields f).key = (fields g).key) : f = g :=
  Option.some.inj ((fieldOf_key f).symm.trans (h ▸ fieldOf_key g))

/-! ### The loop as a function -/

theorem listToHeaderVersionIterator_eq (erange : Bool) (header : PlatformHeader)
    (names : List FieldName) (entry : Entry) :
    listToHeaderVersionIterator erange header names entry =
      (names.find? fun f => strncmpEq (fields f).key entry.key).map fun f =>
        (f, valueToHeader erange header f (fields f) entry) := by
  induction names with
  | nil => rfl
  | cons f names ih =>
      rw [listToHeaderVersionIterator]
      rw [List.find?_cons]
      cases h : strncmpEq (fields f).key entry.key with
      | true => rfl
      | false => exact ih

/-- The field that takes an entry whose key is a C string. -/
theorem listToHeaderVersionIterator_key (erange : Bool) (header : PlatformHeader) (key : CString)
    (value : Bytes) :
    listToHeaderVersionIterator erange header version0Fields ⟨key.bytesZ, value⟩ =
      (fieldOf key).map fun f =>
        (f, valueToHeader erange header f (fields f) ⟨key.bytesZ, value⟩) := by
  have hsame : (fun f => strncmpEq (fields f).key key.bytesZ) =
      fun f => decide ((fields f).key = key) := by
    funext f
    rw [Bool.eq_iff_iff, strncmpEq_bytesZ_iff, decide_eq_true_iff]
  rw [listToHeaderVersionIterator_eq, hsame]
  rfl

/-- One entry: the header with its value stored, and `errno` after it. -/
def entryHeader (erange : Bool) (header : PlatformHeader) (entry : Entry) :
    Except Errno (PlatformHeader × Bool) :=
  match listToHeaderVersionIterator erange header version0Fields entry with
  | none => .error einval
  | some (_, .error (e, _), _) => .error e
  | some (_, .ok header, erange) => .ok (header, erange)

/-- The result of the loop of `list_to_header`. -/
def headerOfList (erange : Bool) (header : PlatformHeader) : List Entry → Except Errno PlatformHeader
  | [] => .ok header
  | entry :: list =>
    if header.hdrVersion = 0 then
      match entryHeader erange header entry with
      | .error e => .error e
      | .ok (header, erange) => headerOfList erange header list
    else .error einval

theorem inner_listToHeaderFrom (erange : Bool) (header : PlatformHeader) (list : List Entry) :
    Confined Call.Inner (fun r => r = headerOfList erange header list)
      (listToHeaderFrom erange header list) := by
  induction list generalizing erange header with
  | nil => rfl
  | cons entry list ih =>
      simp only [listToHeaderFrom, headerOfList, entryHeader]
      split
      · generalize listToHeaderVersionIterator erange header version0Fields entry = found
        rcases found with _ | ⟨f, ⟨e, msg⟩ | header, erange⟩
        · exact ⟨Call.inner_fprintfStderr _ _, fun _ => rfl⟩
        · cases msg with
          | none => rfl
          | some msg => exact ⟨Call.inner_fprintfStderr _ _, fun _ => rfl⟩
        · exact ih erange header
      · exact ⟨Call.inner_fprintfStderr _ _, fun _ => rfl⟩

end Nvram
