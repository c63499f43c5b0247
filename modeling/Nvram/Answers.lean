import Nvram.Call

/-!
# What an outside answers

`Answers` says what an outside that shows certain bytes in its sections answers as long as
nothing fails: memory is there, a read within a section that is not empty gives its bytes, a
longer one fails.  `Truthful` is the same with failures allowed: an answer is an error or what
the bytes say.
-/

namespace Nvram

/-- The bytes in the section of each path. -/
abbrev Contents := CString → Bytes

/-- How an outside shows its sections: which ones there are, which handles belong to them,
and the bytes in each. -/
structure View where
  Section : CString → Prop
  Handle : NvramPriv → Prop
  contents : Contents

/-- `section && strlen(section) > 0` -/
def configured : Option CString → Option CString
  | none => none
  | some path => if 0 < path.strlen then some path else none

theorem eq_some_of_configured {o : Option CString} {path : CString}
    (h : configured o = some path) : o = some path := by
  cases o with
  | none => cases h
  | some p =>
      rw [configured] at h
      split at h
      · exact h
      · cases h

/-- A result that is there exactly when a value is. -/
def Yields {α : Type} (r : Except Errno α) : Option α → Prop
  | some a => r = .ok a
  | none => ∃ e, r = .error e

/-- The value, or else the given error. -/
def orError {α : Type} (e : Errno) : Option α → Except Errno α
  | some a => .ok a
  | none => .error e

theorem yields_orError {α : Type} (e : Errno) (o : Option α) : Yields (orError e o) o := by
  cases o with
  | none => exact ⟨e, rfl⟩
  | some a => rfl

/-- An error, where there may be one. -/
def Failed (fails : Prop) {α : Type} (r : Except Errno α) : Prop := fails ∧ ∃ e, r = .error e

theorem Failed.error {fails : Prop} {α β : Type} {e : Errno}
    (h : Failed fails (.error e : Except Errno α)) (e' : Errno) :
    Failed fails (.error e' : Except Errno β) :=
  ⟨h.1, e', rfl⟩

theorem not_failed {α : Type} {r : Except Errno α} : ¬ Failed False r := fun h => h.1

section

variable (lib : Libnvram)

/-- What an outside with this view answers as long as nothing fails. -/
def Answers (v : View) : (o : Call) → Call.Res o → Prop
  | .malloc _, r => r.isSome
  | .mallocStruct, r => r = true
  | .openLock _, r => ∃ fd, r = .ok fd
  | .flock _, r => r = .ok ()
  | .close _, r => r = .ok ()
  | .unlink _, r => r = .ok ()
  | .init _ path, r => v.Section path → ∃ data, r = .ok data ∧ v.Handle ⟨path, data⟩
  | .size _ (some priv), r => v.Handle priv → r = .ok (v.contents priv.path).length
  | .read _ (some priv) n, r => v.Handle priv →
    ((v.contents priv.path).length < n → ∃ e, r = .error e) ∧
      (n ≤ (v.contents priv.path).length → v.contents priv.path ≠ [] →
        ∃ buf, r = .ok buf ∧ buf.val = (v.contents priv.path).take n)
  | .deserialize data hdr, r => r = lib.deserialize data hdr
  | .listSet list entry, r => r = .ok (lib.listSet list entry)
  | _, _ => True

/-- Answers that are what the view says; `fails` is whether they may be errors instead. -/
structure Truthful (v : View) (fails : Prop) (A : (o : Call) → Call.Res o → Prop) : Prop where
  malloc : ∀ n r, A (.malloc n) r → r.isSome ∨ fails
  mallocStruct : ∀ r, A .mallocStruct r → r = true ∨ fails
  openLock : ∀ path r, A (.openLock path) r → (∃ fd, r = .ok fd) ∨ Failed fails r
  flock : ∀ fd r, A (.flock fd) r → r = .ok () ∨ Failed fails r
  close : ∀ fd r, A (.close fd) r → r = .ok () ∨ Failed fails r
  unlink : ∀ path r, A (.unlink path) r → r = .ok () ∨ Failed fails r
  init : ∀ i path r, A (.init i path) r → v.Section path →
    (∃ data, r = .ok data ∧ v.Handle ⟨path, data⟩) ∨ Failed fails r
  size : ∀ i priv r, A (.size i (some priv)) r → v.Handle priv →
    r = .ok (v.contents priv.path).length ∨ Failed fails r
  read_long : ∀ i priv n r, A (.read i (some priv) n) r → v.Handle priv →
    (v.contents priv.path).length < n → ∃ e, r = .error e
  read : ∀ i priv n r, A (.read i (some priv) n) r → v.Handle priv →
    n ≤ (v.contents priv.path).length → v.contents priv.path ≠ [] →
    (∃ buf, r = .ok buf ∧ buf.val = (v.contents priv.path).take n) ∨ Failed fails r
  deserialize : ∀ data hdr r, A (.deserialize data hdr) r →
    r = lib.deserialize data hdr ∨ Failed fails r
  listSet : ∀ list entry r, A (.listSet list entry) r →
    r = .ok (lib.listSet list entry) ∨ Failed fails r

/-- The part of it that is about memory: allocations and the lists that libnvram makes. -/
structure Allocates (fails : Prop) (A : (o : Call) → Call.Res o → Prop) : Prop where
  malloc : ∀ n r, A (.malloc n) r → r.isSome ∨ fails
  listSet : ∀ list entry r, A (.listSet list entry) r →
    r = .ok (lib.listSet list entry) ∨ Failed fails r

variable {lib} in
theorem Truthful.allocates {v : View} {fails : Prop} {A : (o : Call) → Call.Res o → Prop}
    (hA : Truthful lib v fails A) : Allocates lib fails A where
  malloc := hA.malloc
  listSet := hA.listSet

/-- No allocation fails. -/
def Allocated : (o : Call) → Call.Res o → Prop
  | .malloc _, r => r.isSome
  | .listSet list entry, r => r = .ok (lib.listSet list entry)
  | _, _ => True

theorem allocates_allocated : Allocates lib False (Allocated lib) where
  malloc _ _ h := Or.inl h
  listSet _ _ _ h := Or.inl h

theorem truthful_answers (v : View) : Truthful lib v False (Answers lib v) where
  malloc _ _ h := Or.inl h
  mallocStruct _ h := Or.inl h
  openLock _ _ h := Or.inl h
  flock _ _ h := Or.inl h
  close _ _ h := Or.inl h
  unlink _ _ h := Or.inl h
  init _ _ _ h hsection := Or.inl (h hsection)
  size _ _ _ h hpriv := Or.inl (h hpriv)
  read_long _ _ _ _ h hpriv := (h hpriv).1
  read _ _ _ _ h hpriv hle hne := Or.inl ((h hpriv).2 hle hne)
  deserialize _ _ _ h := Or.inl h
  listSet _ _ _ h := Or.inl h

end

end Nvram
