import Nvram.Program.Invocation

/-!
# An outside on which anything may fail

The sections of every interface, on which each call may return an error and the process may be
stopped in each call.  A call that succeeds says what the bytes are, a write leaves in its
section what `left` allows after the content before and the buffer, and nothing else ever
changes.
-/

namespace Nvram

open Effects Errno

/-- The bytes in the sections of every interface. -/
abbrev Stores := Interface → Contents

/-- The stores after a section was changed. -/
def Stores.put (s : Stores) (i : Interface) (path : CString) (new : Bytes) : Stores :=
  Function.update s i (Function.update (s i) path new)

@[simp] theorem Stores.put_self (s : Stores) (i : Interface) (path : CString) (new : Bytes) :
    s.put i path new i path = new := by
  rw [put, Function.update_self, Function.update_self]

theorem Stores.put_of_ne (s : Stores) {i j : Interface} {path path' : CString} (new : Bytes)
    (h : ¬ (j = i ∧ path' = path)) : s.put i path new j path' = s j path' := by
  unfold put
  by_cases hj : j = i
  · subst hj
    have hpath : path' ≠ path := fun heq => h ⟨rfl, heq⟩
    rw [Function.update_self, Function.update_of_ne hpath]
  · rw [Function.update_of_ne hj]

section

variable (lib : Libnvram)

/-- A success says what the bytes are; every call may fail. -/
def Honest (v : View) : (o : Call) → Call.Res o → Prop
  | .init _ path, r => ∀ data, r = .ok data → v.Handle ⟨path, data⟩
  | .size _ (some priv), r => ∀ n, r = .ok n → n = (v.contents priv.path).length
  | .read _ (some priv) _, r => ∀ buf, r = .ok buf → buf.val <+: v.contents priv.path
  | .deserialize data hdr, r => ∀ list, r = .ok list → lib.deserialize data hdr = .ok list
  | .listSet list entry, r => ∀ list', r = .ok list' → list' = lib.listSet list entry
  | _, _ => True

theorem ok_or_failed {α : Type} (r : Except Errno α) : (∃ a, r = .ok a) ∨ Failed True r := by
  cases r with
  | ok a => exact Or.inl ⟨a, rfl⟩
  | error e => exact Or.inr ⟨trivial, e, rfl⟩

theorem truthful_honest (v : View) : Truthful lib v True (Honest lib v) where
  malloc _ _ _ := Or.inr trivial
  mallocStruct _ _ := Or.inr trivial
  openLock _ r _ := ok_or_failed r
  flock _ r _ := (ok_or_failed r).imp_left fun h => h.choose_spec
  close _ r _ := (ok_or_failed r).imp_left fun h => h.choose_spec
  unlink _ r _ := (ok_or_failed r).imp_left fun h => h.choose_spec
  init _ _ r h _ := by
    refine (ok_or_failed r).imp_left fun hok => ?_
    obtain ⟨data, rfl⟩ := hok
    exact ⟨data, rfl, h data rfl⟩
  size _ _ r h _ := by
    refine (ok_or_failed r).imp_left fun hok => ?_
    obtain ⟨n, rfl⟩ := hok
    rw [h n rfl]
  read_long _ _ n r h _ hlt := by
    rcases ok_or_failed r with ⟨buf, rfl⟩ | hfailed
    · have hle := (h buf rfl).length_le
      rw [buf.property] at hle
      omega
    · exact hfailed.2
  read _ _ n r h _ _ _ := by
    refine (ok_or_failed r).imp_left fun hok => ?_
    obtain ⟨buf, rfl⟩ := hok
    have hpre := List.prefix_iff_eq_take.mp (h buf rfl)
    rw [buf.property] at hpre
    exact ⟨buf, rfl, hpre⟩
  deserialize _ _ r h := by
    refine (ok_or_failed r).imp_left fun hok => ?_
    obtain ⟨list, rfl⟩ := hok
    exact (h list rfl).symm
  listSet _ _ r h := by
    refine (ok_or_failed r).imp_left fun hok => ?_
    obtain ⟨list, rfl⟩ := hok
    rw [h list rfl]

end

/-- A view on all sections of an interface. -/
def Stores.view (s : Stores) (i : Interface) : View := ⟨fun _ => True, fun _ => True, s i⟩

/-- What a call leaves of the stores, completed or not. -/
def Call.Leaves (left : Bytes → Bytes → Bytes → Prop) (s : Stores) : Call → Stores → Prop
  | .write i (some priv) buf, t => ∃ new, left (s i priv.path) buf new ∧ t = s.put i priv.path new
  | _, t => t = s

theorem Call.leaves_of_reads {left : Bytes → Bytes → Bytes → Prop} {s t : Stores} {o : Call}
    (ho : o.isWrite = false) (h : o.Leaves left s t) : t = s := by
  cases o with
  | write i priv buf => cases ho
  | _ => exact h

/-- Calls that answer for the stores or fail, and may be the last ones. -/
def faultWorld (lib : Libnvram) (left : Bytes → Bytes → Bytes → Prop) : World callSig Stores where
  step s o r t :=
    (∀ i, (∀ j, o.interface? = some j → j = i) → Honest lib (s.view i) o r) ∧ o.Leaves left s t
  halt s o t := o.Leaves left s t

/-- What is seen of it are the stores. -/
def faultWorld.observed (lib : Libnvram) (left : Bytes → Bytes → Bytes → Prop) (i : Interface) :
    Observed lib (faultWorld lib left) i True where
  Section _ := True
  Handle _ := True
  contents s := s i
  Same s t := t = s
  refl _ := rfl
  trans hst htu := htu.trans hst
  contents_eq h := by rw [h]
  Answer := Honest lib
  truthful := truthful_honest lib
  step s o r t ho h := ⟨h.1 i ho.1, Call.leaves_of_reads ho.2.1 h.2⟩
  halt s o t ho h := Call.leaves_of_reads ho.2.1 h

/-! ### The machine on regular files -/

section

variable (lib : Libnvram) (gpio : Option CString)
  (fill : (n : ℕ) → {buf : Bytes // buf.length = n})

variable {lib gpio fill}

end

end Nvram
