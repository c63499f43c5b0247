import Nvram.Format.V2
import Nvram.Libnvram.Plain

/-!
# What a successful v2 commit has written

A run of `v2Commit` is determined by the answers to its calls.  A return value of 0 means
that the image of the list went to the section the transaction names, and to the other one
when the counter is reset, unless the serialisation produced nothing: then the error is
logged and 0 is returned all the same.
-/

namespace Nvram

open Effects

namespace V2Nvram

/-- Whether the sections are written in turn. -/
def Both (nvram : V2Nvram) : Prop := nvram.privA.isSome ∧ nvram.privB.isSome

instance (nvram : V2Nvram) : Decidable nvram.Both := inferInstanceAs (Decidable (_ ∧ _))

/-- The section of the first write. -/
def target (nvram : V2Nvram) (op : LibnvramOperation) : Option NvramPriv :=
  if nvram.Both then (if op.writeA then nvram.privA else nvram.privB)
  else (if nvram.privA.isSome then nvram.privA else nvram.privB)

/-- The section of the second write. -/
def other (nvram : V2Nvram) (op : LibnvramOperation) : Option NvramPriv :=
  if op.writeA then nvram.privB else nvram.privA

variable {nvram : V2Nvram} {op : LibnvramOperation} {priv : NvramPriv}

theorem priv_of_target (h : nvram.target op = some priv) :
    nvram.privA = some priv ∨ nvram.privB = some priv := by
  unfold target at h
  split_ifs at h
  · exact Or.inl h
  · exact Or.inr h
  · exact Or.inl h
  · exact Or.inr h

theorem priv_of_other (h : nvram.other op = some priv) :
    nvram.privA = some priv ∨ nvram.privB = some priv := by
  unfold other at h
  split_ifs at h
  · exact Or.inr h
  · exact Or.inl h

end V2Nvram

theorem v2Write_eq (nvram : V2Nvram) (op : LibnvramOperation) (buf : Bytes) (size : UInt32) :
    v2Write nvram op buf size = do
      match ← writeBuf nvram.interface (nvram.target op) buf size with
      | .error e => return .error e
      | .ok () =>
        if nvram.Both ∧ op.counterReset then
          writeBuf nvram.interface (nvram.other op) buf size
        else
          return .ok () := by
  by_cases hboth : nvram.Both
  · have hnone : ¬ (nvram.privA.isNone ∨ nvram.privB.isNone) := by
      simpa [V2Nvram.Both, Option.isSome_iff_ne_none] using hboth
    unfold v2Write V2Nvram.target V2Nvram.other
    rw [if_neg hnone, if_pos hboth]
    refine bind_congr fun r => ?_
    cases r with
    | error e => rfl
    | ok u => simp only [hboth, true_and]
  · have hnone : nvram.privA.isNone ∨ nvram.privB.isNone := by
      by_contra h
      exact hboth (by simpa [V2Nvram.Both, Option.isSome_iff_ne_none] using h)
    simp only [v2Write, if_pos hnone, V2Nvram.target, hboth, false_and, if_false]
    conv_lhs => rw [← bind_pure (writeBuf _ _ _ _)]
    congr 1
    funext r
    cases r <;> rfl

section

variable (lib : Libnvram) (nvram : V2Nvram) (list : List Entry)

/-- The operation and the header of the next transaction. -/
def commitPlan : LibnvramOperation × LibnvramHeader := lib.nextTransaction nvram.trans listHeader

/-- What `libnvram_serialize` makes of the list for this commit. -/
def commitImage : Serialized (lib.serializeSize list) :=
  lib.serialize list (lib.serializeSize list) (commitPlan lib nvram).2

/-- A write of a buffer that starts with `image` returned success. -/
def Written (evs : List CallEvent) (interface : Interface) (priv : Option NvramPriv)
    (image : Bytes) : Prop :=
  ∃ buf, image <+: buf ∧ (⟨.write interface priv buf, .ok ()⟩ : CallEvent) ∈ evs

/-- The image of the list is where the transaction puts it. -/
def Stored (evs : List CallEvent) : Prop :=
  let image := (commitImage lib nvram list).bytes
  let op := (commitPlan lib nvram).1
  Written evs nvram.interface (nvram.target op) image ∧
    (nvram.Both → op.counterReset → Written evs nvram.interface (nvram.other op) image)

/-- The buffer was allocated, and `libnvram_serialize` produced nothing to put in it. -/
def SerializeRefused (evs : List CallEvent) : Prop :=
  (∃ mem, (⟨.malloc (lib.serializeSize list).toNat, some mem⟩ : CallEvent) ∈ evs) ∧
    (commitImage lib nvram list).bytes = []

end

/-! ### The writes -/

theorem writeBuf_ok_written {interface : Interface} {priv : Option NvramPriv} {buf : Bytes}
    {size : UInt32} {evs : List CallEvent}
    (h : Runs (writeBuf interface priv buf size) evs (.ok ())) :
    (⟨.write interface priv buf, .ok ()⟩ : CallEvent) ∈ evs := by
  simp only [writeBuf, Interface.sectionOf_bind, prDbg_bind, Interface.write_bind,
    runs_op_iff] at h
  obtain ⟨_, _, rfl, _, _, rfl, r, rest, rfl, h⟩ := h
  cases r with
  | error e =>
      simp only [prErr_bind, runs_op_iff, Prog.pure_eq, runs_ret_iff] at h
      obtain ⟨_, _, _, _, _, _, _, h⟩ := h
      cases h
  | ok u => simp

theorem v2Write_ok_stored {nvram : V2Nvram} {op : LibnvramOperation} {buf : Bytes}
    {size : UInt32} {evs : List CallEvent} (h : Runs (v2Write nvram op buf size) evs (.ok ())) :
    (⟨.write nvram.interface (nvram.target op) buf, .ok ()⟩ : CallEvent) ∈ evs ∧
      (nvram.Both → op.counterReset →
        (⟨.write nvram.interface (nvram.other op) buf, .ok ()⟩ : CallEvent) ∈ evs) := by
  rw [v2Write_eq, runs_bind_iff] at h
  obtain ⟨evs₁, evs₂, r, rfl, hfirst, hrest⟩ := h
  cases r with
  | error e =>
      obtain ⟨_, hr⟩ := runs_ret_iff.mp hrest
      cases hr
  | ok u =>
      refine ⟨List.mem_append_left _ (writeBuf_ok_written hfirst), fun hboth hreset => ?_⟩
      simp only [hboth, hreset, and_self, if_true] at hrest
      exact List.mem_append_right _ (writeBuf_ok_written hrest)

/-! ### The commit -/

section

variable {lib : Libnvram} {nvram : V2Nvram} {list : List Entry} {evs : List CallEvent}
  {r : Except Errno Unit × V2Nvram}

/-- `v2_commit` in terms of its plan and its image. -/
theorem v2Commit_eq (lib : Libnvram) (nvram : V2Nvram) (list : List Entry) :
    v2Commit lib nvram list = do
      let size := lib.serializeSize list
      match ← malloc size.toNat with
      | none =>
        prErr "failed allocating %u byte write buffer\n" [.num size.toNat]
        return (.error Errno.enomem, nvram)
      | some mem =>
        let image := (commitImage lib nvram list).bytes
        if image.length = 0 then
          prErr "failed serializing nvram data\n" []
          return (.ok (), nvram)
        else
          match ← v2Write nvram (commitPlan lib nvram).1
            (image ++ mem.val.drop image.length) size with
          | .error e => return (.error e, nvram)
          | .ok () =>
            let trans := lib.updateTransaction nvram.trans (commitPlan lib nvram).1
              (commitImage lib nvram list).hdr
            prDbg "%s: active\n" [.lit (nvramActiveStr trans.active)]
            return (.ok (), { nvram with trans := trans }) := rfl

/-- The three ways through `v2_commit`. -/
theorem v2Commit_cases (h : Runs (v2Commit lib nvram list) evs r) :
    ((∃ e, r.1 = .error e) ∧
        ∀ mem, (⟨.malloc (lib.serializeSize list).toNat, some mem⟩ : CallEvent) ∉ evs) ∨
      (r.1 = .ok () ∧ SerializeRefused lib nvram list evs ∧
        ∀ i p buf, (⟨.write i p buf, .ok ()⟩ : CallEvent) ∉ evs) ∨
      ((commitImage lib nvram list).bytes ≠ [] ∧ (r.1 = .ok () → Stored lib nvram list evs)) := by
  simp only [v2Commit_eq, malloc_bind, runs_op_iff] at h
  obtain ⟨m, rest, rfl, h⟩ := h
  cases m with
  | none =>
      left
      simp only [prErr_bind, runs_op_iff, Prog.pure_eq, runs_ret_iff] at h
      obtain ⟨_, _, rfl, rfl, rfl⟩ := h
      refine ⟨⟨_, rfl⟩, fun mem hmem => ?_⟩
      simp at hmem
  | some mem =>
      right
      by_cases hempty : (commitImage lib nvram list).bytes = []
      · left
        simp only [hempty, List.length_nil, if_true, prErr_bind, runs_op_iff, Prog.pure_eq,
          runs_ret_iff] at h
        obtain ⟨_, _, rfl, rfl, rfl⟩ := h
        refine ⟨rfl, ⟨⟨mem, by simp⟩, hempty⟩, fun i p buf hmem => ?_⟩
        simp at hmem
      · right
        refine ⟨hempty, fun hok => ?_⟩
        simp only [List.length_eq_zero_iff, hempty, if_false, runs_bind_iff] at h
        obtain ⟨evs₁, evs₂, w, rfl, hwrite, hrest⟩ := h
        cases w with
        | error e =>
            obtain ⟨_, hr⟩ := runs_ret_iff.mp hrest
            rw [hr] at hok
            cases hok
        | ok u =>
            obtain ⟨htarget, hother⟩ := v2Write_ok_stored hwrite
            have hsub : ∀ ev ∈ evs₁, ev ∈ (⟨.malloc (lib.serializeSize list).toNat,
                some mem⟩ : CallEvent) :: (evs₁ ++ evs₂) := fun ev hev => by simp [hev]
            exact ⟨⟨_, List.prefix_append _ _, hsub _ htarget⟩, fun hboth hreset =>
              ⟨_, List.prefix_append _ _, hsub _ (hother hboth hreset)⟩⟩

/-- A commit that returns 0 has stored the list, unless the serialisation was refused. -/
theorem v2Commit_ok_stored_or_refused (h : Runs (v2Commit lib nvram list) evs r)
    (hok : r.1 = .ok ()) : Stored lib nvram list evs ∨ SerializeRefused lib nvram list evs := by
  rcases v2Commit_cases h with ⟨⟨e, he⟩, _⟩ | ⟨_, hrefused, _⟩ | ⟨_, hstored⟩
  · rw [he] at hok
    cases hok
  · exact Or.inr hrefused
  · exact Or.inl (hstored hok)

/-- In every run a return value of 0 means a stored list exactly when the serialisation was
not refused. -/
theorem v2Commit_ok_imp_stored_iff (h : Runs (v2Commit lib nvram list) evs r) :
    (r.1 = .ok () → Stored lib nvram list evs) ↔ ¬ SerializeRefused lib nvram list evs := by
  constructor
  · rintro hstored ⟨⟨mem, hmem⟩, hempty⟩
    rcases v2Commit_cases h with ⟨_, hno⟩ | ⟨hok, _, hnone⟩ | ⟨hne, _⟩
    · exact hno mem hmem
    · obtain ⟨buf, _, hbuf⟩ := (hstored hok).1
      exact hnone _ _ _ hbuf
    · exact hne hempty
  · intro hnot hok
    exact (v2Commit_ok_stored_or_refused h hok).resolve_right hnot

end

/-! ### Evaluated on a plain library -/

/-- A handle on the files `a` and `b`, with `a` active under counter 1. -/
def sampleNvram : V2Nvram where
  interface := .file
  trans := Plain.initTransaction (sampleImage 1) []
  privA := some ⟨lit "a", ⟨0, none, none⟩⟩
  privB := some ⟨lit "b", ⟨1, none, none⟩⟩

/-- Every call succeeds. -/
def obliging : Handler callSig Unit
  | .malloc n, u => (some (zeros n), u)
  | .mallocStruct, u => (true, u)
  | .errnoIsErange, u => (false, u)
  | .openLock _, u => (.ok 0, u)
  | .flock _, u => (.ok (), u)
  | .close _, u => (.ok (), u)
  | .unlink _, u => (.ok (), u)
  | .listSet list _, u => (.ok list, u)
  | .deserialize _ _, u => (.ok [], u)
  | .init _ _, u => (.ok ⟨0, none, none⟩, u)
  | .size _ _, u => (.ok 0, u)
  | .read _ _ n, u => (.ok (zeros n), u)
  | .write _ _ _, u => (.ok (), u)
  | .sectionOf _ _, u => (none, u)
  | .enableDebug, u | .printDebug _ _, u | .fprintfStderr _ _, u | .print _, u
  | .printUsage _, u | .usleep _, u | .destroy _ _, u => ((), u)

theorem v2Commit_ok_imp_stored_iff_sample :
    ((run obliging (v2Commit plainLibnvram sampleNvram sampleList) ()).1.1 = .ok () →
      Stored plainLibnvram sampleNvram sampleList
        (trace obliging (v2Commit plainLibnvram sampleNvram sampleList) ())) ↔
      ¬ SerializeRefused plainLibnvram sampleNvram sampleList
        (trace obliging (v2Commit plainLibnvram sampleNvram sampleList) ()) :=
  v2Commit_ok_imp_stored_iff (runs_trace obliging _ ())

/-- A library whose serialisation fails. -/
def refusingLibnvram : Libnvram :=
  { plainLibnvram with serialize := fun _ size hdr => ⟨[], Serialized.nil_fits size, hdr⟩ }

/-- A commit whose serialisation fails returns 0 and writes nothing. -/
theorem v2Commit_ok_without_write :
    ∃ evs nvram, Runs (v2Commit refusingLibnvram sampleNvram sampleList) evs (.ok (), nvram) ∧
      ¬ Stored refusingLibnvram sampleNvram sampleList evs := by
  refine ⟨_, _, runs_trace obliging (v2Commit refusingLibnvram sampleNvram sampleList) (), ?_⟩
  rintro ⟨⟨buf, _, hmem⟩, _⟩
  simp [v2Commit, trace, obliging, refusingLibnvram] at hmem

end Nvram
