import Nvram.V2.Slots
import Nvram.Machine

/-!
# Sessions on a healthy outside

What `v2Init` and `v2Commit` do where nothing but a write can fail: an init loads what the
contents say and changes nothing, and a commit stores the image where its plan says, or fails
on the first section where the image does not fit.
-/

namespace Nvram

open Effects

namespace Healthy

variable {lib : Libnvram} {σ : Type} {i : Interface} {h : Handler callSig σ}

/-- `v2_init` on sections of the outside. -/
theorem run_v2Init (H : Healthy lib i h) {sectionA sectionB : Option CString}
    (hA : ∀ p, configured sectionA = some p → H.Section p)
    (hB : ∀ p, configured sectionB = some p → H.Section p) (s : σ) :
    InitResult (H.view s) i sectionA sectionB (run h (v2Init lib i sectionA sectionB) s).1
        (v2Load lib (H.contents s) sectionA sectionB) ∧
      H.Same s (run h (v2Init lib i sectionA sectionB) s).2 := by
  have hreads : Confined (Call.Reads i fun _ => True) _ (v2Init lib i sectionA sectionB) :=
    reads_v2Init lib (fun _ _ => trivial) fun _ _ => trivial
  exact H.run_reads hreads (under_v2Init hA hB)

/-- What an init that returned 0 says about the contents. -/
theorem of_run_v2Init (H : Healthy lib i h) {sectionA sectionB : Option CString}
    (hA : ∀ p, configured sectionA = some p → H.Section p)
    (hB : ∀ p, configured sectionB = some p → H.Section p) {s t : σ} {nvram : V2Nvram}
    {list : List Entry}
    (hinit : run h (v2Init lib i sectionA sectionB) s = (.ok (nvram, list), t)) :
    H.Same s t ∧ ∃ trans, v2Load lib (H.contents s) sectionA sectionB = some (trans, list) ∧
      nvram.OpenOn (H.view s) i sectionA sectionB trans := by
  obtain ⟨hresult, hsame⟩ := H.run_v2Init hA hB s
  rw [hinit] at hresult hsame
  exact ⟨hsame, hresult.of_ok⟩

/-- An init returns 0 with a list exactly when that list is loaded from the contents. -/
theorem run_v2Init_ok_iff (H : Healthy lib i h) {sectionA sectionB : Option CString}
    (hA : ∀ p, configured sectionA = some p → H.Section p)
    (hB : ∀ p, configured sectionB = some p → H.Section p) (s : σ) (list : List Entry) :
    (∃ nvram, (run h (v2Init lib i sectionA sectionB) s).1 = .ok (nvram, list)) ↔
      ∃ trans, v2Load lib (H.contents s) sectionA sectionB = some (trans, list) := by
  constructor
  · rintro ⟨nvram, hok⟩
    obtain ⟨_, trans, hload, _⟩ := H.of_run_v2Init hA hB (Prod.ext hok rfl)
    exact ⟨trans, hload⟩
  · rintro ⟨trans, hload⟩
    have hresult := (H.run_v2Init hA hB s).1
    rw [hload] at hresult
    obtain ⟨nvram, hok, _⟩ := hresult
    exact ⟨nvram, hok⟩

theorem run_writeBuf (H : Healthy lib i h) {priv : NvramPriv} (hpriv : H.Handle priv)
    (buf : Bytes) (size : UInt32) (s : σ) :
    ∃ r t, run h (writeBuf i (some priv) buf size) s = (r, t) ∧
      (H.Fits priv.path buf → r = .ok ()) ∧ (¬ H.Fits priv.path buf → ∃ e, r = .error e) ∧
      H.contents t = H.storeAt (H.contents s) priv.path buf ∧ H.stdout t = H.stdout s := by
  have hsection : (Call.sectionOf i (some priv)).Reads i fun _ => True :=
    Call.reads_sectionOf fun _ _ => trivial
  simp only [writeBuf, Interface.sectionOf_bind, prDbg_bind, Interface.write_bind, run_op]
  generalize hs : (h (.printDebug _ _) (h (.sectionOf i (some priv)) s).2).2 = u
  have hsame : H.Same s u := by
    rw [← hs]
    exact (H.same_of_reads hsection s).trans (H.same_of_inner (by simp) _)
  have hfits := H.succeeds priv buf u hpriv
  have hrefused := H.fails priv buf u hpriv
  have hcontents := H.stores priv buf u hpriv
  have hstdout : H.stdout (h (.write i (some priv) buf) u).2 = H.stdout u ++ [] :=
    H.printed (.write i (some priv) buf) u (by simp [Call.interface?])
  rw [hsame.1] at hcontents
  rw [hsame.2, List.append_nil] at hstdout
  cases hw : (h (.write i (some priv) buf) u).1 with
  | ok done =>
      rw [hw] at hfits hrefused
      exact ⟨.ok (), _, rfl, fun _ => rfl, hrefused, hcontents, hstdout⟩
  | error e =>
      rw [hw] at hfits
      generalize (h (.write i (some priv) buf) u).2 = t at hcontents hstdout ⊢
      have hlog : ∀ fmt args, H.Same t
          (h (.fprintfStderr fmt args) (h (.sectionOf i (some priv)) t).2).2 := fun fmt args =>
        (H.same_of_reads hsection t).trans (H.same_of_inner (by simp) _)
      exact ⟨.error e, _, rfl, hfits, fun _ => ⟨e, rfl⟩, (hlog _ _).1.trans hcontents,
        (hlog _ _).2.trans hstdout⟩

/-! ### Commits -/

section

variable (H : Healthy lib i h) (hi : lib.ImageLaws) {nvram : V2Nvram}
  (hinterface : nvram.interface = i) {list : List Entry}
  (himage : lib.image list (commitPlan lib nvram).2 ≠ [])

include hi himage

/-- `v2_commit` comes to its writes with the image as the whole buffer. -/
theorem run_v2Commit_eq (s : σ) :
    ∃ t, H.Same s t ∧ run h (v2Commit lib nvram list) s = run h (do
      match ← v2Write nvram (commitPlan lib nvram).1 (lib.image list (commitPlan lib nvram).2)
          (lib.serializeSize list) with
      | .error e => return (.error e, nvram)
      | .ok () =>
        let trans := lib.updateTransaction nvram.trans (commitPlan lib nvram).1
          (commitImage lib nvram list).hdr
        prDbg "%s: active\n" [.lit (nvramActiveStr trans.active)]
        return (.ok (), { nvram with trans := trans })) t := by
  have hmem := H.answers (.malloc (lib.serializeSize list).toNat) s (by simp [Call.interface?]) rfl
  have hsame := H.same_of_inner (Call.inner_malloc (lib.serializeSize list).toNat) s
  have hbytes : (commitImage lib nvram list).bytes = lib.image list (commitPlan lib nvram).2 := rfl
  refine ⟨_, hsame, ?_⟩
  rw [v2Commit_eq, hbytes]
  simp only [malloc_bind, run_op]
  obtain ⟨mem, hsome⟩ := Option.isSome_iff_exists.mp hmem
  -- the image fills the buffer, so nothing of the memory is left in it
  have hrest : mem.val.drop (lib.image list (commitPlan lib nvram).2).length = [] := by
    rw [(hi.good list _ himage).length]
    exact List.drop_of_length_le (by rw [mem.property])
  simp only [hsome, List.length_eq_zero_iff, himage, if_false]
  rewrite [hrest, List.append_nil]
  rfl

include hinterface

/-- Where the image does not fit the first section the commit fails, and only that section
has changed. -/
theorem run_v2Commit_fails {priv : NvramPriv}
    (htarget : nvram.target (commitPlan lib nvram).1 = some priv) (hpriv : H.Handle priv)
    (hbig : ¬ H.Fits priv.path (lib.image list (commitPlan lib nvram).2)) (s : σ) :
    ∃ e t, run h (v2Commit lib nvram list) s = ((.error e, nvram), t) ∧
      H.contents t = H.storeAt (H.contents s) priv.path
        (lib.image list (commitPlan lib nvram).2) := by
  obtain ⟨u, hsame, hrun⟩ := H.run_v2Commit_eq hi himage s
  obtain ⟨r, t, hwrite, _, hfails, hcontents, _⟩ := H.run_writeBuf hpriv
    (lib.image list (commitPlan lib nvram).2) (lib.serializeSize list) u
  obtain ⟨e, rfl⟩ := hfails hbig
  rw [hsame.1] at hcontents
  refine ⟨e, t, ?_, hcontents⟩
  rw [hrun, v2Write_eq, htarget, hinterface, run_bind, run_bind, hwrite]
  rfl

end

end Healthy

end Nvram
