import Nvram.V2.PowerFail
import Nvram.Program.Faults

/-!
# Where a commit can stop on sections of any size

Sections that may change their size with a write, as regular files and EFI variables do.  Every
call can fail and the power can go at every call.  Wherever a commit stops, it has taken a turn of
the two-slot protocol on its sections and left everything else alone.
-/

namespace Nvram

open Effects TwoSlot

section

variable (lib : Libnvram)

/-- The write completed: the section starts with `buf`. -/
def Placed (path : CString) (buf : Bytes) (s t : Contents) : Prop :=
  ∃ new, buf <+: new ∧ t = Function.update s path new

/-- The write had no effect, or left content that does not verify. -/
def Damaged (path : CString) (s t : Contents) : Prop :=
  t = s ∨ ∃ new, ¬ Verifies lib new ∧ t = Function.update s path new

/-- Sections of one interface on which every call can fail and the power can go at every call; a
success says what the bytes are. -/
def powerStore : World callSig Contents where
  step s o r t :=
    match o, r with
    | .write _ (some priv) buf, r =>
      (r = .ok () ∧ Placed priv.path buf s t) ∨ (∃ e, r = .error e) ∧ Damaged lib priv.path s t
    | o, r => Honest lib ⟨fun _ => True, fun _ => True, s⟩ o r ∧ t = s
  halt s o t :=
    match o with
    | .write _ (some priv) buf => Placed priv.path buf s t ∨ Damaged lib priv.path s t
    | _ => t = s

end

section

variable {lib : Libnvram} {s t : Contents} {o : Call} {r : Call.Res o}

theorem powerStore_step (ho : o.isWrite = false) (h : (powerStore lib).step s o r t) :
    Honest lib ⟨fun _ => True, fun _ => True, s⟩ o r ∧ t = s := by
  cases o with
  | write i priv buf => cases ho
  | _ => exact h

theorem powerStore_halt (ho : o.isWrite = false) (h : (powerStore lib).halt s o t) : t = s := by
  cases o with
  | write i priv buf => cases ho
  | _ => exact h

/-- Every call can be stopped without effect. -/
theorem powerStore_halt_self (lib : Libnvram) (s : Contents) (o : Call) :
    (powerStore lib).halt s o s := by
  cases o with
  | write i priv buf =>
      cases priv with
      | none => rfl
      | some priv => exact Or.inr (Or.inl rfl)
  | _ => rfl

/-- A call that is no write leaves the sections alone, whatever is answered. -/
theorem wp_store_op {α : Type} {Q : α → Contents → Prop} {C : Contents → Prop}
    {k : Call.Res o → NProg α} (ho : o.isWrite = false) (hC : C s)
    (hk : ∀ r, wp (powerStore lib) Q C (k r) s) :
    wp (powerStore lib) Q C (Prog.op (S := callSig) o k) s := by
  refine ⟨fun t ht => ?_, fun r t ht => ?_⟩
  · rw [powerStore_halt ho ht]
    exact hC
  · rw [(powerStore_step ho ht).2]
    exact hk r

end

/-! ### One write -/

section

variable {lib : Libnvram} {path p : CString} {image : Bytes} {s t : Contents}

theorem Placed.elsewhere (h : Placed path image s t) (hp : p ≠ path) : t p = s p := by
  obtain ⟨new, -, rfl⟩ := h
  exact Function.update_of_ne hp _ _

theorem Damaged.elsewhere (h : Damaged lib path s t) (hp : p ≠ path) : t p = s p := by
  rcases h with rfl | ⟨new, -, rfl⟩
  · rfl
  · exact Function.update_of_ne hp _ _

theorem Damaged.trans {u : Contents} (hst : Damaged lib path s t) (htu : Damaged lib path t u) :
    Damaged lib path s u := by
  rcases htu with rfl | ⟨new, hnew, rfl⟩
  · exact hst
  · refine Or.inr ⟨new, hnew, ?_⟩
    rcases hst with rfl | ⟨old, -, rfl⟩
    · rfl
    · rw [Function.update_idem]

theorem Damaged.placed {u : Contents} {buf : Bytes} (hst : Damaged lib path s t)
    (htu : Placed path buf t u) : Placed path buf s u := by
  obtain ⟨new, hnew, rfl⟩ := htu
  refine ⟨new, hnew, ?_⟩
  rcases hst with rfl | ⟨old, -, rfl⟩
  · rfl
  · rw [Function.update_idem]

theorem Placed.of_prefix {buf : Bytes} (h : Placed path buf s t) (hp : image <+: buf) :
    Placed path image s t := by
  obtain ⟨new, hnew, rfl⟩ := h
  exact ⟨new, hp.trans hnew, rfl⟩

theorem Placed.slot (hi : lib.ImageLaws) {list : List Entry} {hdr : LibnvramHeader}
    (h : Placed path (lib.image list hdr) s t) (himage : lib.image list hdr ≠ []) :
    slotOf lib (t path) = some (hdr.counter.toNat, list) := by
  obtain ⟨new, hnew, rfl⟩ := h
  rw [Function.update_self]
  exact slotOf_image hi himage hnew

theorem Damaged.spoiled (h : Damaged lib path s t) :
    Spoiled (slotOf lib (s path)) (slotOf lib (t path)) := by
  rcases h with rfl | ⟨new, hnew, rfl⟩
  · exact Or.inl rfl
  · right
    rw [Function.update_self]
    exact dataSlot_eq_none_of_not_verified hnew

theorem wp_writeBuf_store {i : Interface} {priv : NvramPriv} {buf : Bytes} {size : UInt32}
    {Q : Except Errno Unit → Contents → Prop} {C : Contents → Prop} (hstart : C s)
    (hdone : ∀ t, Placed priv.path buf s t → Q (.ok ()) t ∧ C t)
    (hfailed : ∀ t, Damaged lib priv.path s t → (∀ e, Q (.error e) t) ∧ C t) :
    wp (powerStore lib) Q C (writeBuf i (some priv) buf size) s := by
  simp only [writeBuf, Interface.sectionOf_bind, Interface.write_bind]
  refine wp_store_op rfl hstart fun _ => wp_store_op rfl hstart fun _ => ?_
  refine ⟨fun t ht => ?_, fun r t ht => ?_⟩
  · exact ht.elim (fun ht => (hdone t ht).2) fun ht => (hfailed t ht).2
  · rcases ht with ⟨rfl, ht⟩ | ⟨⟨e, rfl⟩, ht⟩
    · exact (hdone t ht).1
    · obtain ⟨hQ, hC⟩ := hfailed t ht
      exact wp_store_op rfl hC fun _ => wp_store_op rfl hC fun _ => hQ e

end

/-! ### One commit -/

/-- What a commit leaves: a turn of the two slots, and nothing else. -/
structure CommitLeaves (lib : Libnvram) (target other : CString) (list : List Entry)
    (hdr : LibnvramHeader) (reset : Bool) (s t : Contents) (acked : Bool) : Prop where
  slots : TwoSlot.Commit list hdr.counter.toNat reset (slotOf lib (s target)) (slotOf lib (s other))
    (slotOf lib (t target)) (slotOf lib (t other)) acked
  elsewhere : ∀ path, path ≠ target → path ≠ other → t path = s path

section

variable {lib : Libnvram} {target other : CString} {list : List Entry} {hdr : LibnvramHeader}
  {reset acked : Bool} {s t u : Contents}

theorem Damaged.commit (h : Damaged lib target s t) (hne : other ≠ target) :
    CommitLeaves lib target other list hdr reset s t false := by
  refine ⟨?_, fun path hT _ => h.elsewhere hT⟩
  rw [h.elsewhere hne]
  exact .first h.spoiled

variable (hi : lib.ImageLaws) (himage : lib.image list hdr ≠ []) (hne : other ≠ target)

include hi himage hne

/-- After the first write: the commit is done unless a second write is due. -/
theorem Placed.commit (h : Placed target (lib.image list hdr) s t)
    (hacked : acked = true → reset = false) :
    CommitLeaves lib target other list hdr reset s t acked := by
  refine ⟨?_, fun path hT _ => h.elsewhere hT⟩
  rw [h.elsewhere hne, h.slot hi himage]
  cases acked with
  | false => exact .between
  | true => exact .single (hacked rfl)

/-- After the second write, which is only made on a reset of the counter. -/
theorem Placed.commit_both (h : Placed target (lib.image list hdr) s t) (hreset : reset = true)
    (h' : Placed other (lib.image list hdr) t u) :
    CommitLeaves lib target other list hdr reset s u acked := by
  refine ⟨?_, fun path hT hO => (h'.elsewhere hO).trans (h.elsewhere hT)⟩
  rw [h'.slot hi himage, h'.elsewhere hne.symm, h.slot hi himage]
  exact .both acked hreset

theorem Placed.commit_second (h : Placed target (lib.image list hdr) s t) (hreset : reset = true)
    (h' : Damaged lib other t u) : CommitLeaves lib target other list hdr reset s u false := by
  refine ⟨?_, fun path hT hO => (h'.elsewhere hO).trans (h.elsewhere hT)⟩
  have hspoiled := h'.spoiled
  rw [h.elsewhere hne] at hspoiled
  rw [h'.elsewhere hne.symm, h.slot hi himage]
  exact .second hreset hspoiled

end

section

variable {lib : Libnvram} {nvram : V2Nvram} {list : List Entry} {s : Contents}
  {privT privO : NvramPriv}

theorem wp_v2Write_store (hi : lib.ImageLaws) {op : LibnvramOperation} {hdr : LibnvramHeader}
    {buf : Bytes} {size : UInt32} (hboth : nvram.Both) (htarget : nvram.target op = some privT)
    (hother : nvram.other op = some privO) (hne : privO.path ≠ privT.path)
    (himage : lib.image list hdr ≠ []) (hp : lib.image list hdr <+: buf) :
    wp (powerStore lib)
      (fun r t => (r = .ok () → CommitLeaves lib privT.path privO.path list hdr op.counterReset s t
          true) ∧ CommitLeaves lib privT.path privO.path list hdr op.counterReset s t false)
      (fun t => CommitLeaves lib privT.path privO.path list hdr op.counterReset s t false)
      (v2Write nvram op buf size) s := by
  have hstart : Damaged lib privT.path s s := Or.inl rfl
  rw [v2Write_eq, htarget, wp_bind]
  refine wp_writeBuf_store (hstart.commit hne) (fun t ht => ?_) fun t ht => ?_
  · have hdone := ht.of_prefix hp
    have hbetween : CommitLeaves lib privT.path privO.path list hdr op.counterReset s t false :=
      hdone.commit hi himage hne fun h => by cases h
    refine ⟨?_, hbetween⟩
    dsimp only
    by_cases hreset : op.counterReset = true
    · simp only [hboth, hreset, and_self, if_true, hother]
      refine wp_writeBuf_store (hreset ▸ hbetween) (fun u hu => ?_) fun u hu => ?_
      · have hdone' := hu.of_prefix hp
        exact ⟨⟨fun _ => hdone.commit_both hi himage hne rfl hdone',
          hdone.commit_both hi himage hne rfl hdone'⟩, hdone.commit_both hi himage hne rfl hdone'⟩
      · have hsecond : CommitLeaves lib privT.path privO.path list hdr true s u false :=
          hdone.commit_second hi himage hne rfl hu
        refine ⟨fun e => ⟨fun h => ?_, hsecond⟩, hsecond⟩
        cases h
    · simp only [hreset, Bool.false_eq_true, and_false, if_false]
      exact ⟨fun _ => hdone.commit hi himage hne fun _ => rfl,
        hdone.commit hi himage hne fun _ => rfl⟩
  · refine ⟨fun e => ⟨fun h => ?_, ht.commit hne⟩, ht.commit hne⟩
    cases h

theorem wp_v2Commit_store (hi : lib.ImageLaws) (hboth : nvram.Both)
    (htarget : nvram.target (commitPlan lib nvram).1 = some privT)
    (hother : nvram.other (commitPlan lib nvram).1 = some privO) (hne : privO.path ≠ privT.path)
    (himage : lib.image list (commitPlan lib nvram).2 ≠ []) :
    wp (powerStore lib)
      (fun r t => CommitLeaves lib privT.path privO.path list (commitPlan lib nvram).2
        (commitPlan lib nvram).1.counterReset s t (acknowledged (some r)))
      (fun t => CommitLeaves lib privT.path privO.path list (commitPlan lib nvram).2
        (commitPlan lib nvram).1.counterReset s t false)
      (v2Commit lib nvram list) s := by
  have hstart : CommitLeaves lib privT.path privO.path list (commitPlan lib nvram).2
      (commitPlan lib nvram).1.counterReset s s false := Damaged.commit (Or.inl rfl) hne
  have hbytes : (commitImage lib nvram list).bytes ≠ [] := himage
  simp only [v2Commit_eq, malloc_bind, List.length_eq_zero_iff, hbytes, if_false]
  refine wp_store_op rfl hstart fun m => ?_
  cases m with
  | none =>
      simp only [prErr_bind]
      exact wp_store_op rfl hstart fun _ => hstart
  | some mem =>
      rw [wp_bind]
      refine wp_mono (fun r t hr => ?_) (fun t ht => ht)
        (wp_v2Write_store hi hboth htarget hother hne himage (List.prefix_append _ _))
      obtain ⟨hok, hstop⟩ := hr
      cases r with
      | error e => exact hstop
      | ok u =>
          simp only [prDbg_bind]
          exact wp_store_op rfl hstop fun _ => hok rfl

end

end Nvram
