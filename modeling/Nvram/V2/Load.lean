import Nvram.Answers
import Nvram.Format.V2
import Nvram.Libnvram.Laws

/-!
# What v2 init loads

While nothing is written, what `v2Init` loads is a function of the bytes in the two sections:
under truthful answers its result is `v2Load`, or an error where there may be one.  Where
nothing fails the only way to an error, other than libnvram's own, is a section whose header
is valid and announces more bytes than the section has.
-/

namespace Nvram

open Effects

section

variable (lib : Libnvram)

/-- The data that `read_section` gets from a section with this content; `none` when the
header is valid and the content is shorter than the header says. -/
def sectionData (content : Bytes) : Option Bytes :=
  if lib.headerLen.toNat ≤ content.length then
    match lib.validateHeader (content.take lib.headerLen.toNat) with
    | some hdr =>
      if lib.dataSize hdr ≤ content.length then some (content.take (lib.dataSize hdr)) else none
    | none => some []
  else some []

/-- A section whose header is valid on its own and announces more than the section has. -/
def Oversized (content : Bytes) : Prop :=
  lib.headerLen.toNat ≤ content.length ∧
    ∃ hdr, lib.validateHeader (content.take lib.headerLen.toNat) = some hdr ∧
      content.length < lib.dataSize hdr

/-- The data of one side: none for a section that is not configured. -/
def sideData (contents : Contents) (path : Option CString) : Option Bytes :=
  match configured path with
  | none => some []
  | some path => sectionData lib (contents path)

/-- The list that `libnvram_deserialize` gives for the active section. -/
def activeList (a b : Bytes) : Except Errno (List Entry) :=
  let trans := lib.initTransaction a b
  if trans.active.a then lib.deserialize (a.drop lib.headerLen.toNat) trans.sectionA.hdr
  else if trans.active.b then lib.deserialize (b.drop lib.headerLen.toNat) trans.sectionB.hdr
  else .ok []

/-- The transaction and the list of `v2_init`. -/
def v2Load (contents : Contents) (sectionA sectionB : Option CString) :
    Option (LibnvramTransaction × List Entry) :=
  match sideData lib contents sectionA, sideData lib contents sectionB with
  | some a, some b =>
    match activeList lib a b with
    | .ok list => some (lib.initTransaction a b, list)
    | .error _ => none
  | _, _ => none

end

/-! ### Reading one section -/

section

variable {lib : Libnvram} {v : View} {interface : Interface} {fails : Prop}
  {A : (o : Call) → Call.Res o → Prop} (hA : Truthful lib v fails A)

theorem sectionData_eq_none_iff {content : Bytes} :
    sectionData lib content = none ↔ Oversized lib content := by
  by_cases hlen : lib.headerLen.toNat ≤ content.length
  · cases hhdr : lib.validateHeader (content.take lib.headerLen.toNat) with
    | none => simp [sectionData, Oversized, hlen, hhdr]
    | some hdr => simp [sectionData, Oversized, hlen, hhdr]
  · simp [sectionData, Oversized, hlen]

theorem sideData_congr {c c' : Contents} {path : Option CString}
    (h : ∀ p, configured path = some p → sectionData lib (c p) = sectionData lib (c' p)) :
    sideData lib c path = sideData lib c' path := by
  unfold sideData
  cases hpath : configured path with
  | none => rfl
  | some p => exact h p hpath

theorem v2Load_congr {c c' : Contents} {sectionA sectionB : Option CString}
    (hA : ∀ p, configured sectionA = some p → sectionData lib (c p) = sectionData lib (c' p))
    (hB : ∀ p, configured sectionB = some p → sectionData lib (c p) = sectionData lib (c' p)) :
    v2Load lib c sectionA sectionB = v2Load lib c' sectionA sectionB := by
  unfold v2Load
  rw [sideData_congr hA, sideData_congr hB]

theorem sideData_of_configured {c : Contents} {path : Option CString} {p : CString}
    (h : configured path = some p) : sideData lib c path = sectionData lib (c p) := by
  unfold sideData
  rw [h]

/-- An init loads what is active of the two data. -/
theorem v2Load_eq_some_iff {c : Contents} {sectionA sectionB : Option CString}
    {trans : LibnvramTransaction} {list : List Entry} :
    v2Load lib c sectionA sectionB = some (trans, list) ↔
      ∃ a b, sideData lib c sectionA = some a ∧ sideData lib c sectionB = some b ∧
        trans = lib.initTransaction a b ∧ activeList lib a b = .ok list := by
  unfold v2Load
  constructor
  · intro h
    split at h
    · rename_i a b ha hb
      split at h
      · rename_i list' hlist
        obtain ⟨rfl, rfl⟩ := Prod.mk.inj (Option.some.inj h)
        exact ⟨a, b, ha, hb, rfl, hlist⟩
      · cases h
    · cases h
  · intro h
    obtain ⟨a, b, ha, hb, rfl, hlist⟩ := h
    rw [ha, hb]
    simp only [hlist]

theorem content_ne_nil {content : Bytes} (h : lib.headerLen.toNat ≤ content.length) :
    content ≠ [] :=
  List.length_pos_iff.mp (lt_of_lt_of_le lib.headerLen_pos h)

include hA

theorem under_readHeader {priv : NvramPriv} (hpriv : v.Handle priv)
    (hlen : lib.headerLen.toNat ≤ (v.contents priv.path).length) :
    Under A
      (fun r => r = .ok (lib.validateHeader ((v.contents priv.path).take lib.headerLen.toNat)) ∨
        Failed fails r)
      (readHeader lib interface (some priv)) := by
  simp only [readHeader, malloc_bind, under_op]
  intro m hm
  cases m with
  | none =>
      have hfails : fails := (hA.malloc _ _ hm).resolve_left (by simp)
      exact Or.inr ⟨hfails, _, rfl⟩
  | some mem =>
      simp only [Interface.read_bind, under_op]
      intro r hr
      rcases hA.read _ _ _ r hr hpriv hlen (content_ne_nil hlen) with ⟨buf, rfl, hbuf⟩ | hfailed
      · left
        rw [hbuf]
      · obtain ⟨e, rfl⟩ := hfailed.2
        exact Or.inr (hfailed.error e)

theorem under_readSection {priv : NvramPriv} (hpriv : v.Handle priv) :
    Under A (fun r => Yields r (sectionData lib (v.contents priv.path)) ∨ Failed fails r)
      (readSection lib interface (some priv)) := by
  simp only [readSection, Interface.size_bind, under_op]
  intro r hr
  rcases hA.size _ _ r hr hpriv with rfl | hfailed
  swap
  · obtain ⟨e, rfl⟩ := hfailed.2
    simp only [Interface.sectionOf_bind, prErr_bind, under_op, Prog.pure_eq, under_ret]
    exact fun _ _ _ _ => Or.inr (hfailed.error e)
  by_cases hlen : lib.headerLen.toNat ≤ (v.contents priv.path).length
  · simp only [hlen, if_true]
    refine under_seq (under_readHeader hA hpriv hlen) fun r hr => ?_
    rcases hr with rfl | hfailed
    swap
    · obtain ⟨e, rfl⟩ := hfailed.2
      simp only [Interface.sectionOf_bind, prErr_bind, under_op, Prog.pure_eq, under_ret]
      exact fun _ _ _ _ => Or.inr (hfailed.error e)
    cases hhdr : lib.validateHeader ((v.contents priv.path).take lib.headerLen.toNat) with
    | none => simp [under_ret, Prog.pure_eq, Yields, sectionData, hlen, hhdr]
    | some hdr =>
        simp only [malloc_bind, under_op]
        intro m hm
        cases m with
        | none =>
            have hfails : fails := (hA.malloc _ _ hm).resolve_left (by simp)
            simp only [Interface.sectionOf_bind, prErr_bind, under_op, Prog.pure_eq, under_ret]
            exact fun _ _ _ _ => Or.inr ⟨hfails, _, rfl⟩
        | some mem =>
            simp only [Interface.read_bind, under_op]
            intro r hr
            by_cases hdata : lib.dataSize hdr ≤ (v.contents priv.path).length
            · rcases hA.read _ _ _ r hr hpriv hdata (content_ne_nil hlen) with
                ⟨buf, rfl, hbuf⟩ | hfailed
              · simp only [Prog.pure_eq, under_ret, Yields, sectionData, hlen, hhdr, hdata,
                  if_true, hbuf, true_or]
              · obtain ⟨e, rfl⟩ := hfailed.2
                simp only [Interface.sectionOf_bind, prErr_bind, under_op, Prog.pure_eq,
                  under_ret]
                exact fun _ _ _ _ => Or.inr (hfailed.error e)
            · obtain ⟨e, rfl⟩ := hA.read_long _ _ _ r hr hpriv (not_le.mp hdata)
              simp only [Interface.sectionOf_bind, prErr_bind, under_op, Prog.pure_eq, under_ret,
                Yields, sectionData, hlen, hhdr, hdata, if_true, if_false]
              exact fun _ _ _ _ => Or.inl ⟨e, rfl⟩
  · simp only [hlen, if_false, Prog.pure_eq, under_ret, Yields, sectionData, true_or]

/-- One side of `v2_init`: the handle keeps the path, the data is that of the section. -/
def SideResult (lib : Libnvram) (v : View) (fails : Prop) (path : Option CString)
    (r : Option NvramPriv × Except Errno Bytes) : Prop :=
  (∀ priv ∈ r.1, v.Handle priv) ∧
    (r.1.map NvramPriv.path = configured path ∧ Yields r.2 (sideData lib v.contents path) ∨
      Failed fails r.2)

theorem under_initSection {path : Option CString} (hsec : ∀ p, configured path = some p → v.Section p)
    (name : LibnvramActive) :
    Under A (SideResult lib v fails path) (initSection lib interface path name) := by
  cases path with
  | none => exact ⟨by simp, Or.inl ⟨rfl, rfl⟩⟩
  | some path =>
      by_cases hpath : 0 < path.strlen
      · simp only [initSection, hpath, if_true, initAndRead, Interface.init_bind]
        intro _ _ r hr
        rcases hA.init _ _ r hr (hsec path (by simp [configured, hpath])) with
          ⟨data, rfl, hpriv⟩ | hfailed
        swap
        · obtain ⟨e, rfl⟩ := hfailed.2
          exact fun _ _ => ⟨by simp, Or.inr (hfailed.error e)⟩
        simp only [Except.map]
        refine under_seq (under_readSection hA hpriv) fun r hr => ?_
        have hside : sideData lib v.contents (some path) = sectionData lib (v.contents path) := by
          simp [sideData, configured, hpath]
        rw [← hside] at hr
        have hhandle : ∀ priv ∈ some (NvramPriv.mk path data), v.Handle priv := by
          simpa using hpriv
        have hkept : (some (NvramPriv.mk path data)).map NvramPriv.path =
            configured (some path) := by simp [configured, hpath]
        cases r with
        | error e => exact ⟨hhandle, hr.imp_left fun hyields => ⟨hkept, hyields⟩⟩
        | ok buf =>
            simp only [prDbg_bind, under_op]
            exact fun _ _ => ⟨hhandle, hr.imp_left fun hyields => ⟨hkept, hyields⟩⟩
      · simp only [initSection, hpath, if_false]
        refine ⟨by simp, Or.inl ⟨?_, ?_⟩⟩
        · simp [configured, hpath]
        · simp [Yields, sideData, configured, hpath]

omit hA

/-! ### Both sections -/

/-- The handle of `v2_init` on two sections. -/
structure V2Nvram.OpenOn (v : View) (interface : Interface)
    (sectionA sectionB : Option CString) (trans : LibnvramTransaction) (nvram : V2Nvram) :
    Prop where
  interface : nvram.interface = interface
  trans : nvram.trans = trans
  pathA : nvram.privA.map NvramPriv.path = configured sectionA
  pathB : nvram.privB.map NvramPriv.path = configured sectionB
  handleA : ∀ priv ∈ nvram.privA, v.Handle priv
  handleB : ∀ priv ∈ nvram.privB, v.Handle priv

/-- The handles of an opened side are on its sections. -/
theorem V2Nvram.OpenOn.of_priv {v : View} {interface : Interface}
    {sectionA sectionB : Option CString} {trans : LibnvramTransaction} {nvram : V2Nvram}
    (hopen : nvram.OpenOn v interface sectionA sectionB trans) {priv : NvramPriv}
    (h : nvram.privA = some priv ∨ nvram.privB = some priv) :
    v.Handle priv ∧
      (configured sectionA = some priv.path ∨ configured sectionB = some priv.path) := by
  rcases h with hA | hB
  · refine ⟨hopen.handleA priv hA, Or.inl ?_⟩
    rw [← hopen.pathA, hA]
    rfl
  · refine ⟨hopen.handleB priv hB, Or.inr ?_⟩
    rw [← hopen.pathB, hB]
    rfl

/-- The result of `v2_init` for what it loaded. -/
def InitResult (v : View) (interface : Interface)
    (sectionA sectionB : Option CString) (r : Except Errno (V2Nvram × List Entry)) :
    Option (LibnvramTransaction × List Entry) → Prop
  | some loaded => ∃ nvram, r = .ok (nvram, loaded.2) ∧
      nvram.OpenOn v interface sectionA sectionB loaded.1
  | none => ∃ e, r = .error e

omit hA in
theorem InitResult.of_ok {v : View} {interface : Interface} {sectionA sectionB : Option CString}
    {nvram : V2Nvram} {list : List Entry} {o : Option (LibnvramTransaction × List Entry)}
    (h : InitResult v interface sectionA sectionB (.ok (nvram, list)) o) :
    ∃ trans, o = some (trans, list) ∧ nvram.OpenOn v interface sectionA sectionB trans := by
  cases o with
  | none =>
      obtain ⟨e, he⟩ := h
      cases he
  | some loaded =>
      obtain ⟨nvram', hok, hopen⟩ := h
      cases hok
      exact ⟨loaded.1, rfl, hopen⟩

omit hA in
theorem InitResult.of_error {v : View} {interface : Interface} {sectionA sectionB : Option CString}
    {e : Errno} {o : Option (LibnvramTransaction × List Entry)}
    (h : InitResult v interface sectionA sectionB (.error e) o) : o = none := by
  cases o with
  | none => rfl
  | some loaded =>
      obtain ⟨nvram, hok, -⟩ := h
      cases hok

include hA

theorem under_deserializeActive (a b : Bytes) :
    Under A (fun r => r = activeList lib a b ∨ Failed fails r)
      (deserializeActive lib (lib.initTransaction a b) a b) := by
  simp only [deserializeActive, activeList]
  split
  · exact fun r hr => hA.deserialize _ _ r hr
  · split
    · exact fun r hr => hA.deserialize _ _ r hr
    · exact Or.inl rfl

theorem under_v2Init_truthful {sectionA sectionB : Option CString}
    (hsecA : ∀ p, configured sectionA = some p → v.Section p)
    (hsecB : ∀ p, configured sectionB = some p → v.Section p) :
    Under A
      (fun r => InitResult v interface sectionA sectionB r
        (v2Load lib v.contents sectionA sectionB) ∨ Failed fails r)
      (v2Init lib interface sectionA sectionB) := by
  simp only [v2Init, mallocStruct_bind, under_op]
  intro ok hok
  cases ok with
  | false =>
      have hfails : fails := (hA.mallocStruct _ hok).resolve_left (by simp)
      exact Or.inr ⟨hfails, _, rfl⟩
  | true =>
  simp only [not_true_eq_false, if_false]
  refine under_seq (under_initSection hA hsecA _) fun ra ha => ?_
  obtain ⟨privA, resA⟩ := ra
  obtain ⟨hprivA, ⟨hpathA, hdataA⟩ | hfailed⟩ := ha
  swap
  · obtain ⟨e, rfl⟩ := hfailed.2
    exact under_seq (under_true _) fun _ _ => Or.inr (hfailed.error e)
  cases hA' : sideData lib v.contents sectionA with
  | none =>
      rw [hA'] at hdataA
      obtain ⟨e, rfl⟩ := hdataA
      refine under_seq (under_true _) fun _ _ => ?_
      simp only [Prog.pure_eq, under_ret, v2Load, hA']
      exact Or.inl ⟨e, rfl⟩
  | some a =>
      rw [hA'] at hdataA
      obtain rfl : resA = .ok a := hdataA
      refine under_seq (under_initSection hA hsecB _) fun rb hb => ?_
      obtain ⟨privB, resB⟩ := rb
      obtain ⟨hprivB, ⟨hpathB, hdataB⟩ | hfailed⟩ := hb
      swap
      · obtain ⟨e, rfl⟩ := hfailed.2
        exact under_seq (under_true _) fun _ _ => Or.inr (hfailed.error e)
      cases hB : sideData lib v.contents sectionB with
      | none =>
          rw [hB] at hdataB
          obtain ⟨e, rfl⟩ := hdataB
          refine under_seq (under_true _) fun _ _ => ?_
          simp only [Prog.pure_eq, under_ret, v2Load, hA', hB]
          exact Or.inl ⟨e, rfl⟩
      | some b =>
          rw [hB] at hdataB
          obtain rfl : resB = .ok b := hdataB
          simp only [prDbg_bind, under_op]
          intro _ _ _ _ _ _
          refine under_seq (under_deserializeActive hA a b) fun r hr => ?_
          rcases hr with rfl | hfailed
          swap
          · obtain ⟨e, rfl⟩ := hfailed.2
            simp only [prErr_bind, under_op]
            intro _ _
            exact under_seq (under_true _) fun _ _ => Or.inr (hfailed.error e)
          cases hlist : activeList lib a b with
          | error e =>
              simp only [prErr_bind, under_op]
              intro _ _
              refine under_seq (under_true _) fun _ _ => ?_
              simp only [Prog.pure_eq, under_ret, v2Load, hA', hB, hlist]
              exact Or.inl ⟨e, rfl⟩
          | ok list =>
              simp only [Prog.pure_eq, under_ret, v2Load, hA', hB, hlist]
              exact Or.inl ⟨_, rfl, rfl, rfl, hpathA, hpathB, hprivA, hprivB⟩

omit hA

/-- Where nothing fails `v2_init` returns what is loaded. -/
theorem under_v2Init {sectionA sectionB : Option CString}
    (hsecA : ∀ p, configured sectionA = some p → v.Section p)
    (hsecB : ∀ p, configured sectionB = some p → v.Section p) :
    Under (Answers lib v)
      (fun r => InitResult v interface sectionA sectionB r
        (v2Load lib v.contents sectionA sectionB))
      (v2Init lib interface sectionA sectionB) :=
  (under_v2Init_truthful (truthful_answers lib v) hsecA hsecB).mono fun _ hr =>
    hr.resolve_right not_failed

end

end Nvram
