import Nvram.V2.Sides

/-!
# A v2 side as a store of one list

On a healthy outside a commit that returns 0 leaves a side from which the next init loads the
committed list: the image is complete wherever the transaction puts it, and what is in force
of the two slots is the new list.
-/

namespace Nvram

open Effects TwoSlot

/-- An init loads the list from the side. -/
def Loads (lib : Libnvram) (c : Contents) (sections : Option CString × Option CString)
    (list : List Entry) : Prop :=
  ∃ trans, v2Load lib c sections.1 sections.2 = some (trans, list)

section

variable {lib : Libnvram} {c : Contents} {sections : Option CString × Option CString}

theorem Loads.congr {c' : Contents} {list : List Entry} (h : Loads lib c sections list)
    (hc : ∀ path, Configured sections path → c' path = c path) :
    Loads lib c' sections list := by
  obtain ⟨trans, hload⟩ := h
  refine ⟨trans, ?_⟩
  rw [v2Load_congr (fun p hp => by rw [hc p (Or.inl hp)]) fun p hp => by rw [hc p (Or.inr hp)]]
  exact hload

theorem Loads.unique {list list' : List Entry} (h : Loads lib c sections list)
    (h' : Loads lib c sections list') : list = list' := by
  obtain ⟨trans, hload⟩ := h
  obtain ⟨trans', hload'⟩ := h'
  rw [hload] at hload'
  exact (Prod.mk.inj (Option.some.inj hload')).2

/-- A side loads the list that is in force of its slots. -/
theorem loads_of_inForce (ht : lib.TransactionLaws) {list : List Entry} {a b : Bytes}
    (ha : sideData lib c sections.1 = some a) (hb : sideData lib c sections.2 = some b)
    (hdecA : Decodes lib a) (hdecB : Decodes lib b)
    (hforce : ∀ z, InForce (dataSlot lib a) (dataSlot lib b) z → z.getD [] = list) :
    Loads lib c sections list := by
  obtain ⟨list', hlist⟩ := exists_activeList ht hdecA hdecB
  obtain ⟨z, hz, hloaded⟩ := inForce_of_activeList ht hlist
  rw [hloaded, hforce z hz] at hlist
  exact ⟨lib.initTransaction a b, v2Load_eq_some_iff.mpr ⟨a, b, ha, hb, rfl, hlist⟩⟩

/-- A side whose sections do not verify loads the empty list. -/
theorem loads_nil (hi : lib.ImageLaws) (ht : lib.TransactionLaws)
    (hblank : ∀ path, Configured sections path →
      ∃ data, sectionData lib (c path) = some data ∧ ¬ (lib.verifySection data).Verified) :
    Loads lib c sections [] := by
  have hside : ∀ o, (∀ p, configured o = some p → Configured sections p) →
      ∃ data, sideData lib c o = some data ∧ ¬ (lib.verifySection data).Verified := by
    intro o ho
    unfold sideData
    cases hpath : configured o with
    | none => exact ⟨[], rfl, hi.empty⟩
    | some p => exact hblank p (ho p hpath)
  obtain ⟨a, ha, hnotA⟩ := hside sections.1 fun _ hp => Or.inl hp
  obtain ⟨b, hb, hnotB⟩ := hside sections.2 fun _ hp => Or.inr hp
  refine loads_of_inForce ht ha hb (fun h => absurd h hnotA) (fun h => absurd h hnotB)
    fun z hz => ?_
  rw [dataSlot_eq_none_of_not_verified hnotA, dataSlot_eq_none_of_not_verified hnotB] at hz
  rw [inForce_of_none hz]
  rfl

end

/-! ### Writing -/

/-- The handles that a commit writes through. -/
def V2Nvram.Writes (nvram : V2Nvram) (op : LibnvramOperation) (priv : NvramPriv) : Prop :=
  nvram.target op = some priv ∨
    (nvram.Both ∧ op.counterReset = true) ∧ nvram.other op = some priv

namespace Healthy

variable {lib : Libnvram} {σ : Type} {i : Interface} {h : Handler callSig σ}
  (H : Healthy lib i h)

/-- Only the sections behind the handles have changed, and they start with the buffer. -/
structure Wrote (priv : NvramPriv → Prop) (buf : Bytes) (c c' : Contents) : Prop where
  written : ∀ p, priv p → buf <+: c' p.path
  kept : ∀ path, (∀ p, priv p → p.path ≠ path) → c' path = c path

include H

/-- The writes of a commit succeed where the buffer fits; where they succeed they store it. -/
theorem run_v2Write {nvram : V2Nvram} (hinterface : nvram.interface = i)
    {op : LibnvramOperation} {buf : Bytes} (size : UInt32)
    (htarget : ∃ priv, nvram.target op = some priv)
    (hother : nvram.Both → ∃ priv, nvram.other op = some priv)
    (hhandles : ∀ priv, nvram.Writes op priv → H.Handle priv) (s : σ) :
    ∃ r t, run h (v2Write nvram op buf size) s = (r, t) ∧ H.stdout t = H.stdout s ∧
      ((∀ priv, nvram.Writes op priv → H.Fits priv.path buf) → r = .ok ()) ∧
      (r = .ok () → Wrote (nvram.Writes op) buf (H.contents s) (H.contents t)) := by
  obtain ⟨priv, htarget⟩ := htarget
  have hpriv := hhandles priv (Or.inl htarget)
  obtain ⟨r, t, hrun, hok, hrefused, hcontents, hstdout⟩ := H.run_writeBuf hpriv buf size s
  have hkept : ∀ path, priv.path ≠ path → H.contents t path = H.contents s path := by
    intro path hpath
    rw [hcontents, storeAt, Function.update_of_ne hpath.symm]
  rw [v2Write_eq, htarget, hinterface, run_bind, hrun]
  cases r with
  | error e =>
      refine ⟨.error e, t, rfl, hstdout, fun hfits => ?_, fun h => by cases h⟩
      exact hok (hfits priv (Or.inl htarget))
  | ok u =>
      have hfits : H.Fits priv.path buf := by
        by_contra hno
        obtain ⟨e, he⟩ := hrefused hno
        cases he
      have hstored : buf <+: H.contents t priv.path := by
        rw [hcontents, storeAt, Function.update_self]
        exact H.store_prefix _ _ _ hfits
      dsimp only
      split
      · rename_i hsecond
        obtain ⟨priv', hother⟩ := hother hsecond.1
        have hpriv' := hhandles priv' (Or.inr ⟨hsecond, hother⟩)
        obtain ⟨r, w, hrun', hok', hrefused', hcontents', hstdout'⟩ :=
          H.run_writeBuf hpriv' buf size t
        rw [hother]
        refine ⟨r, w, hrun', hstdout'.trans hstdout,
          fun hfits => hok' (hfits priv' (Or.inr ⟨hsecond, hother⟩)), fun hr => ?_⟩
        have hfits' : H.Fits priv'.path buf := by
          by_contra hno
          obtain ⟨e, he⟩ := hrefused' hno
          rw [hr] at he
          cases he
        have hstored' : buf <+: H.contents w priv'.path := by
          rw [hcontents', storeAt, Function.update_self]
          exact H.store_prefix _ _ _ hfits'
        have hkept' : ∀ path, priv'.path ≠ path → H.contents w path = H.contents t path := by
          intro path hpath
          rw [hcontents', storeAt, Function.update_of_ne hpath.symm]
        refine ⟨fun p hp => ?_, fun path hpath => ?_⟩
        · by_cases hsame : priv'.path = p.path
          · rw [← hsame]
            exact hstored'
          · rw [hkept' _ hsame]
            rcases hp with hp | hp
            · obtain rfl : priv = p := Option.some.inj (htarget.symm.trans hp)
              exact hstored
            · obtain rfl : priv' = p := Option.some.inj (hother.symm.trans hp.2)
              exact absurd rfl hsame
        · rw [hkept' path (hpath priv' (Or.inr ⟨hsecond, hother⟩)),
            hkept path (hpath priv (Or.inl htarget))]
      · rename_i hsecond
        refine ⟨.ok (), t, rfl, hstdout, fun _ => rfl, fun _ => ⟨fun p hp => ?_, fun path hpath =>
          hkept path (hpath priv (Or.inl htarget))⟩⟩
        rcases hp with hp | hp
        · obtain rfl : priv = p := Option.some.inj (htarget.symm.trans hp)
          exact hstored
        · exact absurd hp.1 hsecond

end Healthy

/-! ### Committing -/

theorem V2Nvram.Writes.priv {nvram : V2Nvram} {op : LibnvramOperation} {priv : NvramPriv}
    (h : nvram.Writes op priv) : nvram.privA = some priv ∨ nvram.privB = some priv := by
  rcases h with h | h
  · exact V2Nvram.priv_of_target h
  · exact V2Nvram.priv_of_other h.2

theorem V2Nvram.exists_other (nvram : V2Nvram) (op : LibnvramOperation) (hboth : nvram.Both) :
    ∃ priv, nvram.other op = some priv := by
  obtain ⟨hA, hB⟩ := hboth
  unfold V2Nvram.other
  split
  · exact Option.isSome_iff_exists.mp hB
  · exact Option.isSome_iff_exists.mp hA

/-- A side with a section has one to write. -/
theorem V2Nvram.OpenOn.exists_target {v : View} {i : Interface}
    {sections : Option CString × Option CString} {trans : LibnvramTransaction} {nvram : V2Nvram}
    (hopen : nvram.OpenOn v i sections.1 sections.2 trans)
    (hsection : ∃ path, Configured sections path) (op : LibnvramOperation) :
    ∃ priv, nvram.target op = some priv := by
  unfold V2Nvram.target
  split
  · rename_i hboth
    split
    · exact Option.isSome_iff_exists.mp hboth.1
    · exact Option.isSome_iff_exists.mp hboth.2
  · split
    · rename_i hA
      exact Option.isSome_iff_exists.mp hA
    · rename_i hA
      obtain ⟨path, hpath⟩ := hsection
      rcases hpath with hpath | hpath
      · rw [← hopen.pathA] at hpath
        obtain ⟨priv, hpriv, -⟩ := Option.map_eq_some_iff.mp hpath
        rw [hpriv] at hA
        exact absurd rfl hA
      · rw [← hopen.pathB] at hpath
        obtain ⟨priv, hpriv, -⟩ := Option.map_eq_some_iff.mp hpath
        exact ⟨priv, hpriv⟩

theorem bounded_dataSlot (lib : Libnvram) (data : Bytes) :
    TwoSlot.Bounded counterMax (dataSlot lib data) := by
  intro counter list h
  obtain ⟨-, rfl, -⟩ := verified_of_dataSlot h
  have hlt := (lib.verifySection data).hdr.counter.toNat_lt
  unfold LibnvramSection.counter counterMax
  omega

section

variable {lib : Libnvram} {nvram : V2Nvram} {list : List Entry} {c c' : Contents}
  (hi : lib.ImageLaws) (himage : lib.image list (commitPlan lib nvram).2 ≠ [])
  (hwrote : Healthy.Wrote (nvram.Writes (commitPlan lib nvram).1)
    (lib.image list (commitPlan lib nvram).2) c c')

include hi himage hwrote

/-- The data of a section that was written is the image. -/
theorem sectionData_of_writes {priv : NvramPriv}
    (hpriv : nvram.Writes (commitPlan lib nvram).1 priv) :
    sectionData lib (c' priv.path) = some (lib.image list (commitPlan lib nvram).2) :=
  sectionData_of_image hi himage (hwrote.written priv hpriv)

/-- Of two sections, one of which it was the turn of, the new list is in force afterwards. -/
theorem inForce_of_writes {target other : NvramPriv} (hboth : nvram.Both)
    (htarget : nvram.target (commitPlan lib nvram).1 = some target)
    (hother : nvram.other (commitPlan lib nvram).1 = some other) {dataT dataO : Bytes}
    (hturn : TakesTurn lib nvram dataT dataO)
    (hold : sectionData lib (c other.path) = some dataO) :
    ∃ dataO', sectionData lib (c' other.path) = some dataO' ∧ Decodes lib dataO' ∧
      ∀ z, InForce (dataSlot lib (lib.image list (commitPlan lib nvram).2)) (dataSlot lib dataO') z →
        z = some list := by
  have hslot := dataSlot_image hi himage
  have hnew := sectionData_of_writes hi himage hwrote (Or.inl htarget)
  have hsame : sectionData lib (c' other.path) = some (lib.image list (commitPlan lib nvram).2) →
      ∃ dataO', sectionData lib (c' other.path) = some dataO' ∧ Decodes lib dataO' ∧
        ∀ z, InForce (dataSlot lib (lib.image list (commitPlan lib nvram).2))
          (dataSlot lib dataO') z → z = some list := by
    intro hdata
    refine ⟨_, hdata, decodes_image hi himage, fun z hz => ?_⟩
    rw [hslot] at hz
    exact inForce_same hz
  by_cases hpath : target.path = other.path
  · rw [hpath] at hnew
    exact hsame hnew
  · by_cases hreset : (commitPlan lib nvram).1.counterReset = true
    · exact hsame (sectionData_of_writes hi himage hwrote (Or.inr ⟨⟨hboth, hreset⟩, hother⟩))
    · have hkept : c' other.path = c other.path := by
        refine hwrote.kept other.path fun p hp => ?_
        rcases hp with hp | hp
        · obtain rfl : target = p := Option.some.inj (htarget.symm.trans hp)
          exact hpath
        · exact absurd hp.1.2 hreset
      refine ⟨dataO, hkept ▸ hold, hturn.decodes, fun z hz => ?_⟩
      rw [hslot] at hz
      refine (inForce_written hturn.turn (bounded_dataSlot lib dataO) hz).resolve_right fun h => ?_
      exact hreset h.1

/-- With both sections present, the one whose turn it was holds the list in force. -/
theorem loads_of_both (ht : lib.TransactionLaws) {sections : Option CString × Option CString}
    {privA privB : NvramPriv} (hA : nvram.privA = some privA) (hB : nvram.privB = some privB)
    (hpathA : configured sections.1 = some privA.path)
    (hpathB : configured sections.2 = some privB.path) {a b : Bytes}
    (ha : sideData lib c sections.1 = some a) (hb : sideData lib c sections.2 = some b)
    (hturnA : (commitPlan lib nvram).1.writeA = true → TakesTurn lib nvram a b)
    (hturnB : (commitPlan lib nvram).1.writeA = false → TakesTurn lib nvram b a) :
    Loads lib c' sections list := by
  have hdecodes := decodes_image hi himage
  have hboth : nvram.Both := by simp [V2Nvram.Both, hA, hB]
  rw [sideData_of_configured hpathA] at ha
  rw [sideData_of_configured hpathB] at hb
  cases hwrite : (commitPlan lib nvram).1.writeA with
  | true =>
      have htarget : nvram.target (commitPlan lib nvram).1 = some privA := by
        rw [V2Nvram.target, if_pos hboth, if_pos hwrite, hA]
      have hother : nvram.other (commitPlan lib nvram).1 = some privB := by
        rw [V2Nvram.other, if_pos hwrite, hB]
      have hdata := sectionData_of_writes hi himage hwrote (Or.inl htarget)
      obtain ⟨b', hb', hdecB, hforce⟩ :=
        inForce_of_writes hi himage hwrote hboth htarget hother (hturnA hwrite) hb
      refine loads_of_inForce ht ((sideData_of_configured hpathA).trans hdata)
        ((sideData_of_configured hpathB).trans hb') hdecodes hdecB fun z hz => ?_
      rw [hforce z hz]
      rfl
  | false =>
      have hnot : ¬ (commitPlan lib nvram).1.writeA = true := by simp [hwrite]
      have htarget : nvram.target (commitPlan lib nvram).1 = some privB := by
        rw [V2Nvram.target, if_pos hboth, if_neg hnot, hB]
      have hother : nvram.other (commitPlan lib nvram).1 = some privA := by
        rw [V2Nvram.other, if_neg hnot, hA]
      have hdata := sectionData_of_writes hi himage hwrote (Or.inl htarget)
      obtain ⟨a', ha', hdecA, hforce⟩ :=
        inForce_of_writes hi himage hwrote hboth htarget hother (hturnB hwrite) ha
      refine loads_of_inForce ht ((sideData_of_configured hpathA).trans ha')
        ((sideData_of_configured hpathB).trans hdata) hdecA hdecodes fun z hz => ?_
      rw [hforce z hz.symm]
      rfl

end

/-- With the image complete where a commit writes it, the side loads the committed list. -/
theorem loads_written {lib : Libnvram} (hi : lib.ImageLaws) (ht : lib.TransactionLaws)
    {v : View} {i : Interface} {sections : Option CString × Option CString}
    (hsection : ∃ path, Configured sections path) {trans : LibnvramTransaction} {nvram : V2Nvram}
    (hopen : nvram.OpenOn v i sections.1 sections.2 trans) {c c' : Contents}
    {old list : List Entry} (hload : v2Load lib c sections.1 sections.2 = some (trans, old))
    (himage : lib.image list (commitPlan lib nvram).2 ≠ [])
    (hwrote : Healthy.Wrote (nvram.Writes (commitPlan lib nvram).1)
      (lib.image list (commitPlan lib nvram).2) c c') : Loads lib c' sections list := by
  obtain ⟨a, b, ha, hb, htrans, hactive⟩ := v2Load_eq_some_iff.mp hload
  obtain ⟨hturnA, hturnB⟩ := takesTurn_of_load ht hactive (hopen.trans.trans htrans)
  have hslot := dataSlot_image hi himage
  have hdecodes := decodes_image hi himage
  have hdata := fun priv (hpriv : nvram.Writes (commitPlan lib nvram).1 priv) =>
    sectionData_of_writes hi himage hwrote hpriv
  have hempty : dataSlot lib [] = none := dataSlot_eq_none_of_not_verified hi.empty
  have hpathA := hopen.pathA
  have hpathB := hopen.pathB
  have hnone : ∀ {o}, (none : Option NvramPriv).map NvramPriv.path = configured o →
      sideData lib c' o = some [] := by
    intro o ho
    unfold sideData
    rw [← ho]
    rfl
  cases hA : nvram.privA with
  | none =>
      rw [hA] at hpathA
      cases hB : nvram.privB with
      | none =>
          -- a side without a section
          rw [hB] at hpathB
          obtain ⟨path, hpath⟩ := hsection
          rcases hpath with hpath | hpath
          · rw [← hpathA] at hpath
            cases hpath
          · rw [← hpathB] at hpath
            cases hpath
      | some privB =>
          -- only a B section
          rw [hB] at hpathB
          have hwrites : nvram.Writes (commitPlan lib nvram).1 privB :=
            Or.inl (by simp [V2Nvram.target, V2Nvram.Both, hA, hB])
          refine loads_of_inForce ht (hnone hpathA)
            ((sideData_of_configured hpathB.symm).trans (hdata privB hwrites)) (decodes_nil hi)
            hdecodes fun z hz => ?_
          rw [hempty, hslot] at hz
          rw [inForce_of_none hz]
          rfl
  | some privA =>
      rw [hA] at hpathA
      cases hB : nvram.privB with
      | none =>
          -- only an A section
          rw [hB] at hpathB
          have hwrites : nvram.Writes (commitPlan lib nvram).1 privA :=
            Or.inl (by simp [V2Nvram.target, V2Nvram.Both, hA, hB])
          refine loads_of_inForce ht ((sideData_of_configured hpathA.symm).trans
            (hdata privA hwrites)) (hnone hpathB) hdecodes (decodes_nil hi) fun z hz => ?_
          rw [hempty, hslot] at hz
          rw [inForce_of_none hz.symm]
          rfl
      | some privB =>
          rw [hB] at hpathB
          exact loads_of_both hi himage hwrote ht hA hB hpathA.symm hpathB.symm ha hb hturnA hturnB

/-- Every image of the list fits into every section of the side. -/
def Healthy.Room {lib : Libnvram} {σ : Type} {i : Interface} {h : Handler callSig σ}
    (H : Healthy lib i h) (sections : Option CString × Option CString) (list : List Entry) :
    Prop :=
  ∀ hdr path, Configured sections path → H.Fits path (lib.image list hdr)

/-- A commit of a list that serialises returns 0 where there is room; where it returns 0 the
side loads the list afterwards, and every other section is as before. -/
theorem Healthy.run_v2Commit {lib : Libnvram} {σ : Type} {i : Interface}
    {h : Handler callSig σ} (H : Healthy lib i h) (hi : lib.ImageLaws) (ht : lib.TransactionLaws)
    {sections : Option CString × Option CString} (hsection : ∃ path, Configured sections path)
    {s : σ} {nvram : V2Nvram} {trans : LibnvramTransaction}
    (hopen : nvram.OpenOn (H.view s) i sections.1 sections.2 trans) {old list : List Entry}
    (hload : v2Load lib (H.contents s) sections.1 sections.2 = some (trans, old))
    (hlist : Serialises lib list) :
    ∃ r nvram' t, run h (v2Commit lib nvram list) s = ((r, nvram'), t) ∧
      H.stdout t = H.stdout s ∧ (H.Room sections list → r = .ok ()) ∧
      (r = .ok () → Loads lib (H.contents t) sections list ∧
        ∀ path, ¬ Configured sections path → H.contents t path = H.contents s path) := by
  have himage := hlist (commitPlan lib nvram).2
  have hhandles : ∀ priv, nvram.Writes (commitPlan lib nvram).1 priv →
      H.Handle priv ∧ Configured sections priv.path := fun priv hpriv => hopen.of_priv hpriv.priv
  obtain ⟨u, hsame, hrun⟩ := H.run_v2Commit_eq hi himage s
  obtain ⟨r, t, hwrite, hstdout, hok, hwrote⟩ := H.run_v2Write hopen.interface
    (lib.serializeSize list) (hopen.exists_target hsection (commitPlan lib nvram).1)
    (nvram.exists_other (commitPlan lib nvram).1) (fun priv hpriv => (hhandles priv hpriv).1) u
  rw [hsame.1] at hwrote
  rw [run_bind, hwrite] at hrun
  cases r with
  | error e =>
      refine ⟨.error e, nvram, t, hrun, hstdout.trans hsame.2, fun hroom => ?_, fun h => by cases h⟩
      exact hok fun priv hpriv => hroom _ _ (hhandles priv hpriv).2
  | ok u =>
      have hlog := fun fmt args => H.same_of_inner (Call.inner_printDebug fmt args) t
      have hwrote := hwrote rfl
      simp only [prDbg_bind, run_op] at hrun
      refine ⟨_, _, _, hrun, (hlog _ _).2.trans (hstdout.trans hsame.2), fun _ => rfl, fun _ => ?_⟩
      rw [(hlog _ _).1]
      refine ⟨loads_written hi ht hsection hopen hload himage hwrote, fun path hpath => ?_⟩
      exact hwrote.kept path fun priv hpriv heq => hpath (heq ▸ (hhandles priv hpriv).2)

end Nvram
