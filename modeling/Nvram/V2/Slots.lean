import Nvram.V2.Load
import Nvram.V2.Commit
import Nvram.Library.TwoSlot

/-!
# The two sections as two slots

A section's bytes are a slot: the list of the image in it under the image's counter, or
nothing when they do not verify.  `v2_init` loads what is in force of the two slots, and the
transaction of a commit takes its turn as the two-slot protocol asks.
-/

namespace Nvram

open Effects TwoSlot

section

variable (lib : Libnvram)

/-- The slot that the data of a section stands for. -/
def dataSlot (data : Bytes) : Slot (List Entry) :=
  let s := lib.verifySection data
  if s.Verified then
    match lib.deserialize (data.drop lib.headerLen.toNat) s.hdr with
    | .ok list => some (s.counter, list)
    | .error _ => none
  else none

/-- The slot that the content of a section stands for. -/
def slotOf (content : Bytes) : Slot (List Entry) :=
  dataSlot lib ((sectionData lib content).getD [])

/-- Data that deserialises if it verifies. -/
def Decodes (data : Bytes) : Prop :=
  (lib.verifySection data).Verified →
    ∃ list, lib.deserialize (data.drop lib.headerLen.toNat) (lib.verifySection data).hdr = .ok list

/-- The image of some list is at the start of the section. -/
def HoldsImage (content : Bytes) : Prop :=
  ∃ list hdr, lib.image list hdr ≠ [] ∧ lib.image list hdr <+: content

/-- The section's data verifies. -/
def Verifies (content : Bytes) : Prop :=
  (lib.verifySection ((sectionData lib content).getD [])).Verified

/-- Serialisation never refuses the list. -/
def Serialises (list : List Entry) : Prop := ∀ hdr, lib.image list hdr ≠ []

end

variable {lib : Libnvram}

theorem dataSlot_eq_none_of_not_verified {data : Bytes} (h : ¬ (lib.verifySection data).Verified) :
    dataSlot lib data = none := by
  simp only [dataSlot, if_neg h]

theorem dataSlot_of_decodes {data : Bytes} (hv : (lib.verifySection data).Verified)
    {list : List Entry}
    (hd : lib.deserialize (data.drop lib.headerLen.toNat) (lib.verifySection data).hdr =
      .ok list) :
    dataSlot lib data = some ((lib.verifySection data).counter, list) := by
  simp only [dataSlot, if_pos hv, hd]

theorem verified_of_dataSlot {data : Bytes} {c : ℕ} {list : List Entry}
    (h : dataSlot lib data = some (c, list)) :
    (lib.verifySection data).Verified ∧ c = (lib.verifySection data).counter ∧
      lib.deserialize (data.drop lib.headerLen.toNat) (lib.verifySection data).hdr = .ok list := by
  by_cases hv : (lib.verifySection data).Verified
  · simp only [dataSlot, if_pos hv] at h
    split at h
    · next list' hd =>
        cases h
        exact ⟨hv, rfl, hd⟩
    · cases h
  · rw [dataSlot_eq_none_of_not_verified hv] at h
    cases h

theorem Decodes.dataSlot_eq_none_iff {data : Bytes} (h : Decodes lib data) :
    dataSlot lib data = none ↔ ¬ (lib.verifySection data).Verified := by
  constructor
  · intro hnone hv
    obtain ⟨list, hd⟩ := h hv
    rw [dataSlot_of_decodes hv hd] at hnone
    cases hnone
  · exact dataSlot_eq_none_of_not_verified

/-! ### Images -/

section

variable (hlaws : lib.ImageLaws)

include hlaws

/-- A complete image at the start of a section is what `read_section` gets. -/
theorem sectionData_of_image {list : List Entry} {hdr : LibnvramHeader} {content : Bytes}
    (himage : lib.image list hdr ≠ []) (hpre : lib.image list hdr <+: content) :
    sectionData lib content = some (lib.image list hdr) := by
  have hgood := hlaws.good list hdr himage
  obtain ⟨rest, rfl⟩ := hpre
  obtain ⟨h, hvalid, hlen⟩ := hgood.validateHeader
  have htake : (lib.image list hdr ++ rest).take lib.headerLen.toNat =
      (lib.image list hdr).take lib.headerLen.toNat :=
    List.take_append_of_le_length hgood.headerLen_le
  have hle : lib.headerLen.toNat ≤ (lib.image list hdr ++ rest).length := by
    rw [List.length_append]
    exact Nat.le_add_right_of_le hgood.headerLen_le
  have hsize : lib.dataSize h = (lib.image list hdr).length := hlen
  have hfit : lib.dataSize h ≤ (lib.image list hdr ++ rest).length := by
    rw [hsize, List.length_append]
    exact Nat.le_add_right _ _
  simp only [sectionData, if_pos hle, htake, hvalid, if_pos hfit]
  rw [hsize, List.take_left]

theorem dataSlot_image {list : List Entry} {hdr : LibnvramHeader}
    (himage : lib.image list hdr ≠ []) :
    dataSlot lib (lib.image list hdr) = some (hdr.counter.toNat, list) := by
  have hgood := hlaws.good list hdr himage
  rw [dataSlot_of_decodes hgood.verified hgood.deserialize, LibnvramSection.counter, hgood.counter]

theorem slotOf_image {list : List Entry} {hdr : LibnvramHeader} {content : Bytes}
    (himage : lib.image list hdr ≠ []) (hpre : lib.image list hdr <+: content) :
    slotOf lib content = some (hdr.counter.toNat, list) := by
  rw [slotOf, sectionData_of_image hlaws himage hpre, Option.getD_some,
    dataSlot_image hlaws himage]

theorem decodes_image {list : List Entry} {hdr : LibnvramHeader}
    (himage : lib.image list hdr ≠ []) : Decodes lib (lib.image list hdr) := fun _ =>
  ⟨list, (hlaws.good list hdr himage).deserialize⟩

theorem decodes_nil : Decodes lib [] := fun hv => absurd hv hlaws.empty

end

/-! ### What is loaded -/

theorem activeList_cases (ht : lib.TransactionLaws) (a b : Bytes) :
    ((lib.initTransaction a b).active = ⟨true, false⟩ ∧ (lib.verifySection a).Verified ∧
        activeList lib a b =
          lib.deserialize (a.drop lib.headerLen.toNat) (lib.verifySection a).hdr) ∨
      ((lib.initTransaction a b).active = ⟨false, true⟩ ∧ (lib.verifySection b).Verified ∧
        activeList lib a b =
          lib.deserialize (b.drop lib.headerLen.toNat) (lib.verifySection b).hdr) ∨
      (¬ (lib.verifySection a).Verified ∧ ¬ (lib.verifySection b).Verified ∧
        activeList lib a b = .ok []) := by
  cases hactA : (lib.initTransaction a b).active.a with
  | true =>
      left
      have hactB := ht.activeOne a b hactA
      refine ⟨?_, (ht.activeA a b hactA).1, ?_⟩
      · rw [← hactA, ← hactB]
      · simp only [activeList, hactA, if_true, ht.sectionA]
  | false =>
      right
      cases hactB : (lib.initTransaction a b).active.b with
      | true =>
          left
          refine ⟨?_, (ht.activeB a b hactB).1, ?_⟩
          · rw [← hactA, ← hactB]
          · simp [activeList, hactA, hactB, ht.sectionB]
      | false =>
          right
          have hnone : ¬ ((lib.verifySection a).Verified ∨ (lib.verifySection b).Verified) := by
            intro h
            have hact := ht.active a b h
            simp [hactA, hactB] at hact
          refine ⟨fun h => hnone (Or.inl h), fun h => hnone (Or.inr h), ?_⟩
          simp [activeList, hactA, hactB]

/-- A verified section whose counter is not exceeded is in force. -/
theorem inForce_left {a b : Bytes} {list : List Entry} (hv : (lib.verifySection a).Verified)
    (hd : lib.deserialize (a.drop lib.headerLen.toNat) (lib.verifySection a).hdr = .ok list)
    (hle : (lib.verifySection b).Verified →
      (lib.verifySection b).counter ≤ (lib.verifySection a).counter) :
    InForce (dataSlot lib a) (dataSlot lib b) (some list) := by
  left
  refine ⟨_, dataSlot_of_decodes hv hd, fun c x c' y hb ha => ?_⟩
  obtain ⟨hvb, rfl, _⟩ := verified_of_dataSlot hb
  obtain ⟨_, rfl, _⟩ := verified_of_dataSlot ha
  exact hle hvb

/-- The list that `v2_init` deserialises is the one in force. -/
theorem inForce_of_activeList (ht : lib.TransactionLaws) {a b : Bytes} {list : List Entry}
    (h : activeList lib a b = .ok list) :
    ∃ z, InForce (dataSlot lib a) (dataSlot lib b) z ∧ list = z.getD [] := by
  rcases activeList_cases ht a b with ⟨hact, hv, hlist⟩ | ⟨hact, hv, hlist⟩ | ⟨ha, hb, hlist⟩
  · rw [hlist] at h
    exact ⟨some list, inForce_left hv h (ht.activeA a b (by rw [hact])).2, rfl⟩
  · rw [hlist] at h
    exact ⟨some list, (inForce_left hv h (ht.activeB a b (by rw [hact])).2).symm, rfl⟩
  · rw [hlist] at h
    cases h
    exact ⟨none, ⟨dataSlot_eq_none_of_not_verified ha, dataSlot_eq_none_of_not_verified hb⟩, rfl⟩

theorem exists_activeList (ht : lib.TransactionLaws) {a b : Bytes} (ha : Decodes lib a)
    (hb : Decodes lib b) : ∃ list, activeList lib a b = .ok list := by
  rcases activeList_cases ht a b with ⟨_, hv, hlist⟩ | ⟨_, hv, hlist⟩ | ⟨_, _, hlist⟩
  · rw [hlist]
    exact ha hv
  · rw [hlist]
    exact hb hv
  · exact ⟨[], hlist⟩

/-! ### Whose turn it is -/

/-- While a verified section is in force and the operation writes the other one, the next
counter is as the protocol asks. -/
theorem turn_of_active {target other : Bytes} {op : LibnvramOperation} {next : UInt32}
    (hdec : Decodes lib other) (hv : (lib.verifySection other).Verified)
    (hle : (lib.verifySection target).Verified →
      (lib.verifySection target).counter ≤ (lib.verifySection other).counter)
    (hnext : Libnvram.NextCounter (lib.verifySection other).counter op next) :
    Turn counterMax (dataSlot lib target) (dataSlot lib other) next.toNat op.counterReset := by
  have hbound : next.toNat ≤ counterMax := by
    have hlt := next.toNat_lt
    unfold counterMax
    omega
  refine ⟨fun c x c' y htarget hother => ?_, fun hnone => ?_, hbound, fun c x hother hlt => ?_,
    fun c x hother hlt => ?_⟩
  · obtain ⟨hvt, rfl, _⟩ := verified_of_dataSlot htarget
    obtain ⟨_, rfl, _⟩ := verified_of_dataSlot hother
    exact hle hvt
  · exact absurd hv ((hdec.dataSlot_eq_none_iff).mp hnone)
  · obtain ⟨_, rfl, _⟩ := verified_of_dataSlot hother
    rw [Libnvram.NextCounter, if_pos hlt] at hnext
    exact hnext
  · obtain ⟨_, rfl, _⟩ := verified_of_dataSlot hother
    rw [Libnvram.NextCounter, if_neg hlt] at hnext
    exact hnext

theorem turn_of_none {target other : Slot (List Entry)} (htarget : target = none)
    (hother : other = none) (next : UInt32) (reset : Bool) :
    Turn counterMax target other next.toNat reset := by
  have hbound : next.toNat ≤ counterMax := by
    have hlt := next.toNat_lt
    unfold counterMax
    omega
  subst htarget hother
  refine ⟨notAfter_none_left _, fun _ => rfl, hbound, fun c x h => ?_, fun c x h => ?_⟩
  · cases h
  · cases h

/-- What the next transaction means for two sections of which a list was loaded: the section
that is not written deserialises, and the written one has its turn. -/
structure TakesTurn (lib : Libnvram) (nvram : V2Nvram) (target other : Bytes) : Prop where
  decodes : Decodes lib other
  turn : Turn counterMax (dataSlot lib target) (dataSlot lib other)
    (commitPlan lib nvram).2.counter.toNat (commitPlan lib nvram).1.counterReset

/-- The transaction that `v2_init` prepares takes its turn. -/
theorem takesTurn_of_load (ht : lib.TransactionLaws) {a b : Bytes} {list : List Entry}
    (hload : activeList lib a b = .ok list) {nvram : V2Nvram}
    (htrans : nvram.trans = lib.initTransaction a b) :
    ((commitPlan lib nvram).1.writeA = true → TakesTurn lib nvram a b) ∧
      ((commitPlan lib nvram).1.writeA = false → TakesTurn lib nvram b a) := by
  rcases activeList_cases ht a b with ⟨hact, hv, hlist⟩ | ⟨hact, hv, hlist⟩ | ⟨hva, hvb, _⟩
  · have hdec : Decodes lib a := fun _ => ⟨list, hlist.symm.trans hload⟩
    rw [← htrans] at hact
    obtain ⟨hwrite, hnext⟩ := ht.nextA nvram.trans listHeader hact
    have hsection : nvram.trans.sectionA = lib.verifySection a := by rw [htrans, ht.sectionA]
    have hle := (ht.activeA a b (by rw [← htrans, hact])).2
    rw [hsection] at hnext
    refine ⟨fun htrue => ?_, fun _ => ⟨hdec, turn_of_active hdec hv hle hnext⟩⟩
    rw [commitPlan, hwrite] at htrue
    cases htrue
  · have hdec : Decodes lib b := fun _ => ⟨list, hlist.symm.trans hload⟩
    rw [← htrans] at hact
    obtain ⟨hwrite, hnext⟩ := ht.nextB nvram.trans listHeader hact
    have hsection : nvram.trans.sectionB = lib.verifySection b := by rw [htrans, ht.sectionB]
    have hle := (ht.activeB a b (by rw [← htrans, hact])).2
    rw [hsection] at hnext
    refine ⟨fun _ => ⟨hdec, turn_of_active hdec hv hle hnext⟩, fun hfalse => ?_⟩
    rw [commitPlan, hwrite] at hfalse
    cases hfalse
  · have hsa := dataSlot_eq_none_of_not_verified hva
    have hsb := dataSlot_eq_none_of_not_verified hvb
    exact ⟨fun _ => ⟨fun h => absurd h hvb, turn_of_none hsa hsb _ _⟩,
      fun _ => ⟨fun h => absurd h hva, turn_of_none hsb hsa _ _⟩⟩

theorem turn_of_init (ht : lib.TransactionLaws) {a b : Bytes} (ha : Decodes lib a)
    (hb : Decodes lib b) {nvram : V2Nvram} (htrans : nvram.trans = lib.initTransaction a b) :
    ((commitPlan lib nvram).1.writeA = true →
        Turn counterMax (dataSlot lib a) (dataSlot lib b)
          (commitPlan lib nvram).2.counter.toNat (commitPlan lib nvram).1.counterReset) ∧
      ((commitPlan lib nvram).1.writeA = false →
        Turn counterMax (dataSlot lib b) (dataSlot lib a)
          (commitPlan lib nvram).2.counter.toNat (commitPlan lib nvram).1.counterReset) := by
  obtain ⟨list, hload⟩ := exists_activeList ht ha hb
  obtain ⟨hA, hB⟩ := takesTurn_of_load ht hload htrans
  exact ⟨fun h => (hA h).turn, fun h => (hB h).turn⟩

end Nvram
