import Nvram.V2.Slots
import Nvram.Machine
import Nvram.Libnvram.Plain

/-!
# Damage to one section of two files

One section holds a complete image, the other arbitrary bytes.  On the file interface
`v2_init` then loads the list of the image, or that of the other section under a larger counter,
except that a section whose own header is valid but announces more bytes than the file has makes
it fail, the good section notwithstanding.  Which of two lists under one counter is loaded is
libnvram's choice.
-/

namespace Nvram

open Effects TwoSlot

section

variable (lib : Libnvram)

/-- The section `goodA` selects holds `image`, the other one `other`. -/
def sectionPair (goodA : Bool) (image other : Bytes) : Bytes × Bytes :=
  if goodA then (image, other) else (other, image)

/-- The data that is read from the damaged section. -/
def otherData (other : Bytes) : Bytes := (sectionData lib other).getD []

/-- libnvram makes the other section active. -/
def OtherActive (goodA : Bool) (image other : Bytes) : Prop :=
  let pair := sectionPair goodA image (otherData lib other)
  let active := (lib.initTransaction pair.1 pair.2).active
  (if goodA then active.b else active.a) = true

/-- libnvram makes the other section active and then refuses to deserialise it. -/
def Refused (goodA : Bool) (image other : Bytes) : Prop :=
  OtherActive lib goodA image other ∧
    ∃ e, lib.deserialize ((otherData lib other).drop lib.headerLen.toNat)
      (lib.verifySection (otherData lib other)).hdr = .error e

/-- libnvram makes the other section active, which holds another list under the counter of the
image. -/
def Displaced (goodA : Bool) (list : List Entry) (hdr : LibnvramHeader) (other : Bytes) : Prop :=
  OtherActive lib goodA (lib.image list hdr) other ∧
    ∃ list', list' ≠ list ∧ slotOf lib other = some (hdr.counter.toNat, list')

/-- The list of the good image, or that of the other section where that one verifies with a larger
counter. -/
def RightList (list : List Entry) (counter : ℕ) (other : Bytes) (loaded : List Entry) : Prop :=
  (loaded = list ∧ NotAfter (slotOf lib other) (some (counter, list))) ∨
    ∃ c, counter < c ∧ slotOf lib other = some (c, loaded)

/-- `v2_init` returned 0 and loaded the right list. -/
def Survives (list : List Entry) (counter : ℕ) (other : Bytes)
    (r : Except Errno (V2Nvram × List Entry)) : Prop :=
  ∃ nvram loaded, r = .ok (nvram, loaded) ∧ RightList lib list counter other loaded

end

section

variable {lib : Libnvram} (hi : lib.ImageLaws) (ht : lib.TransactionLaws)

theorem sideData_some {contents : Contents} {path : CString} (h : 0 < path.strlen) :
    sideData lib contents (some path) = sectionData lib (contents path) := by
  simp [sideData, configured, h]

include hi ht

/-- Beside a complete image either the image is active, or the other section, which then verifies
with a counter that is not smaller. -/
theorem activeList_pair (goodA : Bool) {list : List Entry} {hdr : LibnvramHeader}
    (himage : lib.image list hdr ≠ []) (other : Bytes) :
    (¬ OtherActive lib goodA (lib.image list hdr) other ∧
        activeList lib (sectionPair goodA (lib.image list hdr) (otherData lib other)).1
          (sectionPair goodA (lib.image list hdr) (otherData lib other)).2 = .ok list ∧
        NotAfter (slotOf lib other) (some (hdr.counter.toNat, list))) ∨
      (OtherActive lib goodA (lib.image list hdr) other ∧
        (lib.verifySection (otherData lib other)).Verified ∧
        hdr.counter.toNat ≤ (lib.verifySection (otherData lib other)).counter ∧
        activeList lib (sectionPair goodA (lib.image list hdr) (otherData lib other)).1
            (sectionPair goodA (lib.image list hdr) (otherData lib other)).2 =
          lib.deserialize ((otherData lib other).drop lib.headerLen.toNat)
            (lib.verifySection (otherData lib other)).hdr) := by
  have hgood := hi.good list hdr himage
  have hcounter : (lib.verifySection (lib.image list hdr)).counter = hdr.counter.toNat :=
    congrArg UInt32.toNat hgood.counter
  have hnotAfter : ((lib.verifySection (otherData lib other)).Verified →
        (lib.verifySection (otherData lib other)).counter ≤
          (lib.verifySection (lib.image list hdr)).counter) →
      NotAfter (slotOf lib other) (some (hdr.counter.toNat, list)) := by
    intro hle c x c' y hother himg
    obtain ⟨hv, rfl, -⟩ := verified_of_dataSlot hother
    cases himg
    exact (hle hv).trans_eq hcounter
  cases goodA with
  | true =>
      simp only [OtherActive, sectionPair, if_true]
      rcases activeList_cases ht (lib.image list hdr) (otherData lib other) with
        ⟨hact, -, hlist⟩ | ⟨hact, hv, hlist⟩ | ⟨hv, -, -⟩
      · have hle := (ht.activeA (lib.image list hdr) (otherData lib other) (by rw [hact])).2
        exact Or.inl ⟨by rw [hact]; exact Bool.false_ne_true, hlist.trans hgood.deserialize,
          hnotAfter hle⟩
      · have hle := (ht.activeB (lib.image list hdr) (otherData lib other) (by rw [hact])).2
        exact Or.inr ⟨by rw [hact], hv, hcounter.symm.trans_le (hle hgood.verified), hlist⟩
      · exact absurd hgood.verified hv
  | false =>
      simp only [OtherActive, sectionPair, Bool.false_eq_true, if_false]
      rcases activeList_cases ht (otherData lib other) (lib.image list hdr) with
        ⟨hact, hv, hlist⟩ | ⟨hact, -, hlist⟩ | ⟨-, hv, -⟩
      · have hle := (ht.activeA (otherData lib other) (lib.image list hdr) (by rw [hact])).2
        exact Or.inr ⟨by rw [hact], hv, hcounter.symm.trans_le (hle hgood.verified), hlist⟩
      · have hle := (ht.activeB (otherData lib other) (lib.image list hdr) (by rw [hact])).2
        exact Or.inl ⟨by rw [hact]; exact Bool.false_ne_true, hlist.trans hgood.deserialize,
          hnotAfter hle⟩
      · exact absurd hgood.verified hv

/-- Of a complete image and any other data the right list is loaded, unless the other section is
active and either refused, or another list under the counter of the image. -/
theorem loads_rightList_iff (goodA : Bool) {list : List Entry} {hdr : LibnvramHeader}
    (himage : lib.image list hdr ≠ []) (other : Bytes) :
    (∃ loaded, activeList lib
        (sectionPair goodA (lib.image list hdr) (otherData lib other)).1
        (sectionPair goodA (lib.image list hdr) (otherData lib other)).2 = .ok loaded ∧
      RightList lib list hdr.counter.toNat other loaded) ↔
      ¬ Refused lib goodA (lib.image list hdr) other ∧ ¬ Displaced lib goodA list hdr other := by
  rcases activeList_pair hi ht goodA himage other with
    ⟨hinactive, hlist, hnotAfter⟩ | ⟨hactive, hv, hle, hlist⟩
  · exact iff_of_true ⟨list, hlist, Or.inl ⟨rfl, hnotAfter⟩⟩
      ⟨fun h => hinactive h.1, fun h => hinactive h.1⟩
  · rw [hlist]
    cases hd : lib.deserialize ((otherData lib other).drop lib.headerLen.toNat)
        (lib.verifySection (otherData lib other)).hdr with
    | error e =>
        refine iff_of_false ?_ fun h => h.1 ⟨hactive, e, hd⟩
        rintro ⟨loaded, hloaded, -⟩
        cases hloaded
    | ok loaded =>
        have hslot : slotOf lib other =
            some ((lib.verifySection (otherData lib other)).counter, loaded) :=
          dataSlot_of_decodes hv hd
        have hnot : ¬ Refused lib goodA (lib.image list hdr) other := by
          rintro ⟨-, e, he⟩
          cases hd.symm.trans he
        rw [and_iff_right hnot]
        constructor
        · rintro ⟨_, hloaded, hright⟩ ⟨-, list', hne, hslot'⟩
          cases hloaded
          obtain ⟨hcounter, rfl⟩ := Prod.mk.inj (Option.some.inj (hslot.symm.trans hslot'))
          rcases hright with ⟨rfl, -⟩ | ⟨c, hlt, hc⟩
          · exact hne rfl
          · obtain ⟨rfl, -⟩ := Prod.mk.inj (Option.some.inj (hslot'.symm.trans hc))
            exact hlt.false
        · intro hkept
          refine ⟨loaded, rfl, ?_⟩
          rcases hle.lt_or_eq with hlt | heq
          · exact Or.inr ⟨_, hlt, hslot⟩
          · -- a tie of the counters: the lists are the same, or the image is displaced
            have hsame : loaded = list := by
              by_contra hne
              exact hkept ⟨hactive, loaded, hne, heq ▸ hslot⟩
            refine Or.inl ⟨hsame, fun c x c' y hother himg => ?_⟩
            obtain ⟨rfl, -⟩ := Prod.mk.inj (Option.some.inj (hslot.symm.trans hother))
            obtain ⟨rfl, -⟩ := Prod.mk.inj (Option.some.inj himg)
            exact heq.ge

/-- With one complete image, `v2_init` on two files survives the other section exactly when
that section does not announce more than its file holds, and libnvram does not make it active
only to refuse it, or with another list under the counter of the image. -/
theorem v2Init_survives_iff (gpio : Option CString)
    (fill : (n : ℕ) → {buf : Bytes // buf.length = n}) (m : Machine FileSystem) (goodA : Bool)
    {pathA pathB : CString} (hA : 0 < pathA.strlen) (hB : 0 < pathB.strlen)
    {list : List Entry} {hdr : LibnvramHeader} (himage : lib.image list hdr ≠ [])
    {other : Bytes}
    (hfiles : (m.sys.content pathA, m.sys.content pathB) =
      sectionPair goodA (lib.image list hdr) other) :
    Survives lib list hdr.counter.toNat other
        (run (fileMachine lib gpio fill) (v2Init lib .file (some pathA) (some pathB)) m).1 ↔
      ¬ Oversized lib other ∧ ¬ Refused lib goodA (lib.image list hdr) other ∧
        ¬ Displaced lib goodA list hdr other := by
  let H := fileMachine.healthy lib gpio fill
  have hconf : Confined (Call.Reads .file fun _ => True) _
      (v2Init lib .file (some pathA) (some pathB)) :=
    reads_v2Init lib (fun _ _ => trivial) fun _ _ => trivial
  have hunder : Under (Answers lib (H.view m)) _ (v2Init lib .file (some pathA) (some pathB)) :=
    under_v2Init (fun _ _ => trivial) fun _ _ => trivial
  have hresult := (H.run_reads hconf hunder).1
  have hdataA : sideData lib (H.view m).contents (some pathA) =
      sectionData lib (sectionPair goodA (lib.image list hdr) other).1 :=
    (sideData_some hA).trans (congrArg (fun p => sectionData lib p.1) hfiles)
  have hdataB : sideData lib (H.view m).contents (some pathB) =
      sectionData lib (sectionPair goodA (lib.image list hdr) other).2 :=
    (sideData_some hB).trans (congrArg (fun p => sectionData lib p.2) hfiles)
  have himg := sectionData_of_image hi himage List.prefix_rfl
  cases hother : sectionData lib other with
  | none =>
      have hover : Oversized lib other := sectionData_eq_none_iff.mp hother
      have hnone : v2Load lib (H.view m).contents (some pathA) (some pathB) = none := by
        cases goodA <;> simp [v2Load, hdataA, hdataB, sectionPair, hother, himg]
      rw [hnone] at hresult
      obtain ⟨e, he⟩ := hresult
      constructor
      · rintro ⟨nvram, loaded, hok, _⟩
        rw [he] at hok
        cases hok
      · rintro ⟨hnot, _⟩
        exact absurd hover hnot
  | some y =>
      have hnot : ¬ Oversized lib other := by
        rw [← sectionData_eq_none_iff, hother]
        exact Option.some_ne_none y
      have hpairA : sideData lib (H.view m).contents (some pathA) =
          some (sectionPair goodA (lib.image list hdr) (otherData lib other)).1 := by
        cases goodA <;> simp [hdataA, sectionPair, otherData, hother, himg]
      have hpairB : sideData lib (H.view m).contents (some pathB) =
          some (sectionPair goodA (lib.image list hdr) (otherData lib other)).2 := by
        cases goodA <;> simp [hdataB, sectionPair, otherData, hother, himg]
      rw [and_iff_right hnot, ← loads_rightList_iff hi ht goodA himage other]
      cases hl : activeList lib (sectionPair goodA (lib.image list hdr) (otherData lib other)).1
          (sectionPair goodA (lib.image list hdr) (otherData lib other)).2 with
      | error e =>
          simp only [v2Load, hpairA, hpairB, hl] at hresult
          obtain ⟨e', he'⟩ := hresult
          simp [Survives, he']
      | ok loaded =>
          simp only [v2Load, hpairA, hpairB, hl] at hresult
          obtain ⟨nvram, hok, _⟩ := hresult
          simp [Survives, hok]

end

/-! ### Evaluated on a plain library -/

/-- A file system with the given files `a` and `b`. -/
def twoFiles (a b : Bytes) : Machine FileSystem :=
  ⟨⟨fun path => if path = lit "a" then some a else if path = lit "b" then some b else none,
    fun _ => none, 3, 0⟩, []⟩

/-- The image under counter 2 with a wrong last byte. -/
def damagedImage : Bytes := (sampleImage 2).dropLast ++ [0xFF]

theorem v2Init_survives_iff_sample :
    Survives plainLibnvram sampleList 1 damagedImage
      (run (fileMachine plainLibnvram none zeros)
        (v2Init plainLibnvram .file (some (lit "a")) (some (lit "b")))
        (twoFiles (sampleImage 1) damagedImage)).1 := by
  have himage : plainLibnvram.image sampleList ⟨.list, 1, 0⟩ ≠ [] := by decide
  have hinactive : ¬ OtherActive plainLibnvram true (sampleImage 1) damagedImage := by
    unfold OtherActive
    decide
  refine (v2Init_survives_iff Plain.imageLaws Plain.transactionLaws none zeros
    (twoFiles (sampleImage 1) damagedImage) true (by decide) (by decide) himage
    (by decide)).mpr ⟨?_, fun h => hinactive h.1, fun h => hinactive h.1⟩
  exact sectionData_eq_none_iff.not.mp (by decide)

/-- A write of section `b` that stopped behind the header makes both sections unreadable. -/
theorem v2Init_fails_beside_truncated_image :
    plainLibnvram.image sampleList ⟨.list, 1, 0⟩ ≠ [] ∧
      ¬ Survives plainLibnvram sampleList 1 ((sampleImage 2).take 20)
        (run (fileMachine plainLibnvram none zeros)
          (v2Init plainLibnvram .file (some (lit "a")) (some (lit "b")))
          (twoFiles (sampleImage 1) ((sampleImage 2).take 20))).1 := by
  refine ⟨by decide, ?_⟩
  have herror : (run (fileMachine plainLibnvram none zeros)
      (v2Init plainLibnvram .file (some (lit "a")) (some (lit "b")))
      (twoFiles (sampleImage 1) ((sampleImage 2).take 20))).1 = .error Errno.eio := by
    decide
  rintro ⟨nvram, loaded, hok, _⟩
  rw [herror] at hok
  cases hok

end Nvram
