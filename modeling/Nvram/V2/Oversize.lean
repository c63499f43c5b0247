import Nvram.V2.Session
import Nvram.Libnvram.Plain

/-!
# A commit that does not fit its partition

`nvram_mtd_write` erases before it finds out that the image is longer than the partition.
The commit fails as it should, but what fits of the image stays behind it: a header that is
valid on its own and announces more than there is, so that no later init gets past it.
-/

namespace Nvram

open Effects Errno

section

variable (lib : Libnvram) {table : List MtdPartition} {σ : Type} (h : Handler callSig σ)

/-- The partition that a commit writes first. -/
def targetPartition (table : List MtdPartition) (nvram : V2Nvram) : Option (Fin table.length) :=
  (nvram.target (commitPlan lib nvram).1).bind fun priv => labelled table priv.path

/-- The commit of `new` fails, and the next init on the same sections returns 0 with `old`. -/
def KeepsOld (i : Interface) (sectionA sectionB : Option CString) (nvram : V2Nvram)
    (old new : List Entry) (s : σ) : Prop :=
  let commit := run h (v2Commit lib nvram new) s
  (∃ e, commit.1.1 = .error e) ∧
    ∃ nvram', (run h (v2Init lib i sectionA sectionB) commit.2).1 = .ok (nvram', old)

end

section

variable {lib : Libnvram}

/-- One section whose data cannot be read is enough for no list at all. -/
theorem v2Load_eq_none {c : Contents} {sectionA sectionB : Option CString}
    (h : sideData lib c sectionA = none ∨ sideData lib c sectionB = none) :
    v2Load lib c sectionA sectionB = none := by
  unfold v2Load
  rcases h with h | h
  · rw [h]
  · rw [h]
    cases sideData lib c sectionA <;> rfl

/-- Neither is there one with a configured section whose data cannot be read. -/
theorem v2Load_eq_none_of_configured {c : Contents} {sectionA sectionB : Option CString}
    {path : CString} (hpath : configured sectionA = some path ∨ configured sectionB = some path)
    (h : sectionData lib (c path) = none) : v2Load lib c sectionA sectionB = none := by
  apply v2Load_eq_none
  rcases hpath with hpath | hpath
  · left
    simp only [sideData, hpath, h]
  · right
    simp only [sideData, hpath, h]

/-- What is loaded does not change with a section that keeps its data. -/
theorem v2Load_of_kept {c c' : Contents} {path : CString}
    (helsewhere : ∀ p, p ≠ path → c' p = c p)
    (hdata : sectionData lib (c' path) = sectionData lib (c path))
    (sectionA sectionB : Option CString) :
    v2Load lib c' sectionA sectionB = v2Load lib c sectionA sectionB := by
  have hall : ∀ p, sectionData lib (c' p) = sectionData lib (c p) := by
    intro p
    by_cases hp : p = path
    · rw [hp]
      exact hdata
    · rw [helsewhere p hp]
  exact v2Load_congr (fun p _ => hall p) fun p _ => hall p

/-- A section shorter than a header has no data. -/
theorem sectionData_of_short {content : Bytes} (h : content.length < lib.headerLen.toNat) :
    sectionData lib content = some [] := by
  rw [sectionData, if_neg (not_le.mpr h)]

/-- What is left of an image that was cut behind its header cannot be read. -/
theorem oversized_take (hi : lib.ImageLaws) {list : List Entry} {hdr : LibnvramHeader}
    (himage : lib.image list hdr ≠ []) {n : ℕ} (hheader : lib.headerLen.toNat ≤ n)
    (hcut : n < (lib.image list hdr).length) :
    Oversized lib ((lib.image list hdr).take n) := by
  obtain ⟨h, hvalid, hsize⟩ := (hi.good list hdr himage).validateHeader
  have hlength : ((lib.image list hdr).take n).length = n := by
    rw [List.length_take]
    omega
  refine ⟨?_, h, ?_, ?_⟩
  · rw [hlength]
    exact hheader
  · rw [List.take_take, Nat.min_eq_left hheader]
    exact hvalid
  · rw [hlength, Libnvram.dataSize, hsize]
    exact hcut

theorem programmed_of_lt {capacity : ℕ} {buf : Bytes} (h : capacity < buf.length) :
    programmed capacity buf = buf.take capacity := by
  have hzero : capacity - buf.length = 0 := by omega
  rw [programmed, hzero, List.replicate_zero, List.append_nil]

/-- After a commit of an image that is longer than its partition the old list is still loaded
exactly when nothing was erased or the partition is too small for a header. -/
theorem v2Commit_oversize_keeps_iff (hi : lib.ImageLaws) {table : List MtdPartition}
    (line : Option (WpLine table)) (fill : (n : ℕ) → {buf : Bytes // buf.length = n})
    {sectionA sectionB : Option CString}
    (hA : ∀ p, configured sectionA = some p → (labelled table p).isSome)
    (hB : ∀ p, configured sectionB = some p → (labelled table p).isSome)
    {m : Machine (Flash table)} {nvram : V2Nvram} {old new : List Entry}
    (hinit : (run (mtdMachine lib line fill) (v2Init lib .mtd sectionA sectionB) m).1 =
      .ok (nvram, old))
    {k : Fin table.length} (hk : targetPartition lib table nvram = some k)
    (himage : lib.image new (commitPlan lib nvram).2 ≠ [])
    (hbig : (table.get k).capacity < (lib.image new (commitPlan lib nvram).2).length) :
    KeepsOld lib (mtdMachine lib line fill) .mtd sectionA sectionB nvram old new
        (run (mtdMachine lib line fill) (v2Init lib .mtd sectionA sectionB) m).2 ↔
      wpOpens line = false ∨ (table.get k).capacity < lib.headerLen.toNat := by
  let H := mtdMachine.healthy lib line fill
  generalize hm' : (run (mtdMachine lib line fill) (v2Init lib .mtd sectionA sectionB) m).2 = m'
  have hbig : table[k].capacity < (lib.image new (commitPlan lib nvram).2).length := hbig
  show _ ↔ wpOpens line = false ∨ table[k].capacity < lib.headerLen.toNat
  obtain ⟨priv, htarget, hlabel⟩ := Option.bind_eq_some_iff.mp hk
  obtain ⟨hsame, trans, hload, hopen⟩ := H.of_run_v2Init hA hB (Prod.ext hinit hm')
  obtain ⟨hpriv, hconf⟩ := hopen.of_priv (V2Nvram.priv_of_target htarget)
  rw [← hsame.1] at hload
  have hnofit : ¬ H.Fits priv.path (lib.image new (commitPlan lib nvram).2) := by
    rintro ⟨j, hj, _, hle⟩
    obtain rfl : k = j := Option.some.inj (hlabel.symm.trans hj)
    omega
  obtain ⟨e, t, hcommit, hcontents⟩ := H.run_v2Commit_fails hi hopen.interface himage htarget
    hpriv hnofit m'
  have hkeeps : KeepsOld lib (mtdMachine lib line fill) .mtd sectionA sectionB nvram old new m' ↔
      ∃ trans', v2Load lib (H.contents t) sectionA sectionB = some (trans', old) := by
    rw [← H.run_v2Init_ok_iff hA hB, KeepsOld, hcommit]
    exact ⟨fun hboth => hboth.2, fun hok => ⟨⟨e, rfl⟩, hok⟩⟩
  have hstored : H.contents t priv.path = written line k (H.contents m' priv.path)
      (lib.image new (commitPlan lib nvram).2) := by
    rw [hcontents, Healthy.storeAt, Function.update_self]
    exact mtdMachine_store lib line fill hlabel _ _
  -- where the data of the partition stay, the old list is loaded
  have hstays : sectionData lib (H.contents t priv.path) =
      sectionData lib (H.contents m' priv.path) →
      ∃ trans', v2Load lib (H.contents t) sectionA sectionB = some (trans', old) := by
    intro hdata
    have helsewhere : ∀ p, p ≠ priv.path → H.contents t p = H.contents m' p := fun p hp => by
      rw [hcontents, Healthy.storeAt, Function.update_of_ne hp]
    rw [v2Load_of_kept helsewhere hdata]
    exact ⟨trans, hload⟩
  have hcapacity : (H.contents m' priv.path).length = table[k].capacity := by
    show (m'.sys.contents priv.path).length = _
    rw [m'.sys.contents_of_labelled hlabel, m'.sys.length_content]
  have hsize : table[k].capacity ≤ UINT32_MAX := by
    have hlength := (hi.good _ _ himage).length
    have hlt := (lib.serializeSize new).toNat_lt
    unfold UINT32_MAX
    omega
  rw [hkeeps]
  cases hwp : wpOpens line with
  | false =>
      -- nothing was erased
      have hno : ¬ Erases line k := fun h => by
        rw [Erases, hwp] at h
        cases h.1
      refine iff_of_true (hstays ?_) (Or.inl rfl)
      rw [hstored, written, if_neg hno]
  | true =>
      rw [written, if_pos ⟨hwp, hsize⟩, programmed_of_lt hbig] at hstored
      by_cases hheader : lib.headerLen.toNat ≤ table[k].capacity
      · -- a valid header is left, with less behind it than it announces
        have hnone : v2Load lib (H.contents t) sectionA sectionB = none := by
          have hdata : sectionData lib (H.contents t priv.path) = none := by
            rw [hstored, sectionData_eq_none_iff]
            exact oversized_take hi himage hheader hbig
          exact v2Load_eq_none_of_configured hconf hdata
        rw [hnone]
        refine iff_of_false (fun h => ?_) (fun h => ?_)
        · obtain ⟨_, h⟩ := h
          cases h
        · rcases h with h | h
          · cases h
          · omega
      · have hshort := not_le.mp hheader
        have hlength : (H.contents t priv.path).length ≤ table[k].capacity := by
          rw [hstored]
          exact List.length_take_le _ _
        refine iff_of_true (hstays ?_) (Or.inr hshort)
        rw [sectionData_of_short (by omega), sectionData_of_short (by omega)]

end

/-! ### Evaluated on a plain library -/

/-- Two partitions of 40 bytes. -/
def twoPartitions : List MtdPartition :=
  [⟨lit "a", 40, by decide⟩, ⟨lit "b", 40, by decide⟩]

/-- Partition `a` holds the sample image under counter 1, `b` is erased. -/
def sampleFlash : Machine (Flash twoPartitions) where
  sys :=
    { content := fun i => if i.val = 0 then programmed 40 (sampleImage 1) else programmed 40 []
      length_content := by decide
      fds := fun _ => none
      nextFd := 3
      nextAddr := 0 }
  stdout := []

/-- The handle that an init on both partitions gives. -/
def sampleMtdNvram : V2Nvram where
  interface := .mtd
  trans := Plain.initTransaction (sampleImage 1) []
  privA := some ⟨lit "a", ⟨0, some ⟨mtdPath 0, 40⟩, none⟩⟩
  privB := some ⟨lit "b", ⟨3, some ⟨mtdPath 1, 40⟩, none⟩⟩

/-- A list whose image takes more than 40 bytes. -/
def longList : List Entry :=
  [⟨(lit "key").bytesZ, (lit "a value that is too long").bytesZ⟩]

/-- The program on these partitions, without a write protect line. -/
abbrev sampleMtd : Handler callSig (Machine (Flash twoPartitions)) :=
  mtdMachine plainLibnvram none zeros

/-- An init on both partitions. -/
abbrev sampleMtdInit : NProg (Except Errno (V2Nvram × List Entry)) :=
  v2Init plainLibnvram .mtd (some (lit "a")) (some (lit "b"))

theorem sampleMtd_init : (run sampleMtd sampleMtdInit sampleFlash).1 =
    .ok (sampleMtdNvram, sampleList) := by
  decide +kernel

theorem sampleMtd_labelled {path : Option CString}
    (hpath : path = some (lit "a") ∨ path = some (lit "b")) :
    ∀ p, configured path = some p → (labelled twoPartitions p).isSome := by
  intro p hp
  rcases hpath with rfl | rfl
  · obtain rfl : lit "a" = p := Option.some.inj hp
    decide
  · obtain rfl : lit "b" = p := Option.some.inj hp
    decide

theorem v2Commit_oversize_keeps_iff_sample :
    KeepsOld plainLibnvram sampleMtd .mtd (some (lit "a")) (some (lit "b")) sampleMtdNvram
        sampleList longList (run sampleMtd sampleMtdInit sampleFlash).2 ↔
      wpOpens (none : Option (WpLine twoPartitions)) = false ∨ 40 < 20 :=
  v2Commit_oversize_keeps_iff Plain.imageLaws none zeros (sampleMtd_labelled (Or.inl rfl))
    (sampleMtd_labelled (Or.inr rfl)) sampleMtd_init (k := ⟨1, by decide⟩) (by decide) (by decide)
    (by decide)

/-- After the commit of a list that is too long by some bytes the next init fails, though the
old list is complete in the other partition. -/
theorem v2Commit_oversize_loses_old :
    (run sampleMtd sampleMtdInit sampleFlash).1 = .ok (sampleMtdNvram, sampleList) ∧
      40 < (plainLibnvram.image longList (commitPlan plainLibnvram sampleMtdNvram).2).length ∧
      ¬ KeepsOld plainLibnvram sampleMtd .mtd (some (lit "a")) (some (lit "b")) sampleMtdNvram
        sampleList longList (run sampleMtd sampleMtdInit sampleFlash).2 := by
  refine ⟨sampleMtd_init, by decide, ?_⟩
  rintro ⟨_, nvram, hok⟩
  have herror : (run sampleMtd sampleMtdInit (run sampleMtd (v2Commit plainLibnvram sampleMtdNvram
      longList) (run sampleMtd sampleMtdInit sampleFlash).2).2).1 = .error eio := by
    decide +kernel
  rw [herror] at hok
  cases hok

end Nvram
