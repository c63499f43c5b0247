import Nvram.Interface.Flash
import Mathlib.Data.List.Nodup

/-!
# Labels of MTD devices

`find_mtd` goes through the numbers between the lowest and the highest device and stops at
the first one that libmtd has no device for.  So a label is found where no number is missing
before its device, and only there.
-/

namespace Nvram

open Effects Errno

/-- The MTD devices that are present, at least one, no two with the same number. -/
structure MtdDevices where
  devices : List MtdDevInfo
  nonempty : devices ≠ []
  distinct : (devices.map (·.mtdNum)).Nodup

namespace MtdDevices

variable (t : MtdDevices)

def numbers : List ℤ := t.devices.map (·.mtdNum)

theorem numbers_ne_nil : t.numbers ≠ [] := fun h => t.nonempty (List.map_eq_nil_iff.mp h)

def lowest : ℤ := t.numbers.min t.numbers_ne_nil

def highest : ℤ := t.numbers.max t.numbers_ne_nil

/-- The device with a number. -/
def dev (num : ℤ) : Option MtdDevInfo := t.devices.find? (·.mtdNum = num)

theorem lowest_le {d : MtdDevInfo} (hd : d ∈ t.devices) : t.lowest ≤ d.mtdNum :=
  List.min_le_of_mem (List.mem_map_of_mem hd)

theorem le_highest {d : MtdDevInfo} (hd : d ∈ t.devices) : d.mtdNum ≤ t.highest :=
  List.le_max_of_mem (List.mem_map_of_mem hd)

theorem lowest_le_highest : t.lowest ≤ t.highest := by
  obtain ⟨d, hd⟩ := List.exists_mem_of_ne_nil _ t.nonempty
  exact le_trans (t.lowest_le hd) (t.le_highest hd)

theorem mem_of_dev {num : ℤ} {d : MtdDevInfo} (h : t.dev num = some d) :
    d ∈ t.devices ∧ d.mtdNum = num := by
  have hnum := List.find?_some h
  exact ⟨List.mem_of_find?_eq_some h, by simpa using hnum⟩

theorem dev_eq_none {num : ℤ} : t.dev num = none ↔ ∀ d ∈ t.devices, d.mtdNum ≠ num := by
  unfold dev
  rw [List.find?_eq_none]
  constructor
  · intro h d hd heq
    exact h d hd (by simpa using heq)
  · intro h d hd heq
    exact h d hd (by simpa using heq)

theorem dev_of_mem {d : MtdDevInfo} (hd : d ∈ t.devices) : t.dev d.mtdNum = some d := by
  cases hdev : t.dev d.mtdNum with
  | none => exact absurd rfl (t.dev_eq_none.mp hdev d hd)
  | some e =>
      obtain ⟨he, hnum⟩ := t.mem_of_dev hdev
      rw [List.inj_on_of_nodup_map t.distinct he hd hnum]

theorem dev_above : t.dev (t.highest + 1) = none := by
  rw [dev_eq_none]
  intro d hd heq
  have hle := t.le_highest hd
  omega

/-- The lowest-numbered device with a label. -/
def First (label : CString) (d : MtdDevInfo) : Prop :=
  d ∈ t.devices ∧ d.name = label ∧
    ∀ e ∈ t.devices, e.name = label → d.mtdNum ≤ e.mtdNum

/-- What a label resolves to: the first device that has it, or `-ENODEV`. -/
def Resolves (label : CString) (r : Except Errno (ℤ × ℤ)) : Prop :=
  (∃ d, t.First label d ∧ r = .ok (d.mtdNum, d.size)) ∨
    (∀ d ∈ t.devices, d.name ≠ label) ∧ r = .error enodev

/-- Every number from the lowest one up to that of the first device with the label has a
device. -/
def ContiguousTo (label : CString) : Prop :=
  ∀ d, t.First label d → ∀ num, t.lowest ≤ num → num < d.mtdNum → (t.dev num).isSome

theorem exists_first {label : CString} {d : MtdDevInfo} (hd : d ∈ t.devices)
    (hname : d.name = label) : ∃ d, t.First label d := by
  have hne : (t.devices.filter (·.name = label)).map (·.mtdNum) ≠ [] := by
    intro hnil
    have hmem : d ∈ t.devices.filter (·.name = label) :=
      List.mem_filter.mpr ⟨hd, by simpa using hname⟩
    rw [List.map_eq_nil_iff.mp hnil] at hmem
    cases hmem
  obtain ⟨e, he, hmin⟩ := List.mem_map.mp (List.min_mem hne)
  obtain ⟨hin, hlabel⟩ := List.mem_filter.mp he
  refine ⟨e, hin, by simpa using hlabel, ?_⟩
  intro other hother hsame
  rw [hmin]
  exact List.min_le_of_mem
    (List.mem_map_of_mem (List.mem_filter.mpr ⟨hother, by simpa using hsame⟩))

end MtdDevices

/-- What libmtd answers for the devices, and memory is there: an open handle, the range of
their numbers, and each device or `ENODEV`. -/
structure ServesMtd {σ : Type} (h : Handler sysSig σ) (t : MtdDevices) : Prop where
  memory : ∀ s, ((h .mallocStruct s).1 : Option ℕ) ≠ none
  opens : ∀ s, ((h .libmtdOpen s).1 : Except ℕ Unit) = .ok ()
  info : ∀ s, ((h .mtdGetInfo s).1 : Except ℕ MtdInfo) = .ok ⟨t.lowest, t.highest⟩
  present : ∀ s {num : ℤ} {d : MtdDevInfo}, t.dev num = some d →
    ((h (.mtdGetDevInfo1 num) s).1 : Except ℕ MtdDevInfo) = .ok d
  absent : ∀ s {num : ℤ}, t.dev num = none →
    ((h (.mtdGetDevInfo1 num) s).1 : Except ℕ MtdDevInfo) = .error enodev.code

section

variable {σ : Type} {h : Handler sysSig σ} {t : MtdDevices}

/-- The loop ends with `-ENODEV` at a number without a device, if no device before it has the
label. -/
theorem run_findMtdFrom_absent (hserves : ServesMtd h t) (label : CString) {gap : ℤ}
    (hgap : t.dev gap = none) (rounds : ℕ) (i : ℤ) (s : σ)
    (hrounds : i + rounds = t.highest + 1) (hi : i ≤ gap) (hstart : i ≤ t.highest)
    (hclear : ∀ d ∈ t.devices, i ≤ d.mtdNum → d.mtdNum < gap → d.name ≠ label) :
    (run h (findMtdFrom label t.highest rounds i) s).1 = .error enodev := by
  induction rounds generalizing i s with
  | zero => omega
  | succ rounds ih =>
      rw [findMtdFrom, Sys.run_mtdGetDevInfo1]
      cases hdev : t.dev i with
      | none =>
          rw [hserves.absent s hdev]
          rfl
      | some d =>
          obtain ⟨hd, hnum⟩ := t.mem_of_dev hdev
          have hne : i ≠ gap := by
            intro heq
            rw [heq, hgap] at hdev
            cases hdev
          have hname : ¬ d.name = label := hclear d hd (by omega) (by omega)
          rw [hserves.present s hdev]
          dsimp only
          rw [if_neg hname]
          by_cases hlast : i = t.highest
          · rw [if_pos hlast]
            rfl
          · rw [if_neg hlast]
            refine ih (i + 1) _ (by omega) (by omega) (by omega) ?_
            intro e he hle hlt
            exact hclear e he (by omega) hlt

/-- The loop reaches the first device with the label where no number before it is missing. -/
theorem run_findMtdFrom_first (hserves : ServesMtd h t) {label : CString} {d : MtdDevInfo}
    (hd : t.First label d) (rounds : ℕ) (i : ℤ) (s : σ)
    (hrounds : i + rounds = t.highest + 1) (hi : i ≤ d.mtdNum)
    (hall : ∀ num, i ≤ num → num < d.mtdNum → (t.dev num).isSome) :
    (run h (findMtdFrom label t.highest rounds i) s).1 = .ok (d.mtdNum, d.size) := by
  obtain ⟨hin, hlabel, hfirst⟩ := hd
  have hhighest := t.le_highest hin
  induction rounds generalizing i s with
  | zero => omega
  | succ rounds ih =>
      rw [findMtdFrom, Sys.run_mtdGetDevInfo1]
      by_cases heq : i = d.mtdNum
      · rw [heq, hserves.present s (t.dev_of_mem hin)]
        dsimp only
        rw [if_pos hlabel]
        rfl
      · obtain ⟨e, hdev⟩ := Option.isSome_iff_exists.mp (hall i (le_refl i) (by omega))
        obtain ⟨he, hnum⟩ := t.mem_of_dev hdev
        have hname : ¬ e.name = label := by
          intro hsame
          have hle := hfirst e he hsame
          omega
        have hlast : ¬ i = t.highest := by omega
        rw [hserves.present s hdev]
        dsimp only
        rw [if_neg hname, if_neg hlast]
        refine ih (i + 1) _ (by omega) (by omega) ?_
        intro num hle hlt
        exact hall num (by omega) hlt

/-- Around the loop `find_mtd` only allocates, opens and closes. -/
theorem run_findMtd_loop (hserves : ServesMtd h t) (label : CString) (s : σ) :
    ∃ s', (run h (findMtd label) s).1 =
      (run h (findMtdFrom label t.highest (t.highest - t.lowest + 1).toNat t.lowest) s').1 := by
  have hdev : ((h .mallocStruct s).1 : Option ℕ).isNone = false := by
    simpa using Option.isSome_iff_ne_none.mpr (hserves.memory s)
  have hinfo : ((h .mallocStruct (h .mallocStruct s).2).1 : Option ℕ).isNone = false := by
    simpa using Option.isSome_iff_ne_none.mpr (hserves.memory _)
  refine ⟨(h .mtdGetInfo (h .libmtdOpen (h .mallocStruct (h .mallocStruct s).2).2).2).2, ?_⟩
  unfold findMtd
  rw [Sys.run_mallocStruct, Sys.run_mallocStruct]
  rw [if_neg (by rw [hdev, hinfo]; simp), Sys.run_libmtdOpen, hserves.opens]
  dsimp only
  rw [Sys.run_mtdGetInfo, hserves.info]
  dsimp only
  rw [run_bind, Sys.run_libmtdClose]
  rfl

end

/-! ### Tables -/

/-- The answer for a number with or without a device. -/
def devInfo : Option MtdDevInfo → Except ℕ MtdDevInfo
  | some d => .ok d
  | none => .error enodev.code

/-- The kernel of the flash model without partitions, libmtd showing `t`. -/
def libmtd (t : MtdDevices) : Handler sysSig (Flash [])
  | .mtdGetInfo, s => (.ok ⟨t.lowest, t.highest⟩, s)
  | .mtdGetDevInfo1 num, s => (devInfo (t.dev num), s)
  | o, s => flash none o s

theorem servesMtd_libmtd (t : MtdDevices) : ServesMtd (libmtd t) t where
  memory s := by
    intro h
    cases h
  opens s := rfl
  info s := rfl
  present s num d hdev := congrArg devInfo hdev
  absent s num hdev := congrArg devInfo hdev

def noPartitions : Flash [] := ⟨nofun, nofun, fun _ => none, 3, 1⟩

/-- Three devices without a gap. -/
def contiguousDevices : MtdDevices where
  devices := [⟨lit "bootloader", 0, 65536⟩, ⟨lit "env", 1, 4096⟩, ⟨lit "user_a", 2, 65536⟩]
  nonempty := by decide
  distinct := by decide

/-- Devices 0 and 2, device 1 being gone. -/
def gappedDevices : MtdDevices where
  devices := [⟨lit "bootloader", 0, 65536⟩, ⟨lit "user_a", 2, 65536⟩]
  nonempty := by decide
  distinct := by decide

/-! ### Labels -/

/-- `find_mtd` resolves a label exactly when no number is missing between the lowest one and
the first device with the label. -/
theorem find_mtd_resolves_iff {σ : Type} {h : Handler sysSig σ} {t : MtdDevices}
    (hserves : ServesMtd h t) (label : CString) (s : σ) :
    t.Resolves label (run h (findMtd label) s).1 ↔ t.ContiguousTo label := by
  obtain ⟨s', hrun⟩ := run_findMtd_loop hserves label s
  have hrange := t.lowest_le_highest
  have hrounds : t.lowest + ((t.highest - t.lowest + 1).toNat : ℤ) = t.highest + 1 := by omega
  rw [hrun]
  constructor
  · intro hresolves d hfirst num hle hlt
    rw [Option.isSome_iff_ne_none]
    intro hgap
    -- the loop stops at the missing number
    have habsent := run_findMtdFrom_absent hserves label hgap _ t.lowest s' hrounds hle
      hrange (by
        intro e he _ hbefore hname
        have hmin := hfirst.2.2 e he hname
        omega)
    rw [habsent] at hresolves
    rcases hresolves with ⟨e, -, hok⟩ | ⟨hnone, -⟩
    · cases hok
    · exact hnone d hfirst.1 hfirst.2.1
  · intro hcontiguous
    by_cases hlabelled : ∃ d ∈ t.devices, d.name = label
    · obtain ⟨d, hd, hname⟩ := hlabelled
      obtain ⟨e, hfirst⟩ := t.exists_first hd hname
      exact .inl ⟨e, hfirst, run_findMtdFrom_first hserves hfirst _ t.lowest s' hrounds
        (t.lowest_le hfirst.1) (hcontiguous e hfirst)⟩
    · have hnone : ∀ d ∈ t.devices, d.name ≠ label :=
        fun d hd hname => hlabelled ⟨d, hd, hname⟩
      exact .inr ⟨hnone, run_findMtdFrom_absent hserves label t.dev_above _ t.lowest s'
        hrounds (by omega) hrange fun d hd _ _ => hnone d hd⟩

theorem find_mtd_resolves_iff_sample :
    contiguousDevices.Resolves (lit "user_a")
      (run (libmtd contiguousDevices) (findMtd (lit "user_a")) noPartitions).1 := by
  refine (find_mtd_resolves_iff (servesMtd_libmtd contiguousDevices) _ _).mpr ?_
  intro d hfirst num hle hlt
  have hd : d.mtdNum ≤ 2 := hfirst.2.2 ⟨lit "user_a", 2, 65536⟩ (by decide) rfl
  have hlowest : contiguousDevices.lowest = 0 := by decide
  rw [hlowest] at hle
  have hnum : num = 0 ∨ num = 1 := by omega
  rcases hnum with rfl | rfl
  · decide
  · decide

/-- `user_a` is device 2, and `find_mtd` answers `-ENODEV`. -/
theorem find_mtd_misses_behind_gap :
    ServesMtd (libmtd gappedDevices) gappedDevices ∧
      gappedDevices.First (lit "user_a") ⟨lit "user_a", 2, 65536⟩ ∧
      (run (libmtd gappedDevices) (findMtd (lit "user_a")) noPartitions).1 = .error enodev ∧
      ¬ gappedDevices.Resolves (lit "user_a")
        (run (libmtd gappedDevices) (findMtd (lit "user_a")) noPartitions).1 := by
  have hfirst : gappedDevices.First (lit "user_a") ⟨lit "user_a", 2, 65536⟩ := by
    refine ⟨by decide, rfl, ?_⟩
    decide
  have hrun : (run (libmtd gappedDevices) (findMtd (lit "user_a")) noPartitions).1 =
      .error enodev := by decide +kernel
  refine ⟨servesMtd_libmtd _, hfirst, hrun, ?_⟩
  rw [hrun]
  intro hresolves
  rcases hresolves with ⟨d, -, hok⟩ | ⟨hnone, -⟩
  · cases hok
  · exact hnone _ hfirst.1 rfl

end Nvram
