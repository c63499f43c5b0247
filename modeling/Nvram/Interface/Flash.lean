import Nvram.Interface.Mtd
import Mathlib.Data.Fin.Tuple.Basic
import Mathlib.Data.Nat.Digits.Defs

/-!
# Flash partitions

A kernel with a table of MTD partitions, numbered from 0, and at most one write protect
line.  A partition keeps its capacity.  `MEMERASE` sets a range to 0xFF; a read gives what is
left from the offset on and a write stores what fits there, both with a short count.
-/

namespace Nvram

open Effects Errno

/-! ### Device nodes -/

theorem digit_toNat {n : ℕ} {c : Char} (hc : c ∈ Nat.toDigits 10 n) :
    48 ≤ c.toNat ∧ c.toNat ≤ 57 := by
  have hdigit := Nat.isDigit_of_mem_toDigits (by omega) (by omega) hc
  simp only [Char.isDigit, Bool.and_eq_true, decide_eq_true_eq] at hdigit
  exact ⟨hdigit.1, hdigit.2⟩

/-- A number is printed with digits, so no byte of it is dropped. -/
theorem mtdPath_bytes (n : ℕ) :
    (mtdPath n).bytes =
      (lit "/dev/mtd").bytes ++ (Nat.toDigits 10 n).map fun c => UInt8.ofNat c.toNat := by
  have hdigits : ((Nat.toDigits 10 n).map fun c => UInt8.ofNat c.toNat).filter (· ≠ 0) =
      (Nat.toDigits 10 n).map fun c => UInt8.ofNat c.toNat := by
    rw [List.filter_eq_self]
    intro b hb
    obtain ⟨c, hc, rfl⟩ := List.mem_map.mp hb
    have hrange := digit_toNat hc
    have hne : UInt8.ofNat c.toNat ≠ 0 := by
      intro h
      have hnat := congrArg UInt8.toNat h
      simp only [UInt8.toNat_ofNat', UInt8.toNat_zero] at hnat
      omega
    simpa using hne
  have htext : ("/dev/mtd" ++ toString (n : ℤ)).toList =
      "/dev/mtd".toList ++ Nat.toDigits 10 n := by
    have hint : toString (n : ℤ) = toString n := rfl
    rw [String.toList_append, hint, Nat.toString_eq_ofList_toDigits]
    exact congrArg ("/dev/mtd".toList ++ ·) String.toList_ofList
  simp only [mtdPath, lit, htext, List.map_append, List.filter_append, hdigits]

theorem mtdPath_injective : Function.Injective fun n : ℕ => mtdPath n := by
  intro m n h
  have hbytes : (mtdPath m).bytes = (mtdPath n).bytes := congrArg CString.bytes h
  rw [mtdPath_bytes, mtdPath_bytes, List.append_cancel_left_eq] at hbytes
  -- the digits can be read back from the bytes
  have hback : ∀ k : ℕ, ((Nat.toDigits 10 k).map fun c => UInt8.ofNat c.toNat).map
      (fun b => Char.ofNat b.toNat) = Nat.toDigits 10 k := by
    intro k
    rw [List.map_map]
    conv_rhs => rw [← List.map_id (Nat.toDigits 10 k)]
    refine List.map_congr_left fun c hc => ?_
    have hrange := digit_toNat hc
    have hmod : c.toNat % 2 ^ 8 = c.toNat := Nat.mod_eq_of_lt (by omega)
    simp only [Function.comp_apply, UInt8.toNat_ofNat', hmod, id_eq, Char.ofNat_toNat]
  have hdigits : Nat.toDigits 10 m = Nat.toDigits 10 n := by
    rw [← hback m, hbytes, hback n]
  rw [← Nat.ofDigitChars_toDigits (b := 10) (n := m) (by omega) (by omega), hdigits,
    Nat.ofDigitChars_toDigits (by omega) (by omega)]

/-! ### The model -/

/-- A partition; libmtd gives its size as a `long long`. -/
structure MtdPartition where
  name : CString
  capacity : ℕ
  bound : capacity < 2 ^ 63

section

variable (table : List MtdPartition)

/-- The partition behind a device node. -/
def partitionAt (path : CString) : Option (Fin table.length) :=
  Fin.find? fun i => mtdPath i.val = path

/-- The first partition with a label. -/
def labelled (label : CString) : Option (Fin table.length) :=
  Fin.find? fun i => table[i].name = label

/-- The write protect line, a file beside the device nodes that may refuse to be opened. -/
structure WpLine where
  path : CString
  notNode : partitionAt table path = none
  accepts : Bool

inductive FlashFile where
  | partition (i : Fin table.length)
  | line

/-- The bytes of every partition, the open files with their offsets, and the next free
descriptor and address. -/
structure Flash where
  content : Fin table.length → Bytes
  length_content : ∀ i, (content i).length = table[i].capacity
  fds : Fd → Option (FlashFile table × ℕ)
  nextFd : Fd
  nextAddr : ℕ

end

/-- `data` over `old` from `pos` on, as far as it fits. -/
def overlay (old : Bytes) (pos : ℕ) (data : Bytes) : Bytes :=
  (old.take pos ++ data ++ old.drop (pos + data.length)).take old.length

@[simp] theorem overlay_length (old : Bytes) (pos : ℕ) (data : Bytes) :
    (overlay old pos data).length = old.length := by
  simp only [overlay, List.length_take, List.length_append, List.length_drop]
  omega

theorem overlay_zero (old data : Bytes) :
    overlay old 0 data = data.take old.length ++ old.drop data.length := by
  simp only [overlay, List.take_zero, List.nil_append, Nat.zero_add, List.take_append]
  rw [List.take_of_length_le (l := old.drop data.length) (by simp)]

variable {table : List MtdPartition}

namespace Flash

variable (s : Flash table)

/-- Store `data` from `pos` on in a partition, as far as it fits. -/
def program (i : Fin table.length) (pos : ℕ) (data : Bytes) : Flash table :=
  { s with
    content := Function.update s.content i (overlay (s.content i) pos data)
    length_content := by
      intro j
      by_cases hj : j = i
      · subst hj
        rw [Function.update_self, overlay_length, s.length_content]
      · rw [Function.update_of_ne hj, s.length_content] }

def openAt (file : FlashFile table) : Flash table :=
  { s with fds := Function.update s.fds s.nextFd (some (file, 0)), nextFd := s.nextFd + 1 }

def advance (fd : Fd) (file : FlashFile table) (offset : ℕ) : Flash table :=
  { s with fds := Function.update s.fds fd (some (file, offset)) }

end Flash

/-- What opening a path opens. -/
def flashFile (line : Option (WpLine table)) (path : CString) : Option (FlashFile table) :=
  match partitionAt table path with
  | some i => some (.partition i)
  | none =>
    match line with
    | some l => if l.path = path ∧ l.accepts then some .line else none
    | none => none

def flash (line : Option (WpLine table)) : Handler sysSig (Flash table)
  | .mallocStruct, s => (some s.nextAddr, { s with nextAddr := s.nextAddr + 1 })
  | .malloc n, s => (some (zeros n), s)
  | .printDebug _ _, s => ((), s)
  | .stat _, s => (.error enoent, s)
  | .openFile path _, s =>
    match flashFile line path with
    | some file => (.ok s.nextFd, s.openAt file)
    | none => (.error enoent, s)
  | .blkGetSize64 _, s => (.error einval, s)
  | .memErase fd start length, s =>
    match s.fds fd with
    | some (.partition i, _) =>
      if start.toNat + length.toNat ≤ table[i].capacity then
        (.ok (), s.program i start.toNat (List.replicate length.toNat 0xFF))
      else (.error einval, s)
    | _ => (.error einval, s)
  | .read fd n, s =>
    match s.fds fd with
    | some (.partition i, offset) =>
      let buf := ((s.content i).drop offset).take n
      (.ok ⟨buf, List.length_take_le _ _⟩, s.advance fd (.partition i) (offset + buf.length))
    | _ => (.error ebadf, s)
  | .write fd buf, s =>
    match s.fds fd with
    | some (.partition i, offset) =>
      let stored := min buf.length (table[i].capacity - offset)
      (.ok ⟨stored, Nat.min_le_left _ _⟩,
        (s.program i offset buf).advance fd (.partition i) (offset + stored))
    | some (.line, _) => (.ok (allWritten buf), s)
    | none => (.error ebadf, s)
  | .close fd, s => ((), { s with fds := Function.update s.fds fd none })
  | .closeUnopened, s => ((), s)
  | .errno, s => (0, s)
  | .fgetflags _, s => (.error enoent, s)
  | .fsetflags _ _, s => (.error eopnotsupp, s)
  | .libmtdOpen, s => (.ok (), s)
  | .mtdGetInfo, s => (.ok ⟨0, (table.length : ℤ) - 1⟩, s)
  | .mtdGetDevInfo1 num, s =>
    if h : 0 ≤ num ∧ num.toNat < table.length then
      (.ok ⟨table[num.toNat].name, num, table[num.toNat].capacity⟩, s)
    else (.error enodev.code, s)
  | .libmtdClose, s => ((), s)

/-! ### Calls that leave the partitions alone -/

/-- All but writes and erases. -/
def SysCall.reads : SysCall → Bool
  | .write _ _ | .memErase _ _ _ => false
  | _ => true

/-- A program that neither writes nor erases. -/
def OnlyReads {α : Type} (p : SysProg α) : Prop :=
  Confined (S := sysSig) (fun o => SysCall.reads o = true) (fun _ => True) p

theorem flash_content (line : Option (WpLine table)) {o : SysCall} (ho : o.reads = true)
    (s : Flash table) : (flash line o s).2.content = s.content := by
  cases o with
  | write fd buf => cases ho
  | memErase fd start length => cases ho
  | openFile path flags =>
      simp only [flash]
      split <;> rfl
  | read fd n =>
      simp only [flash]
      split <;> rfl
  | mtdGetDevInfo1 num =>
      simp only [flash]
      split <;> rfl
  | _ => rfl

theorem run_content_of_reads (line : Option (WpLine table)) {α : Type} {p : SysProg α}
    (hp : OnlyReads p) (s : Flash table) :
    (run (flash line) p s).2.content = s.content :=
  run_preserves (I := fun t => t.content = s.content)
    (fun _ t ho ht => (flash_content line ho t).trans ht) hp rfl

/-- One call that reads, before the rest. -/
theorem onlyReads_call {α : Type} {o : SysCall} {f : SysCall.Res o → SysProg α}
    (ho : o.reads = true) (hf : ∀ r, OnlyReads (f r)) :
    OnlyReads ((Prog.call (S := sysSig) o : SysProg (SysCall.Res o)) >>= f) :=
  ⟨ho, hf⟩

theorem OnlyReads.bind {α β : Type} {p : SysProg α} {f : α → SysProg β} (hp : OnlyReads p)
    (hf : ∀ a, OnlyReads (f a)) : OnlyReads (p >>= f) :=
  confined_seq hp fun a _ => hf a

theorem onlyReads_findMtdFrom (label : CString) (highest : ℤ) (rounds : ℕ) (i : ℤ) :
    OnlyReads (findMtdFrom label highest rounds i) := by
  induction rounds generalizing i with
  | zero => trivial
  | succ rounds ih =>
      apply onlyReads_call rfl
      intro r
      cases r with
      | error code => trivial
      | ok dev =>
          dsimp only
          split
          · trivial
          · split
            · trivial
            · exact ih (i + 1)

theorem onlyReads_findMtd (label : CString) :
    OnlyReads (findMtd label) := by
  apply onlyReads_call rfl
  intro dev
  apply onlyReads_call rfl
  intro info
  split
  · trivial
  · apply onlyReads_call rfl
    intro r
    cases r with
    | error code => trivial
    | ok u =>
        apply onlyReads_call rfl
        intro r
        cases r with
        | error code => exact onlyReads_call (o := .libmtdClose) rfl fun _ => trivial
        | ok info =>
            apply (onlyReads_findMtdFrom _ _ _ _).bind
            intro r
            exact onlyReads_call (o := .libmtdClose) rfl fun _ => trivial

theorem onlyReads_nvramMtdInit (gpio : Option CString) (label : CString) :
    OnlyReads (nvramMtdInit gpio label) := by
  apply onlyReads_call rfl
  intro addr
  cases addr with
  | none => trivial
  | some addr =>
      refine OnlyReads.bind ?_ fun r => ?_
      · refine (onlyReads_findMtd label).bind fun r => ?_
        cases r with
        | error e => trivial
        | ok found =>
            apply onlyReads_call rfl
            intro u
            apply onlyReads_call rfl
            intro mem
            cases mem <;> trivial
      · cases r with
        | error e => trivial
        | ok mtd =>
            dsimp only
            split
            · exact onlyReads_call rfl fun _ => trivial
            · trivial

theorem onlyReads_nvramMtdRead (mtd : NvramMtd) (n : ℕ) :
    OnlyReads (nvramMtdRead mtd n) := by
  apply onlyReads_call rfl
  intro r
  cases r with
  | error e => trivial
  | ok fd =>
      apply onlyReads_call rfl
      intro r
      apply onlyReads_call rfl
      intro u
      cases r <;> trivial

/-! ### The functions of the interface -/

@[simp] theorem partitionAt_mtdPath (i : Fin table.length) :
    partitionAt table (mtdPath i.val) = some i := by
  rw [partitionAt, Fin.find?_eq_some_iff]
  refine ⟨by simp, fun j hj => ?_⟩
  have hne : mtdPath j.val ≠ mtdPath i.val := fun h =>
    absurd (Fin.ext (mtdPath_injective h)) (ne_of_lt hj)
  simpa using hne

@[simp] theorem flashFile_mtdPath (line : Option (WpLine table)) (i : Fin table.length) :
    flashFile line (mtdPath i.val) = some (.partition i) := by
  simp only [flashFile, partitionAt_mtdPath]

theorem labelled_name {label : CString} {i : Fin table.length}
    (h : labelled table label = some i) : table[i].name = label := by
  rw [labelled, Fin.find?_eq_some_iff] at h
  simpa using h.1

/-- The device that `find_mtd` finds from device `i` on is the first with the label. -/
theorem run_findMtdFrom (line : Option (WpLine table)) {label : CString}
    {k : Fin table.length} (hk : labelled table label = some k) (s : Flash table)
    {rounds i : ℕ} (hi : i ≤ k.val) (hrounds : i + rounds = table.length) :
    run (flash line) (findMtdFrom label ((table.length : ℤ) - 1) rounds i) s =
      (.ok ((k.val : ℤ), (table[k].capacity : ℤ)), s) := by
  induction rounds generalizing i with
  | zero =>
      have hlt := k.isLt
      omega
  | succ rounds ih =>
      have hlt : i < table.length := by omega
      have hin : 0 ≤ (i : ℤ) ∧ (i : ℤ).toNat < table.length := ⟨by omega, by simpa using hlt⟩
      have hdev : flash line (.mtdGetDevInfo1 (i : ℤ)) s =
          (.ok ⟨table[i].name, i, table[i].capacity⟩, s) := by
        rw [flash, dif_pos hin]
        rfl
      rw [findMtdFrom, Sys.run_mtdGetDevInfo1, hdev]
      rw [labelled, Fin.find?_eq_some_iff] at hk
      obtain ⟨hname, hfirst⟩ := hk
      by_cases heq : i = k.val
      · subst heq
        have hname' : table[k.val].name = label := by simpa using hname
        simp only [hname', if_true]
        rfl
      · have hne : table[i].name ≠ label := by
          have hj := hfirst ⟨i, hlt⟩ (Fin.lt_def.mpr (by simpa using lt_of_le_of_ne hi heq))
          simpa using hj
        have hlast : ¬ (i : ℤ) = (table.length : ℤ) - 1 := by
          have hlt' := k.isLt
          omega
        simp only [hne, hlast, if_false]
        have hrest := ih (i := i + 1) (by omega) (by omega)
        rw [Nat.cast_add, Nat.cast_one] at hrest
        exact hrest

theorem run_findMtd (line : Option (WpLine table)) {label : CString} {k : Fin table.length}
    (hk : labelled table label = some k) (s : Flash table) :
    ∃ t, run (flash line) (findMtd label) s = (.ok ((k.val : ℤ), (table[k].capacity : ℤ)), t) := by
  have hrounds : ((table.length : ℤ) - 1 - 0 + 1).toNat = table.length := by omega
  have hloop : ∀ t, run (flash line) (findMtdFrom label ((table.length : ℤ) - 1)
      ((table.length : ℤ) - 1 - 0 + 1).toNat 0) t =
        (.ok ((k.val : ℤ), (table[k].capacity : ℤ)), t) := by
    intro t
    rw [hrounds]
    exact run_findMtdFrom line hk t (Nat.zero_le _) (Nat.zero_add _)
  refine ⟨{ s with nextAddr := s.nextAddr + 1 + 1 }, ?_⟩
  rw [findMtd, Sys.run_mallocStruct, Sys.run_mallocStruct]
  simp only [flash, Option.isNone_some, Bool.false_eq_true, or_self, if_false]
  rw [Sys.run_libmtdOpen]
  simp only [flash]
  rw [Sys.run_mtdGetInfo]
  simp only [flash]
  rw [run_bind, hloop]
  rfl

/-- `nvram_mtd_init` finds the partition with the label. -/
theorem run_nvramMtdInit (line : Option (WpLine table)) (gpio : Option CString)
    {label : CString} {k : Fin table.length} (hk : labelled table label = some k)
    (s : Flash table) :
    ∃ addr, (run (flash line) (nvramMtdInit gpio label) s).1 =
      .ok ⟨addr, some ⟨mtdPath k.val, table[k].capacity⟩, gpio⟩ := by
  obtain ⟨t, ht⟩ := run_findMtd line hk { s with nextAddr := s.nextAddr + 1 }
  refine ⟨s.nextAddr, ?_⟩
  rw [nvramMtdInit, Sys.run_mallocStruct]
  simp only [flash]
  rw [run_bind, initNvramMtd, run_bind, ht]
  cases gpio <;> rfl

theorem nvramMtdSize_capacity (path : CString) (p : MtdPartition) :
    nvramMtdSize ⟨path, p.capacity⟩ = p.capacity := by
  have hbound := p.bound
  simp only [nvramMtdSize]
  omega

/-- A read within a partition gives its first bytes, a longer one is short. -/
theorem run_nvramMtdRead (line : Option (WpLine table)) (k : Fin table.length) (size : ℤ)
    (n : ℕ) (s : Flash table) :
    ((s.content k).length < n → (run (flash line)
        (nvramMtdRead ⟨mtdPath k.val, size⟩ n) s).1 = .error eio) ∧
      (n ≤ (s.content k).length → ∃ buf, (run (flash line)
        (nvramMtdRead ⟨mtdPath k.val, size⟩ n) s).1 = .ok buf ∧
          buf.val = (s.content k).take n) := by
  constructor
  · intro hlt
    have hshort : ¬ min n (s.content k).length = n := by omega
    simp [nvramMtdRead, flash, Flash.openAt, hshort]
  · intro hle
    simp [nvramMtdRead, flash, Flash.openAt, hle]

/-! ### Writing -/

/-- Whether `set_gpio` succeeds. -/
def wpOpens : Option (WpLine table) → Bool
  | none => true
  | some line => line.accepts

/-- Whether `nvram_mtd_write` comes to erase a partition: the write protect line can be set
and the size is one that `MEMERASE` takes. -/
def Erases (line : Option (WpLine table)) (k : Fin table.length) : Prop :=
  wpOpens line = true ∧ table[k].capacity ≤ UINT32_MAX

instance (line : Option (WpLine table)) (k : Fin table.length) : Decidable (Erases line k) :=
  inferInstanceAs (Decidable (_ ∧ _))

/-- An erased partition of the given capacity after a write of `buf`. -/
def programmed (capacity : ℕ) (buf : Bytes) : Bytes :=
  buf.take capacity ++ List.replicate (capacity - buf.length) 0xFF

/-- Setting the line touches no partition and no other descriptor. -/
theorem run_setWpGpio (line : Option (WpLine table)) (value : Bool) (s : Flash table) :
    ∃ t, run (flash line) (setWpGpio (line.map WpLine.path) value) s =
        (if wpOpens line then .ok () else .error enoent, t) ∧
      t.content = s.content ∧ ∀ fd, fd < s.nextFd → t.fds fd = s.fds fd := by
  cases line with
  | none => exact ⟨s, rfl, rfl, fun _ _ => rfl⟩
  | some l =>
      cases haccepts : l.accepts with
      | false =>
          have hfile : flashFile (some l) l.path = none := by
            simp [flashFile, l.notNode, haccepts]
          refine ⟨s, ?_, rfl, fun _ _ => rfl⟩
          simp [setWpGpio, setGpio, flash, hfile, wpOpens, haccepts]
      | true =>
          have hfile : flashFile (some l) l.path = some .line := by
            simp [flashFile, l.notNode, haccepts]
          refine ⟨{ (s.openAt .line) with
            fds := Function.update (s.openAt .line).fds s.nextFd none }, ?_, rfl, ?_⟩
          · simp [setWpGpio, setGpio, flash, hfile, wpOpens, haccepts, Flash.openAt]
          · intro fd hfd
            have hne : fd ≠ s.nextFd := Nat.ne_of_lt hfd
            simp [Flash.openAt, hne]

theorem run_eraseMtd (line : Option (WpLine table)) (k : Fin table.length) {fd : Fd}
    {s : Flash table} (hfd : s.fds fd = some (.partition k, 0)) :
    run (flash line) (eraseMtd fd table[k].capacity) s =
      if table[k].capacity ≤ UINT32_MAX then
        (.ok (), s.program k 0 (List.replicate table[k].capacity 0xFF))
      else (.error einval, s) := by
  by_cases hcap : table[k].capacity ≤ UINT32_MAX
  · have hsize : ¬ ((UINT32_MAX : ℤ) < (table[k].capacity : ℤ) ∨
        (table[k].capacity : ℤ) < 0) := by omega
    have hlength : (UInt32.ofNat (table[k].capacity : ℤ).toNat).toNat = table[k].capacity := by
      rw [Int.toNat_natCast]
      exact UInt32.toNat_ofNat_of_lt' (Nat.lt_succ_of_le hcap)
    rw [eraseMtd, if_neg hsize, if_pos hcap]
    show flash line (.memErase fd 0 _) s = _
    simp only [flash, hfd, hlength, UInt32.toNat_zero, Nat.zero_add, le_refl, if_true]
  · have hsize : (UINT32_MAX : ℤ) < (table[k].capacity : ℤ) ∨
        (table[k].capacity : ℤ) < 0 := by omega
    rw [eraseMtd, if_pos hsize, if_neg hcap]
    rfl

@[simp] theorem flash_printDebug (line : Option (WpLine table)) (fmt : String)
    (args : List Arg) (s : Flash table) : flash line (.printDebug fmt args) s = ((), s) := rfl

theorem flash_write (line : Option (WpLine table)) {k : Fin table.length} {fd : Fd}
    {offset : ℕ} (buf : Bytes) {s : Flash table}
    (hfd : s.fds fd = some (.partition k, offset)) :
    flash line (.write fd buf) s =
      (.ok ⟨min buf.length (table[k].capacity - offset), Nat.min_le_left _ _⟩,
        (s.program k offset buf).advance fd (.partition k)
          (offset + min buf.length (table[k].capacity - offset))) := by
  simp only [flash, hfd]

/-- Erase and write on a descriptor of a partition. -/
theorem run_eraseAndWrite (line : Option (WpLine table)) (k : Fin table.length) (path : CString)
    (buf : Bytes) {fd : Fd} {s : Flash table} (hfd : s.fds fd = some (.partition k, 0)) :
    ∃ t, run (flash line) (eraseAndWrite ⟨path, table[k].capacity⟩ fd buf) s =
        (if table[k].capacity ≤ UINT32_MAX then
          (if buf.length ≤ table[k].capacity then .ok () else .error eio)
        else .error einval, t) ∧
      t.content = if table[k].capacity ≤ UINT32_MAX then
          Function.update s.content k (programmed table[k].capacity buf)
        else s.content := by
  rw [eraseAndWrite, Sys.run_prDbg]
  simp only [flash]
  rw [run_bind, run_eraseMtd line k hfd]
  by_cases hcap : table[k].capacity ≤ UINT32_MAX
  · have herased : overlay (s.content k) 0 (List.replicate table[k].capacity 0xFF) =
        List.replicate table[k].capacity 0xFF := by
      rw [overlay_zero, s.length_content, List.length_replicate, List.take_of_length_le (by simp),
        List.drop_of_length_le (by rw [s.length_content]), List.append_nil]
    have hwritten : overlay (List.replicate table[k].capacity 0xFF) 0 buf =
        programmed table[k].capacity buf := by
      rw [overlay_zero, List.length_replicate, List.drop_replicate, programmed]
    have hwrite := flash_write line buf
      (s := s.program k 0 (List.replicate table[k].capacity 0xFF)) hfd
    simp only [if_pos hcap, Sys.run_prDbg]
    rw [Sys.run_write]
    rw [flash_printDebug, hwrite]
    refine ⟨_, Prod.ext ?_ rfl, ?_⟩
    · by_cases hfit : buf.length ≤ table[k].capacity
      · have hall : min buf.length (table[k].capacity - 0) = buf.length := by omega
        simp only [hall, ne_eq, not_true_eq_false, if_false, if_pos hfit]
        rfl
      · have hshort : min buf.length (table[k].capacity - 0) ≠ buf.length := by omega
        simp only [hshort, ne_eq, not_false_eq_true, if_true, if_neg hfit]
        rfl
    · show Function.update (Function.update s.content k _) k (overlay _ 0 buf) = _
      rw [Function.update_idem]
      simp only [Flash.program, Function.update_self, herased, hwritten]
  · simp only [if_neg hcap]
    exact ⟨s, rfl, rfl⟩

/-- What a write leaves in a partition. -/
def written (line : Option (WpLine table)) (k : Fin table.length) (old buf : Bytes) : Bytes :=
  if Erases line k then programmed table[k].capacity buf else old

/-- The end of `nvram_mtd_write`: raise the line and close, whatever happened before. -/
theorem run_finishWrite (line : Option (WpLine table)) (fd : Fd) (r : Except Errno Unit)
    (s : Flash table) :
    ∃ t, run (flash line) (do
        let _ ← setWpGpio (line.map WpLine.path) true
        Sys.close fd
        return r) s = (r, t) ∧ t.content = s.content := by
  obtain ⟨t, hup, hcontent, _⟩ := run_setWpGpio line true s
  refine ⟨{ t with fds := Function.update t.fds fd none }, ?_, hcontent⟩
  rw [run_bind, hup]
  rfl

/-- `nvram_mtd_write` succeeds when it comes to erase and the buffer fits.  Once it has erased,
the partition holds what fits of the buffer, whatever is returned. -/
theorem run_nvramMtdWrite (line : Option (WpLine table)) (k : Fin table.length) (buf : Bytes)
    (s : Flash table) :
    ∃ r t, run (flash line) (nvramMtdWrite ⟨mtdPath k.val, table[k].capacity⟩
        (line.map WpLine.path) buf) s = (r, t) ∧
      (Erases line k ∧ buf.length ≤ table[k].capacity → r = .ok ()) ∧
      (¬ (Erases line k ∧ buf.length ≤ table[k].capacity) → ∃ e, r = .error e) ∧
      t.content = Function.update s.content k (written line k (s.content k) buf) := by
  have hopen : flash line (.openFile (mtdPath k.val) .wronly) s =
      (.ok s.nextFd, s.openAt (.partition k)) := by
    simp only [flash, flashFile_mtdPath]
  obtain ⟨t, hdown, hcontent, hfds⟩ := run_setWpGpio line false (s.openAt (.partition k))
  have hfd : t.fds s.nextFd = some (.partition k, 0) := by
    rw [hfds s.nextFd (Nat.lt_succ_self _)]
    exact Function.update_self ..
  rw [nvramMtdWrite, Sys.run_openFile, hopen]
  dsimp only
  rw [run_bind, hdown]
  cases hwp : wpOpens line with
  | false =>
      have hno : ¬ Erases line k := fun h => by
        rw [Erases, hwp] at h
        cases h.1
      obtain ⟨u, hfinish, hsame⟩ := run_finishWrite line s.nextFd (.error enoent) t
      refine ⟨.error enoent, u, hfinish, fun h => absurd h.1 hno, fun _ => ⟨_, rfl⟩, ?_⟩
      rw [hsame, hcontent, written, if_neg hno, Function.update_eq_self]
      rfl
  | true =>
      obtain ⟨u, hwrite, hstored⟩ := run_eraseAndWrite line k (mtdPath k.val) buf hfd
      simp only [if_true]
      rw [run_bind, hwrite]
      obtain ⟨v, hfinish, hsame⟩ := run_finishWrite line s.nextFd
        (if table[k].capacity ≤ UINT32_MAX then
          (if buf.length ≤ table[k].capacity then .ok () else .error eio)
        else .error einval) u
      have hcontent' : t.content = s.content := hcontent
      refine ⟨_, v, hfinish, fun h => ?_, fun h => ?_, ?_⟩
      · rw [if_pos h.1.2, if_pos h.2]
      · by_cases hcap : table[k].capacity ≤ UINT32_MAX
        · have hbig : ¬ buf.length ≤ table[k].capacity := fun hfit => h ⟨⟨hwp, hcap⟩, hfit⟩
          rw [if_pos hcap, if_neg hbig]
          exact ⟨_, rfl⟩
        · rw [if_neg hcap]
          exact ⟨_, rfl⟩
      · rw [hsame, hstored, hcontent', written]
        by_cases hcap : table[k].capacity ≤ UINT32_MAX
        · rw [if_pos hcap, if_pos ⟨hwp, hcap⟩]
        · rw [if_neg hcap, if_neg fun h : Erases line k => hcap h.2, Function.update_eq_self]

end Nvram
