import Nvram.Machine

/-!
# Block devices behind the file interface

A kernel whose files are block devices of a table, each with its path for a name.  A device
keeps its capacity: opening it with `O_TRUNC` leaves it as it is, and a write stores what fits
from the offset on over what was there.
-/

namespace Nvram

open Effects Errno

variable {table : List MtdPartition}

/-- What differs from the partitions of the flash model; nothing else can be created. -/
def blockDevices : Handler sysSig (Flash table)
  | .stat path, s =>
    match labelled table path with
    | some _ => (.ok ⟨.blk, 0⟩, s)
    | none => (.error enoent, s)
  | .openFile path _, s =>
    match labelled table path with
    | some i => (.ok s.nextFd, s.openAt (.partition i))
    | none => (.error eacces, s)
  | .blkGetSize64 fd, s =>
    match s.fds fd with
    | some (.partition i, _) => (.ok (UInt64.ofNat (table.get i).capacity), s)
    | _ => (.error ebadf, s)
  | o, s => flash none o s

/-- What a write leaves on a device of the given capacity. -/
def overwritten (capacity : ℕ) (old buf : Bytes) : Bytes := (buf ++ old.drop buf.length).take capacity

section

variable {path : CString} {k : Fin table.length} (hk : labelled table path = some k)
  (s : Flash table)

include hk

theorem run_fileSize_block :
    (run blockDevices (fileSize path) s).1 = .ok (s.content k).length ∧
      (run blockDevices (fileSize path) s).2.content = s.content := by
  have hbound := table[k.val].bound
  have hmod : table[k.val].capacity % 18446744073709551616 = table[k.val].capacity :=
    Nat.mod_eq_of_lt (by omega)
  have hfits : ¬ SIZE_MAX < table[k.val].capacity := by
    rw [SIZE_MAX]
    omega
  have hlength : (s.content k).length = table[k.val].capacity := s.length_content k
  rw [hlength]
  simp [fileSize, blockDevices, flash, hk, Flash.openAt, hmod, hfits]

/-- A read within a device gives its first bytes, a longer one is short. -/
theorem run_fileRead_block (n : ℕ) :
    ((s.content k).length < n → (run blockDevices (fileRead path n) s).1 = .error eio) ∧
      (n ≤ (s.content k).length → ∃ buf, (run blockDevices (fileRead path n) s).1 = .ok buf ∧
        buf.val = (s.content k).take n) := by
  constructor
  · intro hlt
    have hshort : ¬ min n (s.content k).length = n := by omega
    simp [fileRead, blockDevices, flash, hk, Flash.openAt, hshort]
  · intro hle
    simp [fileRead, blockDevices, flash, hk, Flash.openAt, hle]

theorem run_fileRead_block_content (n : ℕ) :
    (run blockDevices (fileRead path n) s).2.content = s.content := by
  simp only [fileRead, blockDevices, flash, hk, Sys.run_openFile, Flash.openAt, Sys.run_read,
    Function.update_self, Sys.run_close]
  rfl

/-- A write that fits covers the start of the device; a longer one is short. -/
theorem run_fileWrite_block (buf : Bytes) :
    ∃ r t, run blockDevices (fileWrite path buf) s = (r, t) ∧
      (buf.length ≤ (table.get k).capacity → r = .ok ()) ∧
      ((table.get k).capacity < buf.length → r = .error eio) ∧
      t.content = Function.update s.content k
        (overwritten (table.get k).capacity (s.content k) buf) := by
  have hlength : (s.content k).length = (table.get k).capacity := s.length_content k
  have hoverlay : overlay (s.content k) 0 buf =
      overwritten (table.get k).capacity (s.content k) buf := by
    rw [overwritten, ← hlength]
    simp only [overlay, List.take_zero, List.nil_append, Nat.zero_add]
  unfold fileWrite
  simp only [Sys.run_openFile, blockDevices, hk, Flash.openAt, Sys.run_write, flash,
    Function.update_self, Sys.run_close]
  refine ⟨_, _, rfl, ?_, ?_, ?_⟩
  · intro hle
    have hall : ¬ min buf.length ((table.get k).capacity - 0) ≠ buf.length := by omega
    exact if_neg hall
  · intro hlt
    have hshort : min buf.length ((table.get k).capacity - 0) ≠ buf.length := by omega
    exact if_pos hshort
  · show Function.update s.content k (overlay (s.content k) 0 buf) = _
    rw [hoverlay]

end

/-! ### The machine on block devices -/

section

variable (lib : Libnvram) (gpio : Option CString)
  (fill : (n : ℕ) → {buf : Bytes // buf.length = n})

/-- The program on a table of block devices. -/
abbrev blockMachine : Handler callSig (Machine (Flash table)) :=
  machine lib gpio fill blockDevices

/-- A handle on one of the devices. -/
def BlockHandle (priv : NvramPriv) : Prop := (labelled table priv.path).isSome

theorem blockMachine_write {priv : NvramPriv} {k : Fin table.length}
    (hk : labelled table priv.path = some k) (buf : Bytes) (m : Machine (Flash table)) :
    ∃ r t, blockMachine lib gpio fill (.write .file (some priv) buf) m = (r, { m with sys := t }) ∧
      (buf.length ≤ (table.get k).capacity → r = .ok ()) ∧
      ((table.get k).capacity < buf.length → r = .error eio) ∧
      t.contents = Function.update m.sys.contents priv.path
        (overwritten (table.get k).capacity (m.sys.contents priv.path) buf) := by
  obtain ⟨r, t, hrun, hok, herr, hcontent⟩ := run_fileWrite_block hk m.sys buf
  refine ⟨r, t, ?_, hok, herr, ?_⟩
  · show m.exec blockDevices (fileWrite priv.path buf) = _
    rw [Machine.exec, hrun]
  · rw [Flash.contents_of_labelled m.sys hk]
    exact Flash.contents_update hk hcontent

/-- Asking for the size keeps what the devices hold, whatever the path. -/
theorem blockMachine_size (path : CString) (s : Flash table) :
    (run blockDevices (fileSize path) s).2.contents = s.contents := by
  cases hk : labelled table path with
  | none => simp [fileSize, blockDevices, hk]
  | some k => exact Flash.contents_congr (run_fileSize_block hk s).2

theorem blockMachine_read (path : CString) (n : ℕ) (s : Flash table) :
    (run blockDevices (fileRead path n) s).2.contents = s.contents := by
  cases hk : labelled table path with
  | none => simp [fileRead, blockDevices, hk]
  | some k => exact Flash.contents_congr (run_fileRead_block_content hk s n)

def blockMachine.healthy : Healthy lib .file (@blockMachine table lib gpio fill) where
  Section path := (labelled table path).isSome
  Handle := BlockHandle
  contents m := m.sys.contents
  stdout m := m.stdout
  Fits path buf := ∃ k, labelled table path = some k ∧ buf.length ≤ (table.get k).capacity
  store path old buf :=
    match labelled table path with
    | some k => overwritten (table.get k).capacity old buf
    | none => old
  store_prefix path old buf hfits := by
    obtain ⟨k, hk, hle⟩ := hfits
    simp only [hk, overwritten, List.take_append, List.take_of_length_le hle]
    exact List.prefix_append _ _
  answers o m hi hwrite := by
    cases o with
    | init j path =>
        obtain rfl := hi j rfl
        intro hsome
        exact ⟨_, rfl, hsome⟩
    | size j priv =>
        obtain rfl := hi j rfl
        cases priv with
        | none => trivial
        | some priv =>
            intro hpriv
            obtain ⟨k, hk⟩ := Option.isSome_iff_exists.mp hpriv
            show _ = Except.ok (m.sys.contents priv.path).length
            rw [m.sys.contents_of_labelled hk]
            exact (run_fileSize_block hk m.sys).1
    | read j priv n =>
        obtain rfl := hi j rfl
        cases priv with
        | none => trivial
        | some priv =>
            intro hpriv
            obtain ⟨k, hk⟩ := Option.isSome_iff_exists.mp hpriv
            have hread := run_fileRead_block hk m.sys n
            rw [← m.sys.contents_of_labelled hk] at hread
            exact ⟨fun hlt => ⟨_, hread.1 hlt⟩, fun hle _ => hread.2 hle⟩
    | write j priv buf => cases hwrite
    | sectionOf j priv => trivial
    | destroy j priv => trivial
    | _ => exact machine_answers lib gpio fill blockDevices m _ rfl
  keeps o m hi hwrite := by
    cases o with
    | init j path =>
        obtain rfl := hi j rfl
        rfl
    | size j priv =>
        obtain rfl := hi j rfl
        cases priv with
        | none => rfl
        | some priv => exact blockMachine_size priv.path m.sys
    | read j priv n =>
        obtain rfl := hi j rfl
        cases priv with
        | none => rfl
        | some priv => exact blockMachine_read priv.path n m.sys
    | write j priv buf => cases hwrite
    | _ => rfl
  stores priv buf m hpriv := by
    obtain ⟨k, hk⟩ := Option.isSome_iff_exists.mp hpriv
    obtain ⟨r, t, hrun, _, _, hcontents⟩ := blockMachine_write lib gpio fill hk buf m
    rw [hrun]
    simp only [hk]
    exact hcontents
  succeeds priv buf m hpriv hfits := by
    obtain ⟨k, hk, hle⟩ := hfits
    obtain ⟨r, t, hrun, hok, _, _⟩ := blockMachine_write lib gpio fill hk buf m
    rw [hrun]
    exact hok hle
  fails priv buf m hpriv hfits := by
    obtain ⟨k, hk⟩ := Option.isSome_iff_exists.mp hpriv
    obtain ⟨r, t, hrun, _, herr, _⟩ := blockMachine_write lib gpio fill hk buf m
    rw [hrun]
    exact ⟨_, herr (not_le.mp fun hle => hfits ⟨k, hk, hle⟩)⟩
  printed o m _ := machine_printed lib gpio fill blockDevices m o

theorem blockMachine_store {path : CString} {k : Fin table.length}
    (hk : labelled table path = some k) (old buf : Bytes) :
    (@blockMachine.healthy table lib gpio fill).store path old buf =
      overwritten (table.get k).capacity old buf := by
  simp only [blockMachine.healthy, hk]

end

end Nvram
