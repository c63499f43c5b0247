import Nvram.Interface.Protection
import Nvram.Program.Descriptors
import Nvram.Program.Devices

/-!
# The program and write protection

Whatever is asked of the program, and however its calls and system calls are answered, what is
protected is written only while the protection is off, and is protected again in the end, unless
the kernel refused.
-/

namespace Nvram

open Effects Errno

/-! ### Section calls -/

section

variable {gpio : Option CString} {o : Call}

theorem monitored_flagLayer (ho : ∀ j, o.interface? = some j → j = .efi) {g : FlagGuard}
    (hg : g.Settled) :
    Monitored (flagMonitor.right callSig) (fun g' _ => g'.Settled) (interfaceLayer gpio o) g := by
  cases o with
  | init j path =>
      obtain rfl := ho j rfl
      exact (monitored_looks looks_efiInit hg).right
  | size j priv =>
      obtain rfl := ho j rfl
      cases priv with
      | none => exact hg
      | some priv => exact (monitored_looks (looks_efiSize priv.path) hg).right
  | read j priv n =>
      obtain rfl := ho j rfl
      cases priv with
      | none => exact hg
      | some priv => exact (monitored_looks (looks_efiRead priv.path n) hg).right
  | write j priv buf =>
      obtain rfl := ho j rfl
      cases priv with
      | none => exact hg
      | some priv => exact (monitored_efiWrite hg buf).right
  | sectionOf j priv => exact hg
  | destroy j priv => exact hg
  | _ => exact ⟨trivial, fun _ => hg⟩

/-- The handles have the pin. -/
def HavePin (pin : CString) (live : Multiset OpenHandle) : Prop :=
  ∀ h ∈ live, h.2.data.gpio = some pin

theorem monitored_pinLayer {pin : CString} {live : Multiset OpenHandle}
    (ho : (handleMonitor.only fun o => ∀ j, o.interface? = some j → j = .mtd).allows live o)
    {g : PinGuard} (hpin : HavePin pin live) (hg : g.Settled) :
    Monitored ((pinMonitor pin).right callSig)
      (fun g' r => HavePin pin (handleMonitor.next live o r) ∧ g'.Settled)
      (interfaceLayer (some pin) o) g := by
  obtain ⟨hlive, ho⟩ := ho
  cases o with
  | init j path =>
      obtain rfl := ho j rfl
      refine (monitored_of_not_stores (quiet_nvramMtdInit (some pin) path) hg).right.mono
        fun g' r h => ⟨?_, h.1⟩
      cases r with
      | error e => exact hpin
      | ok data =>
          intro h' hh
          rcases Multiset.mem_cons.mp hh with rfl | hh
          · exact h.2 data rfl
          · exact hpin h' hh
  | size j priv =>
      obtain rfl := ho j rfl
      cases priv with
      | none => exact ⟨hpin, hg⟩
      | some priv =>
          refine Monitored.right (Q := fun (g' : PinGuard) _ => HavePin pin live ∧ g'.Settled) ?_
          obtain ⟨path, addr, mtd, gpio⟩ := priv
          cases mtd with
          | none => exact ⟨hpin, hg⟩
          | some mtd => exact ⟨hpin, hg⟩
  | read j priv n =>
      obtain rfl := ho j rfl
      cases priv with
      | none => exact ⟨hpin, hg⟩
      | some priv =>
          refine Monitored.right (Q := fun (g' : PinGuard) _ => HavePin pin live ∧ g'.Settled) ?_
          obtain ⟨path, addr, mtd, gpio⟩ := priv
          cases mtd with
          | none => exact ⟨hpin, hg⟩
          | some mtd =>
              exact (monitored_of_not_stores (quiet_nvramMtdRead mtd n) hg).mono
                fun g' r h => ⟨hpin, h.1⟩
  | write j priv buf =>
      obtain rfl := ho j rfl
      cases priv with
      | none => exact ⟨hpin, hg⟩
      | some priv =>
          refine Monitored.right (Q := fun (g' : PinGuard) _ => HavePin pin live ∧ g'.Settled) ?_
          have hgpio : priv.data.gpio = some pin := hpin _ hlive
          obtain ⟨path, addr, mtd, gpio⟩ := priv
          obtain rfl : gpio = some pin := hgpio
          cases mtd with
          | none => exact ⟨hpin, hg⟩
          | some mtd => exact (monitored_nvramMtdWrite hg mtd buf).mono fun g' r h => ⟨hpin, h⟩
  | sectionOf j priv => exact ⟨hpin, hg⟩
  | destroy j priv =>
      cases priv with
      | none => exact ⟨hpin, hg⟩
      | some priv => exact ⟨fun h hh => hpin h (Multiset.mem_of_mem_erase hh), hg⟩
  | _ => exact ⟨trivial, fun _ => ⟨hpin, hg⟩⟩

end

/-! ### The program -/

section

variable (lib : Libnvram) (crc32 : Bytes → UInt32) (cfg : BuildConfig)
  (defaultGpio : Option CString) (env : Environ) (args : List CString)

/-- With the efi interface, whatever the answers: flags are set only right after they were read,
and as they were read but for the immutable flag; a file is opened for a write and written only
while it is not immutable, or was missing; and in the end it is immutable again, unless the last
call on its flags failed. -/
theorem main_guards_variables (hefi : ∀ i, Selects cfg env args i → i = .efi) {g : FlagGuard}
    (hg : g.Settled) :
    Monitored (flagMonitor.right callSig) (fun g' _ => g'.Settled)
      (mainOnKernel lib crc32 cfg defaultGpio env args) g := by
  have hinterface : Confined (fun o : Call => ∀ j, o.interface? = some j → j = .efi)
      (fun _ => True) (main lib crc32 cfg env args) :=
    confined_main_interface fun items j hitems hj => hefi j ⟨items, hitems, hj⟩
  exact (hinterface.monitored_interp (J := FlagGuard.Settled)
    (fun o g ho hg => monitored_flagLayer ho hg) hg).mono fun _ _ h => h.1

variable {lib crc32 cfg defaultGpio env args}

/-- With the mtd interface and a write protect pin, whatever the answers: partitions are erased and
written only while the pin is low, or an attempt to lower it wrote nothing without an error; and in
the end it is high again, unless the last attempt to set it failed or wrote nothing. -/
theorem main_guards_partitions (hinactive : (lib.initTransaction [] []).active = ⟨false, false⟩)
    (hremove : ∀ key, lib.listRemove [] key = none)
    (hno : ¬ SetsUnopened lib crc32 cfg env args) {pin : CString}
    (hgpio : wpGpio env defaultGpio = some pin) (hmtd : ∀ i, Selects cfg env args i → i = .mtd)
    {g : PinGuard} (hg : g.Settled) :
    Monitored ((pinMonitor pin).right callSig) (fun g' _ => g'.Settled)
      (mainOnKernel lib crc32 cfg defaultGpio env args) g := by
  have hinterface : Confined (fun o : Call => ∀ j, o.interface? = some j → j = .mtd)
      (fun _ => True) (main lib crc32 cfg env args) :=
    confined_main_interface fun items j hitems hj => hmtd j ⟨items, hitems, hj⟩
  have hhandles := (monitored_main_handles hinactive hremove hno).only hinterface
  have hinit : HavePin pin 0 := fun h hh => absurd hh (Multiset.notMem_zero h)
  rw [mainOnKernel, hgpio]
  refine (hhandles.interp (J := fun live g => HavePin pin live ∧ g.Settled)
    (fun live g o ho hJ => monitored_pinLayer ho hJ.1 hJ.2) ⟨hinit, hg⟩).mono fun g' _ h => ?_
  obtain ⟨live, ⟨-, hsettled⟩, -⟩ := h
  exact hsettled

end

/-! ### Evaluated -/

/-- `set key value` on no variables. -/
def variablesRun : List (Event outerSig) :=
  trace (outerMachine plainLibnvram none zeros efivarfs)
    (mainOnKernel plainLibnvram zlibCrc32 efiConfig none (setterAndGetter false).env
      (setterAndGetter false).args) ⟨noVariables, []⟩

theorem main_guards_variables_sample :
    (flagMonitor.right callSig).Follows FlagGuard.start variablesRun ∧
      ((flagMonitor.right callSig).after FlagGuard.start variablesRun).Settled :=
  (main_guards_variables plainLibnvram zlibCrc32 efiConfig none _ _
    (fun i hi => by
      obtain ⟨items, hitems, hi⟩ := hi
      exact (keepsTo_efi false).interface items i hitems hi)
    FlagGuard.start_settled).runs (runs_trace _ _ _)

/-- `set key value` on blank partitions. -/
def partitionsRun : List (Event outerSig) :=
  trace (outerMachine plainLibnvram (some (lit "wp")) zeros (flash (some sampleLine)))
    (mainOnKernel plainLibnvram zlibCrc32 mtdConfig (some (lit "wp")) (setterAndGetter false).env
      (setterAndGetter false).args) ⟨blankFlash, []⟩

theorem main_guards_partitions_sample :
    ((pinMonitor (lit "wp")).right callSig).Follows PinGuard.start partitionsRun ∧
      (((pinMonitor (lit "wp")).right callSig).after PinGuard.start partitionsRun).Settled :=
  (main_guards_partitions rfl (fun _ => rfl) (keepsTo_mtd false).not_setsUnopened
    rfl
    (fun i hi => by
      obtain ⟨items, hitems, hi⟩ := hi
      exact (keepsTo_mtd false).interface items i hitems hi)
    PinGuard.start_settled).runs (runs_trace _ _ _)

end Nvram
