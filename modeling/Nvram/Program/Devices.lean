import Nvram.Program.Kernel
import Nvram.Interface.Variables

/-!
# The kinds of sections

The results about kernels that store sections, for each kind of them: MTD partitions behind the
mtd interface, with their write protect line; block devices and regular files behind the file
interface; EFI variables behind the efi interface.
-/

namespace Nvram

open Effects Errno

section

variable {lib : Libnvram} {crc32 : Bytes → UInt32} {cfg : BuildConfig}
  {defaultGpio : Option CString} {paths : SectionPaths} {I : Type} [DecidableEq I]
  {table : List MtdPartition} {c c' : Contents} {maps : Maps}

/-- On flash partitions with a write protect line: the power can go in every system call, also
between the erase of a partition and its write, every system call can fail, and processes can be
killed, while no process removes the name of the lockfile under another one.  After any number of
boots both sides hold maps that come from settling the invocations that got the lock, boot after boot
and in the order in which they got it. -/
theorem boots_settle_on_flash {boots : List (Boot processSig I (Flash table))} (hi : lib.ImageLaws)
    (ht : lib.TransactionLaws) (hl : lib.ListLaws)
    (line : Option (WpLine table)) (htable : table ≠ [])
    (hblank : ∀ n, ¬ Verifies lib (List.replicate n 0xFF))
    (hruns : Steps (fun b : Boot processSig I (Flash table) =>
      b.RunsOn lib crc32 cfg defaultGpio (powerKernel lib (flash line)) Flash.contents) boots c c')
    (hkeeps : ∀ b ∈ boots, ∀ j, (b.invs j).KeepsTo lib crc32 cfg .mtd paths.sections)
    (hline : ∀ b ∈ boots, ∀ j, wpGpio (b.invs j).env defaultGpio = line.map WpLine.path)
    (hholds : HoldsMaps lib paths c maps)
    (hserial : ∀ maps', ReachesMaps (fun inv => ∃ b ∈ boots, ∃ j, b.invs j = inv) maps maps' →
      ∀ system list, Represents list (maps' system) → Serialises lib list) :
    ∃ maps', Steps Boot.Settles boots maps maps' ∧ HoldsMaps lib paths c' maps' ∧
      ∀ system list, Loads lib c' (paths.sections system) list →
        Represents list (maps' system) :=
  boots_settle_on_kernel (flashStore lib line htable hblank) hi ht hl hruns hkeeps
    (fun b hb j => congrArg nvramMtdInterface (hline b hb j)) hholds hserial

/-- The same on block devices, which are not erased: a write replaces the start of a device.  What a
write has reported is kept. -/
theorem boots_settle_on_block_devices {boots : List (Boot processSig I (Flash table))}
    (hi : lib.ImageLaws) (ht : lib.TransactionLaws) (hl : lib.ListLaws)
    (hruns : Steps (fun b : Boot processSig I (Flash table) =>
      b.RunsOn lib crc32 cfg defaultGpio (powerKernel lib blockDevices) Flash.contents) boots c c')
    (hkeeps : ∀ b ∈ boots, ∀ j, (b.invs j).KeepsTo lib crc32 cfg .file paths.sections)
    (hholds : HoldsMaps lib paths c maps)
    (hserial : ∀ maps', ReachesMaps (fun inv => ∃ b ∈ boots, ∃ j, b.invs j = inv) maps maps' →
      ∀ system list, Represents list (maps' system) → Serialises lib list) :
    ∃ maps', Steps Boot.Settles boots maps maps' ∧ HoldsMaps lib paths c' maps' ∧
      ∀ system list, Loads lib c' (paths.sections system) list →
        Represents list (maps' system) :=
  boots_settle_on_kernel (blockStore lib) hi ht hl hruns hkeeps (fun _ _ _ => rfl) hholds hserial

/-- The same on regular files.  An empty file does not verify, as one is left when the power goes
after the open; what a write has reported is kept. -/
theorem boots_settle_on_files {boots : List (Boot processSig I FileSystem)} (hi : lib.ImageLaws)
    (ht : lib.TransactionLaws) (hl : lib.ListLaws) (hempty : ¬ Verifies lib [])
    (hruns : Steps (fun b : Boot processSig I FileSystem =>
      b.RunsOn lib crc32 cfg defaultGpio (fileKernel lib) FileSystem.content) boots c c')
    (hkeeps : ∀ b ∈ boots, ∀ j, (b.invs j).KeepsTo lib crc32 cfg .file paths.sections)
    (hholds : HoldsMaps lib paths c maps)
    (hserial : ∀ maps', ReachesMaps (fun inv => ∃ b ∈ boots, ∃ j, b.invs j = inv) maps maps' →
      ∀ system list, Represents list (maps' system) → Serialises lib list) :
    ∃ maps', Steps Boot.Settles boots maps maps' ∧ HoldsMaps lib paths c' maps' ∧
      ∀ system list, Loads lib c' (paths.sections system) list →
        Represents list (maps' system) :=
  boots_settle_on_kernel (regularStore lib hempty) hi ht hl hruns hkeeps (fun _ _ _ => rfl) hholds
    hserial

/-- The same on EFI variables: the flag that protects a variable can be set or not when the power
goes. -/
theorem boots_settle_on_efi_variables {boots : List (Boot processSig I EfiVars)}
    (hi : lib.ImageLaws) (ht : lib.TransactionLaws) (hl : lib.ListLaws)
    (hruns : Steps (fun b : Boot processSig I EfiVars =>
      b.RunsOn lib crc32 cfg defaultGpio (efiKernel lib) EfiVars.contents) boots c c')
    (hkeeps : ∀ b ∈ boots, ∀ j, (b.invs j).KeepsTo lib crc32 cfg .efi paths.sections)
    (hholds : HoldsMaps lib paths c maps)
    (hserial : ∀ maps', ReachesMaps (fun inv => ∃ b ∈ boots, ∃ j, b.invs j = inv) maps maps' →
      ∀ system list, Represents list (maps' system) → Serialises lib list) :
    ∃ maps', Steps Boot.Settles boots maps maps' ∧ HoldsMaps lib paths c' maps' ∧
      ∀ system list, Loads lib c' (paths.sections system) list →
        Represents list (maps' system) :=
  boots_settle_on_kernel (variableStore lib) hi ht hl hruns hkeeps (fun _ _ _ => rfl) hholds hserial

end

/-! ### Evaluated -/

section

variable {table : List MtdPartition}

/-- A kernel on which a write or an erase that is not complete has no effect. -/
def wholeCalls (h : Handler sysSig (Flash table)) : Handler sysSig (Flash table)
  | .write fd buf, s =>
    match h (.write fd buf) s with
    | (.ok n, t) => if n.val = buf.length then (.ok (allWritten buf), t) else (.error eio, s)
    | (.error e, _) => (.error e, s)
  | .memErase fd start length, s =>
    match h (.memErase fd start length) s with
    | (.ok (), t) => (.ok (), t)
    | (.error e, _) => (.error e, s)
  | o, s => h o s

theorem wholeCalls_step (lib : Libnvram) (h : Handler sysSig (Flash table)) (s : Flash table)
    (o : SysCall) : (powerKernel lib h).step s o (wholeCalls h o s).1 (wholeCalls h o s).2 := by
  cases o with
  | write fd buf =>
      simp only [wholeCalls]
      split
      · rename_i n t hrt
        split
        · rename_i hn
          obtain rfl : n = allWritten buf := Subtype.ext hn
          exact Or.inl ⟨hrt, fun _ h => h rfl⟩
        · exact Or.inr ⟨fun h => (by cases h), rfl, rfl, Or.inl rfl⟩
      · exact Or.inr ⟨fun h => (by cases h), rfl, rfl, Or.inl rfl⟩
  | memErase fd start length =>
      simp only [wholeCalls]
      split
      · rename_i t hrt
        refine Or.inl ⟨hrt, fun _ h => ?_⟩
        obtain ⟨e, h⟩ := h
        cases h
      · exact Or.inr ⟨⟨_, rfl⟩, rfl, rfl, Or.inl rfl⟩
  | _ => exact Or.inl ⟨rfl, fun h => by cases h⟩

end

section

variable {I σ : Type} [DecidableEq I]

/-- A kernel beside the lockfile; the processes in `doomed` are killed when they have the lock. -/
def plainKernel (h : Handler sysSig σ) (doomed : I → Bool) (i : I) :
    Handler processSig (LockFs I × σ)
  | .inl (.inl o), s =>
    ((plainOutside i o (s.1, fun _ => [])).1, (plainOutside i o (s.1, fun _ => [])).2.1, s.2)
  | .inl (.inr o), s => ((h o s.2).1, s.1, (h o s.2).2)
  | .inr _, s => (doomed i && s.1.opened.any fun d => d.owner = i ∧ d.locked = true, s)

theorem plainKernel_step {h : Handler sysSig σ} {K : World sysSig σ}
    (hK : ∀ s o, K.step s o (h o s).1 (h o s).2) (doomed : I → Bool) (i : I) (s : LockFs I × σ)
    (o : processSig.Op) :
    ((kernelShared I).beside (processWorld plainLibnvram K)).step i s o
      (plainKernel h doomed i o s).1 (plainKernel h doomed i o s).2 := by
  rcases o with (o | o) | o
  · obtain ⟨hlock, hstore⟩ := plainOutside_step i (s.1, fun _ => []) o
    refine ⟨hlock, ?_, rfl⟩
    cases o with
    | write j priv buf => exact trivial
    | _ => exact hstore.1
  · exact ⟨rfl, hK s.2 o⟩
  · exact ⟨rfl, rfl⟩

/-- What a kernel does by itself is a step of the one that can fail, where only what is cut off
fails. -/
theorem faultyKernel_step {h : Handler sysSig σ} {cut : σ → SysCall → σ → Prop}
    (hcut : ∀ s o, o.reads = false → o.Fails (h o s).1 → cut s o (h o s).2) (s : σ) (o : SysCall) :
    (faultyKernel h cut).step s o (h o s).1 (h o s).2 := by
  by_cases hfails : o.reads = false ∧ o.Fails (h o s).1
  · exact Or.inr ⟨hfails.2, hcut s o hfails.1 hfails.2⟩
  · exact Or.inl ⟨rfl, fun ho hr => hfails ⟨ho, hr⟩⟩

theorem fileSystem_step (lib : Libnvram) (s : FileSystem) (o : SysCall) :
    (fileKernel lib).step s o (fileSystem o s).1 (fileSystem o s).2 := by
  refine faultyKernel_step (fun s o ho hfails => ?_) s o
  cases o with
  | write fd buf =>
      simp only [fileSystem] at hfails ⊢
      cases hfd : s.fds fd with
      | none => exact Or.inl rfl
      | some file =>
          rw [hfd] at hfails
          exact absurd rfl hfails
  | memErase fd start length => rfl
  | _ => cases ho

theorem efivarfs_step (lib : Libnvram) (s : EfiVars) (o : SysCall) :
    (efiKernel lib).step s o (efivarfs o s).1 (efivarfs o s).2 := by
  refine faultyKernel_step (fun s o ho hfails => ?_) s o
  cases o with
  | write fd buf =>
      simp only [efivarfs] at hfails ⊢
      cases hfd : s.fds fd with
      | none => exact Or.inl rfl
      | some file =>
          rw [hfd] at hfails
          exact absurd rfl hfails
  | memErase fd start length => rfl
  | _ => cases ho

variable (h : Handler sysSig σ) (start : σ) (cfg : BuildConfig) (defaultGpio : Option CString)
  (schedule : List Bool)

/-- The two processes on a kernel, along a schedule; the one that gets the key is killed. -/
def devicesRun : Pool processSig ℕ Bool (LockPhase × LockTurn) (LockFs Bool × σ) :=
  schedule.foldl (Pool.advance processMonitor (plainKernel h id))
    (kernelPool plainLibnvram zlibCrc32 cfg defaultGpio
      (fun i => ((setterAndGetter i).env, (setterAndGetter i).args)) (emptyLockFs Bool) start)

def devicesBoot : Boot processSig Bool σ where
  invs := setterAndGetter
  reached := devicesRun h start cfg defaultGpio schedule
  order := Pool.entries processMonitor (plainKernel h id) (fun m => m.2 ≠ .before) schedule
    (devicesRun h start cfg defaultGpio [])

instance (s : LockFs Bool × σ) (i : Bool) (o : processSig.Op) :
    Decidable (ProcessUndisturbed s i o) :=
  match o with
  | .inl (.inl o) => inferInstanceAs (Decidable (Undisturbed s.1 i o))
  | .inl (.inr _) => .isTrue trivial
  | .inr _ => .isTrue trivial

theorem devicesBoot_runs {K : World sysSig σ} (contents : σ → Contents)
    (hK : ∀ s o, K.step s o (h o s).1 (h o s).2)
    (hmeets : Pool.Meets processMonitor (plainKernel h id) ProcessUndisturbed schedule
      (devicesRun h start cfg defaultGpio [])) :
    (devicesBoot h start cfg defaultGpio schedule).RunsOn plainLibnvram zlibCrc32 cfg
      defaultGpio K contents (contents start)
      (contents (devicesBoot h start cfg defaultGpio schedule).reached.shared.2) :=
  ⟨emptyLockFs Bool, start, _, rfl, rfl,
    Pool.enters_foldl_advance (plainKernel_step hK id) schedule hmeets, Or.inl rfl, rfl⟩

variable {h start cfg defaultGpio schedule} in
theorem devicesBoot_mem (inv : Invocation)
    (hinv : ∃ b ∈ [devicesBoot h start cfg defaultGpio schedule], ∃ j, b.invs j = inv) :
    inv ∈ setAndGet := by
  obtain ⟨b, hb, j, rfl⟩ := hinv
  obtain rfl := List.mem_singleton.mp hb
  exact setterAndGetter_mem j

end

/-- The getter gets the lock and is killed with it; then the setter runs. -/
def devicesSchedule : List Bool := List.replicate 40 true ++ List.replicate 400 false

/-- Four partitions or devices of 80 bytes. -/
def fourPartitions : List MtdPartition :=
  [⟨lit "sa", 80, by decide⟩, ⟨lit "sb", 80, by decide⟩, ⟨lit "ua", 80, by decide⟩,
    ⟨lit "ub", 80, by decide⟩]

def blankFlash : Flash fourPartitions where
  content _ := List.replicate 80 255
  length_content := by decide
  fds _ := none
  nextFd := 3
  nextAddr := 0

theorem not_verifies_blank (n : ℕ) : ¬ Verifies plainLibnvram (List.replicate n 0xFF) := by
  unfold Verifies sectionData
  split
  · rename_i hn
    have htake : (List.replicate n (0xFF : UInt8)).take plainLibnvram.headerLen.toNat =
        List.replicate 20 0xFF := by
      rw [List.length_replicate] at hn
      have hlen : plainLibnvram.headerLen.toNat = 20 := rfl
      rw [List.take_replicate, hlen, Nat.min_eq_left (hlen ▸ hn)]
    have hheader : plainLibnvram.validateHeader (List.replicate 20 0xFF) = none := by decide
    rw [htake, hheader]
    show ¬ (plainLibnvram.verifySection []).Verified
    decide
  · show ¬ (plainLibnvram.verifySection []).Verified
    decide

/-- Blank sections hold the empty maps. -/
theorem holdsMaps_blank {c : Contents} (hc : ∀ path, ¬ Verifies plainLibnvram (c path)) :
    HoldsMaps plainLibnvram samplePaths c fun _ _ => none := by
  intro system
  cases system with
  | true => exact .of_blank (hc _) (hc _)
  | false => exact .of_blank (hc _) (hc _)

theorem not_verifies_blankFlash (path : CString) :
    ¬ Verifies plainLibnvram (blankFlash.contents path) := by
  unfold Flash.contents
  cases labelled fourPartitions path with
  | none => exact not_verifies_blank 0
  | some k => exact not_verifies_blank 80

/-- A build for the mtd interface. -/
def mtdConfig : BuildConfig :=
  { sampleConfig with
    interfaceDefault := lit "mtd"
    interfaceFile := none
    interfaceMtd := some ⟨lit "sa", lit "sb", lit "ua", lit "ub"⟩ }

/-- A build for the efi interface. -/
def efiConfig : BuildConfig :=
  { sampleConfig with
    interfaceDefault := lit "efi"
    interfaceFile := none
    interfaceEfi := some ⟨lit "sa", lit "sb", lit "ua", lit "ub"⟩ }

/-- The two processes take the defaults of a build. -/
theorem keepsTo_defaults {cfg : BuildConfig} {i : Interface}
    (hinterface : nvramGetInterface cfg cfg.interfaceDefault = some i)
    (hformat : cfg.formatDefault = lit "v2")
    (hsections : ∀ system, sectionsOf cfg (fun _ => none) [] system = samplePaths.sections system)
    (getter : Bool) :
    (setterAndGetter getter).KeepsTo plainLibnvram zlibCrc32 cfg i samplePaths.sections := by
  have hone : ∀ {inv : Invocation} (it : Operation), inv.env = (fun _ => none) →
      commandLine inv.args = some [.operation it] →
      inv.KeepsTo plainLibnvram zlibCrc32 cfg i samplePaths.sections := by
    intro inv it henv hitems
    refine ⟨fun items j hitems' hj => ?_, fun items format hitems' _ => ?_,
      fun items system hitems' _ => ?_⟩
    · obtain rfl := Option.some.inj (hitems.symm.trans hitems')
      rw [henv] at hj
      exact Option.some.inj (hj.symm.trans hinterface)
    · obtain rfl := Option.some.inj (hitems.symm.trans hitems')
      rw [henv]
      exact hformat
    · obtain rfl := Option.some.inj (hitems.symm.trans hitems')
      rw [henv]
      exact hsections system
  cases getter with
  | false => exact hone (.set (lit "key") (lit "value")) rfl rfl
  | true => exact hone (.get (lit "key")) rfl rfl

theorem keepsTo_mtd (getter : Bool) :
    (setterAndGetter getter).KeepsTo plainLibnvram zlibCrc32 mtdConfig .mtd
      samplePaths.sections :=
  keepsTo_defaults rfl rfl (fun system => by cases system <;> rfl) getter

theorem keepsTo_efi (getter : Bool) :
    (setterAndGetter getter).KeepsTo plainLibnvram zlibCrc32 efiConfig .efi
      samplePaths.sections :=
  keepsTo_defaults rfl rfl (fun system => by cases system <;> rfl) getter

theorem keepsTo_file (getter : Bool) :
    (setterAndGetter getter).KeepsTo plainLibnvram zlibCrc32 sampleConfig .file
      samplePaths.sections :=
  keepsTo_defaults rfl rfl (fun system => by cases system <;> rfl) getter

def sampleLine : WpLine fourPartitions where
  path := lit "wp"
  notNode := by decide +kernel
  accepts := true

/-- The two processes on partitions. -/
def flashBoot : Boot processSig Bool (Flash fourPartitions) :=
  devicesBoot (wholeCalls (flash (some sampleLine))) blankFlash mtdConfig (some (lit "wp"))
    devicesSchedule

theorem flashBoot_runs :
    flashBoot.RunsOn plainLibnvram zlibCrc32 mtdConfig (some (lit "wp"))
      (powerKernel plainLibnvram (flash (some sampleLine))) Flash.contents blankFlash.contents
      flashBoot.reached.shared.2.contents := by
  unfold flashBoot
  exact devicesBoot_runs _ _ _ _ _ Flash.contents (wholeCalls_step _ _) (by decide +kernel)

theorem boots_settle_on_flash_sample :
    (flashBoot.reached.prog false).value? = some 0 ∧
      (flashBoot.reached.prog true).value? = some KILLED ∧ flashBoot.order = [true, false] ∧
      ∃ maps', Steps Boot.Settles [flashBoot] (fun _ _ => none) maps' ∧
        HoldsMaps plainLibnvram samplePaths flashBoot.reached.shared.2.contents maps' ∧
        ∀ system list, Loads plainLibnvram flashBoot.reached.shared.2.contents
          (samplePaths.sections system) list → Represents list (maps' system) := by
  refine ⟨by decide +kernel, by decide +kernel, by decide +kernel,
    boots_settle_on_flash Plain.imageLaws Plain.transactionLaws Plain.listLaws (some sampleLine)
    (by decide) not_verifies_blank (.snoc (.nil _) flashBoot_runs)
    (fun b hb j => ?_) (fun b hb j => ?_) (holdsMaps_blank not_verifies_blankFlash)
    fun maps' hmaps => serialises_settled devicesBoot_mem hmaps⟩
  · obtain rfl := List.mem_singleton.mp hb
    exact keepsTo_mtd j
  · obtain rfl := List.mem_singleton.mp hb
    cases j with
    | false => rfl
    | true => rfl

/-- The two processes on block devices. -/
def blockBoot : Boot processSig Bool (Flash fourPartitions) :=
  devicesBoot (wholeCalls blockDevices) blankFlash sampleConfig none devicesSchedule

theorem blockBoot_runs :
    blockBoot.RunsOn plainLibnvram zlibCrc32 sampleConfig none
      (powerKernel plainLibnvram blockDevices) Flash.contents blankFlash.contents
      blockBoot.reached.shared.2.contents := by
  unfold blockBoot
  exact devicesBoot_runs _ _ _ _ _ Flash.contents (wholeCalls_step _ _) (by decide +kernel)

theorem boots_settle_on_block_devices_sample :
    (blockBoot.reached.prog false).value? = some 0 ∧
      (blockBoot.reached.prog true).value? = some KILLED ∧ blockBoot.order = [true, false] ∧
      ∃ maps', Steps Boot.Settles [blockBoot] (fun _ _ => none) maps' ∧
        HoldsMaps plainLibnvram samplePaths blockBoot.reached.shared.2.contents maps' ∧
        ∀ system list, Loads plainLibnvram blockBoot.reached.shared.2.contents
          (samplePaths.sections system) list → Represents list (maps' system) := by
  refine ⟨by decide +kernel, by decide +kernel, by decide +kernel,
    boots_settle_on_block_devices Plain.imageLaws Plain.transactionLaws Plain.listLaws
    (.snoc (.nil _) blockBoot_runs) (fun b hb j => ?_) (holdsMaps_blank not_verifies_blankFlash)
    fun maps' hmaps => serialises_settled devicesBoot_mem hmaps⟩
  obtain rfl := List.mem_singleton.mp hb
  exact keepsTo_file j

/-- A file system without files. -/
def emptyFileSystem : FileSystem where
  files _ := none
  fds _ := none
  nextFd := 3
  nextAddr := 0

/-- The two processes on files. -/
def filesBoot : Boot processSig Bool FileSystem :=
  devicesBoot fileSystem emptyFileSystem sampleConfig none devicesSchedule

theorem filesBoot_runs :
    filesBoot.RunsOn plainLibnvram zlibCrc32 sampleConfig none (fileKernel plainLibnvram)
      FileSystem.content emptyFileSystem.content filesBoot.reached.shared.2.content := by
  unfold filesBoot
  exact devicesBoot_runs _ _ _ _ _ FileSystem.content (fileSystem_step _) (by decide +kernel)

theorem boots_settle_on_files_sample :
    (filesBoot.reached.prog false).value? = some 0 ∧
      (filesBoot.reached.prog true).value? = some KILLED ∧ filesBoot.order = [true, false] ∧
      ∃ maps', Steps Boot.Settles [filesBoot] (fun _ _ => none) maps' ∧
        HoldsMaps plainLibnvram samplePaths filesBoot.reached.shared.2.content maps' ∧
        ∀ system list, Loads plainLibnvram filesBoot.reached.shared.2.content
          (samplePaths.sections system) list → Represents list (maps' system) := by
  refine ⟨by decide +kernel, by decide +kernel, by decide +kernel,
    boots_settle_on_files Plain.imageLaws Plain.transactionLaws Plain.listLaws
    (not_verifies_blank 0) (.snoc (.nil _) filesBoot_runs)
    (fun b hb j => ?_) (holdsMaps_blank fun _ => not_verifies_blank 0)
    fun maps' hmaps => serialises_settled devicesBoot_mem hmaps⟩
  obtain rfl := List.mem_singleton.mp hb
  exact keepsTo_file j

/-- No variable is there; a new one is immutable. -/
def noVariables : EfiVars := { emptyFileSystem with immutable := fun _ => true }

/-- The two processes on EFI variables. -/
def variablesBoot : Boot processSig Bool EfiVars :=
  devicesBoot efivarfs noVariables efiConfig none devicesSchedule

theorem variablesBoot_runs :
    variablesBoot.RunsOn plainLibnvram zlibCrc32 efiConfig none (efiKernel plainLibnvram)
      EfiVars.contents noVariables.contents variablesBoot.reached.shared.2.contents := by
  unfold variablesBoot
  exact devicesBoot_runs _ _ _ _ _ EfiVars.contents (efivarfs_step _) (by decide +kernel)

theorem boots_settle_on_efi_variables_sample :
    (variablesBoot.reached.prog false).value? = some 0 ∧
      (variablesBoot.reached.prog true).value? = some KILLED ∧ variablesBoot.order = [true, false] ∧
      ∃ maps', Steps Boot.Settles [variablesBoot] (fun _ _ => none) maps' ∧
        HoldsMaps plainLibnvram samplePaths variablesBoot.reached.shared.2.contents maps' ∧
        ∀ system list, Loads plainLibnvram variablesBoot.reached.shared.2.contents
          (samplePaths.sections system) list → Represents list (maps' system) := by
  refine ⟨by decide +kernel, by decide +kernel, by decide +kernel,
    boots_settle_on_efi_variables Plain.imageLaws Plain.transactionLaws Plain.listLaws
    (.snoc (.nil _) variablesBoot_runs) (fun b hb j => ?_)
    (holdsMaps_blank fun _ => not_verifies_blank 0) fun maps' hmaps => serialises_settled devicesBoot_mem hmaps⟩
  obtain rfl := List.mem_singleton.mp hb
  exact keepsTo_efi j

end Nvram
