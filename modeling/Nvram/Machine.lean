import Nvram.Interface.File
import Nvram.Interface.Flash
import Nvram.Interface.Efi
import Nvram.Format.Frame
import Nvram.V2.Load

/-!
# The program on a kernel

The calls of the program, answered by running the functions of the selected interface on a
model of the kernel.  `Healthy` collects what the results about whole invocations use of such
a machine: every call that is not a write answers as the contents say and keeps them, and a
write stores its buffer.
-/

namespace Nvram

open Effects Errno

/-- The functions of `struct nvram_interface` on an existing handle. -/
structure InterfaceImpl where
  init : CString → SysProg (Except Errno PrivData)
  size : NvramPriv → SysProg (Except Errno ℕ)
  read : NvramPriv → (size : ℕ) → SysProg (Except Errno {buf : Bytes // buf.length = size})
  write : NvramPriv → Bytes → SysProg (Except Errno Unit)

def nvramFileInterface : InterfaceImpl where
  init _ := fileInit
  size priv := fileSize priv.path
  read priv := fileRead priv.path
  write priv := fileWrite priv.path

def nvramEfiInterface : InterfaceImpl where
  init _ := efiInit
  size priv := efiSize priv.path
  read priv := efiRead priv.path
  write priv := efiWrite priv.path

/-- Every mtd handle has a device. -/
def nvramMtdInterface (gpio : Option CString) : InterfaceImpl where
  init := nvramMtdInit gpio
  size priv :=
    match priv.data.mtd with
    | some mtd => return .ok (nvramMtdSize mtd)
    | none => return .error einval
  read priv size :=
    match priv.data.mtd with
    | some mtd => nvramMtdRead mtd size
    | none => return .error einval
  write priv buf :=
    match priv.data.mtd with
    | some mtd => nvramMtdWrite mtd priv.data.gpio buf
    | none => return .error einval

def Interface.impl (gpio : Option CString) : Interface → InterfaceImpl
  | .file => nvramFileInterface
  | .mtd => nvramMtdInterface gpio
  | .efi => nvramEfiInterface

/-- A kernel, and what the program has printed. -/
structure Machine (σ : Type) where
  sys : σ
  stdout : Bytes

section

variable {σ : Type}

/-- Run one interface function on the kernel. -/
def Machine.exec {α : Type} (sys : Handler sysSig σ) (m : Machine σ) (p : SysProg α) :
    α × Machine σ :=
  ((run sys p m.sys).1, { m with sys := (run sys p m.sys).2 })

/-- The calls of the program with memory available and no other process.  A fresh buffer
holds what `fill` says. -/
def machine (lib : Libnvram) (gpio : Option CString)
    (fill : (n : ℕ) → {buf : Bytes // buf.length = n}) (sys : Handler sysSig σ) :
    Handler callSig (Machine σ)
  | .malloc n, m => (some (fill n), m)
  | .mallocStruct, m => (true, m)
  | .print text, m => ((), { m with stdout := m.stdout ++ text })
  | .openLock _, m => (.ok 3, m)
  | .flock _, m => (.ok (), m)
  | .close _, m => (.ok (), m)
  | .unlink _, m => (.ok (), m)
  | .listSet list entry, m => (.ok (lib.listSet list entry), m)
  | .deserialize data hdr, m => (lib.deserialize data hdr, m)
  | .init interface path, m => m.exec sys ((interface.impl gpio).init path)
  | .size interface (some priv), m => m.exec sys ((interface.impl gpio).size priv)
  | .read interface (some priv) n, m => m.exec sys ((interface.impl gpio).read priv n)
  | .write interface (some priv) buf, m => m.exec sys ((interface.impl gpio).write priv buf)
  | .size _ none, m => (.error einval, m)
  | .read _ none _, m => (.error einval, m)
  | .write _ none _, m => (.error einval, m)
  | .sectionOf _ priv, m => (priv.map NvramPriv.path, m)
  | .errnoIsErange, m => (false, m)
  | .enableDebug, m | .printDebug _ _, m | .fprintfStderr _ _, m | .printUsage _, m
  | .usleep _, m | .destroy _ _, m => ((), m)

variable (lib : Libnvram) (gpio : Option CString)
  (fill : (n : ℕ) → {buf : Bytes // buf.length = n}) (sys : Handler sysSig σ) (m : Machine σ)

/-- Memory, the lock and the lists of libnvram do not fail. -/
theorem machine_answers (v : View) {o : Call} (ho : o.interface? = none) :
    Answers lib v o (machine lib gpio fill sys o m).1 := by
  cases o with
  | malloc n => exact rfl
  | mallocStruct => exact rfl
  | openLock path => exact ⟨3, rfl⟩
  | flock fd => exact rfl
  | close fd => exact rfl
  | unlink path => exact rfl
  | listSet list entry => exact rfl
  | deserialize data hdr => exact rfl
  | init j path => cases ho
  | size j priv => cases ho
  | read j priv n => cases ho
  | write j priv buf => cases ho
  | _ => trivial

theorem machine_printed (o : Call) :
    (machine lib gpio fill sys o m).2.stdout = m.stdout ++ o.printed := by
  cases o with
  | print text => rfl
  | size j priv => cases priv <;> exact (List.append_nil _).symm
  | read j priv n => cases priv <;> exact (List.append_nil _).symm
  | write j priv buf => cases priv <;> exact (List.append_nil _).symm
  | _ => exact (List.append_nil _).symm

end

/-! ### Healthy outsides -/

/-- An outside on which nothing but a write fails for the sections of interface `i`: a call
that is no write answers as the contents say and keeps them.  A write that fits stores its
buffer at the start of the section; one that does not is an error, whatever it leaves. -/
structure Healthy (lib : Libnvram) {σ : Type} (i : Interface) (h : Handler callSig σ) where
  Section : CString → Prop
  Handle : NvramPriv → Prop
  contents : σ → Contents
  stdout : σ → Bytes
  Fits : CString → Bytes → Prop
  /-- The content of a section after a write, from the content before. -/
  store : CString → Bytes → Bytes → Bytes
  store_prefix : ∀ path old buf, Fits path buf → buf <+: store path old buf
  answers : ∀ o s, (∀ j, o.interface? = some j → j = i) → o.isWrite = false →
    Answers lib ⟨Section, Handle, contents s⟩ o (h o s).1
  keeps : ∀ o s, (∀ j, o.interface? = some j → j = i) → o.isWrite = false →
    contents (h o s).2 = contents s
  stores : ∀ priv buf s, Handle priv → contents (h (.write i (some priv) buf) s).2 =
    Function.update (contents s) priv.path (store priv.path (contents s priv.path) buf)
  succeeds : ∀ priv buf s, Handle priv → Fits priv.path buf →
    (h (.write i (some priv) buf) s).1 = .ok ()
  fails : ∀ priv buf s, Handle priv → ¬ Fits priv.path buf →
    ∃ e, (h (.write i (some priv) buf) s).1 = .error e
  printed : ∀ o s, (∀ j, o.interface? = some j → j = i) →
    stdout (h o s).2 = stdout s ++ o.printed

namespace Healthy

variable {lib : Libnvram} {σ : Type} {i : Interface} {h : Handler callSig σ}

/-- What the outside shows in state `s`. -/
def view (H : Healthy lib i h) (s : σ) : View := ⟨H.Section, H.Handle, H.contents s⟩

/-- A program that only reads returns what it returns under the answers for the contents, and
leaves contents and output as they are. -/
theorem run_reads (H : Healthy lib i h) {α : Type} {p : NProg α} {paths : CString → Prop}
    {Q R : α → Prop} {s : σ} (hp : Confined (Call.Reads i paths) Q p)
    (hu : Under (Answers lib (H.view s)) R p) :
    R (run h p s).1 ∧ H.contents (run h p s).2 = H.contents s ∧
      H.stdout (run h p s).2 = H.stdout s := by
  have hstep : ∀ o t, H.contents t = H.contents s ∧ H.stdout t = H.stdout s →
      o.Reads i paths → Answers lib (H.view s) o (h o t).1 ∧
        (H.contents (h o t).2 = H.contents s ∧ H.stdout (h o t).2 = H.stdout s) := by
    rintro o t ⟨hcontents, hstdout⟩ ⟨⟨hi, _, _, hprinted⟩, hwrite⟩
    have hanswer := H.answers o t hi hwrite
    rw [hcontents] at hanswer
    refine ⟨hanswer, (H.keeps o t hi hwrite).trans hcontents, ?_⟩
    rw [H.printed o t hi, hprinted, List.append_nil, hstdout]
  exact run_of_under hstep hp hu ⟨rfl, rfl⟩

/-- Contents and output are as before. -/
def Same (H : Healthy lib i h) (s t : σ) : Prop :=
  H.contents t = H.contents s ∧ H.stdout t = H.stdout s

theorem Same.trans {H : Healthy lib i h} {s t u : σ} (hst : H.Same s t) (htu : H.Same t u) :
    H.Same s u :=
  ⟨htu.1.trans hst.1, htu.2.trans hst.2⟩

theorem same_of_reads (H : Healthy lib i h) {o : Call} {paths : CString → Prop}
    (ho : o.Reads i paths) (s : σ) : H.Same s (h o s).2 := by
  refine ⟨H.keeps o s ho.1.1 ho.2, ?_⟩
  rw [H.printed o s ho.1.1, ho.1.2.2.2, List.append_nil]

theorem same_of_inner (H : Healthy lib i h) {o : Call} (ho : o.Inner) (s : σ) :
    H.Same s (h o s).2 := by
  have hreads : o.Reads i fun _ => True := ho.reads
  exact H.same_of_reads hreads s

theorem run_inner (H : Healthy lib i h) {α : Type} {p : NProg α} {Q : α → Prop}
    (hp : Confined Call.Inner Q p) (s : σ) : Q (run h p s).1 ∧ H.Same s (run h p s).2 := by
  have hreads : Confined (Call.Reads i fun _ => True) Q p :=
    hp.mono (fun _ ho => ho.reads) fun _ hr => hr
  exact H.run_reads hreads hp.under

/-- The contents after a write of `buf` to the section of `path`. -/
def storeAt (H : Healthy lib i h) (c : Contents) (path : CString) (buf : Bytes) : Contents :=
  Function.update c path (H.store path (c path) buf)

end Healthy

/-! ### The machine on regular files -/

section

variable (lib : Libnvram) (gpio : Option CString)
  (fill : (n : ℕ) → {buf : Bytes // buf.length = n})

/-- The program on a file system of regular files. -/
abbrev fileMachine : Handler callSig (Machine FileSystem) := machine lib gpio fill fileSystem

theorem content_eq_of_files_eq {fs fs' : FileSystem} (h : fs.files = fs'.files) :
    fs.content = fs'.content := by
  funext path
  simp only [FileSystem.content, h]

def fileMachine.healthy : Healthy lib .file (fileMachine lib gpio fill) where
  Section _ := True
  Handle _ := True
  contents m := m.sys.content
  stdout m := m.stdout
  Fits _ _ := True
  store _ _ buf := buf
  store_prefix _ _ _ _ := List.prefix_rfl
  answers o m hi hwrite := by
    cases o with
    | init j path =>
        obtain rfl := hi j rfl
        exact fun _ => ⟨_, rfl, trivial⟩
    | size j priv =>
        obtain rfl := hi j rfl
        cases priv with
        | none => trivial
        | some priv => exact fun _ => congrArg Prod.fst (run_fileSize m.sys priv.path)
    | read j priv n =>
        obtain rfl := hi j rfl
        cases priv with
        | none => trivial
        | some priv =>
            exact fun _ => ⟨fun hlt => run_fileRead_of_lt m.sys priv.path hlt,
              fun hle hne => run_fileRead_of_le m.sys priv.path hle hne⟩
    | write j priv buf => cases hwrite
    | sectionOf j priv => trivial
    | destroy j priv => trivial
    | _ => exact machine_answers lib gpio fill fileSystem m _ rfl
  keeps o m hi hwrite := by
    cases o with
    | init j path =>
        obtain rfl := hi j rfl
        rfl
    | size j priv =>
        obtain rfl := hi j rfl
        cases priv with
        | none => rfl
        | some priv => exact congrArg (fun p => p.2.content) (run_fileSize m.sys priv.path)
    | read j priv n =>
        obtain rfl := hi j rfl
        cases priv with
        | none => rfl
        | some priv => exact content_eq_of_files_eq (run_fileRead_files m.sys priv.path n)
    | write j priv buf => cases hwrite
    | _ => rfl
  succeeds priv buf m _ _ := congrArg Prod.fst (run_fileWrite m.sys priv.path buf)
  fails priv buf m _ hfits := absurd trivial hfits
  stores priv buf m _ := by
    funext path
    have hfile : (run fileSystem (fileWrite priv.path buf) m.sys).2.files path =
        Function.update m.sys.files priv.path (some buf) path := by
      rw [run_fileWrite]
    by_cases hpath : path = priv.path
    · subst hpath
      rw [Function.update_self] at hfile ⊢
      show ((run fileSystem (fileWrite priv.path buf) m.sys).2.files priv.path).getD [] = buf
      rw [hfile]
      rfl
    · rw [Function.update_of_ne hpath] at hfile ⊢
      show ((run fileSystem (fileWrite priv.path buf) m.sys).2.files path).getD [] = _
      rw [hfile]
      rfl
  printed o m _ := machine_printed lib gpio fill fileSystem m o

end

/-- No file is there. -/
def noFiles : Machine FileSystem := ⟨⟨fun _ => none, fun _ => none, 3, 0⟩, []⟩

/-! ### The machine on flash partitions -/

section

variable (lib : Libnvram) {table : List MtdPartition} (line : Option (WpLine table))
  (fill : (n : ℕ) → {buf : Bytes // buf.length = n})

/-- The program on a table of partitions, with the write protect line configured. -/
abbrev mtdMachine : Handler callSig (Machine (Flash table)) :=
  machine lib (line.map WpLine.path) fill (flash line)

/-- The bytes of the partition with each label. -/
def Flash.contents (s : Flash table) : Contents := fun label =>
  match labelled table label with
  | some k => s.content k
  | none => []

theorem Flash.contents_of_labelled (s : Flash table) {label : CString} {k : Fin table.length}
    (hk : labelled table label = some k) : s.contents label = s.content k := by
  simp only [contents, hk]

theorem Flash.contents_congr {s t : Flash table} (h : s.content = t.content) :
    s.contents = t.contents := by
  funext label
  simp only [contents, h]

/-- Another label is another partition, or none. -/
theorem Flash.contents_update {s t : Flash table} {label : CString} {k : Fin table.length}
    (hk : labelled table label = some k) {bytes : Bytes}
    (h : t.content = Function.update s.content k bytes) :
    t.contents = Function.update s.contents label bytes := by
  funext other
  by_cases hsame : other = label
  · subst hsame
    rw [Function.update_self, contents_of_labelled t hk, h, Function.update_self]
  · rw [Function.update_of_ne hsame]
    cases hother : labelled table other with
    | none => simp only [contents, hother]
    | some j =>
        have hj : j ≠ k := by
          intro heq
          subst heq
          exact hsame ((labelled_name hother).symm.trans (labelled_name hk))
        rw [contents_of_labelled t hother, contents_of_labelled s hother, h,
          Function.update_of_ne hj]

/-- A handle that `nvram_mtd_init` made for a partition. -/
def MtdHandle (priv : NvramPriv) : Prop :=
  ∃ k, labelled table priv.path = some k ∧
    priv.data.mtd = some ⟨mtdPath k.val, (table.get k).capacity⟩ ∧
    priv.data.gpio = line.map WpLine.path

theorem mtdMachine_write {priv : NvramPriv} {k : Fin table.length}
    (hk : labelled table priv.path = some k)
    (hmtd : priv.data.mtd = some ⟨mtdPath k.val, (table.get k).capacity⟩)
    (hgpio : priv.data.gpio = line.map WpLine.path) (buf : Bytes) (m : Machine (Flash table)) :
    ∃ r t, mtdMachine lib line fill (.write .mtd (some priv) buf) m = (r, { m with sys := t }) ∧
      (Erases line k ∧ buf.length ≤ (table.get k).capacity → r = .ok ()) ∧
      (¬ (Erases line k ∧ buf.length ≤ (table.get k).capacity) → ∃ e, r = .error e) ∧
      t.contents = Function.update m.sys.contents priv.path
        (written line k (m.sys.contents priv.path) buf) := by
  obtain ⟨r, t, hrun, hok, herr, hcontent⟩ := run_nvramMtdWrite line k buf m.sys
  refine ⟨r, t, ?_, hok, herr, ?_⟩
  · have hrun : run (flash line) (nvramMtdWrite ⟨mtdPath k.val, (table.get k).capacity⟩
        (line.map WpLine.path) buf) m.sys = (r, t) := hrun
    simp only [machine, Machine.exec, Interface.impl, nvramMtdInterface, hmtd, hgpio, hrun]
  · rw [Flash.contents_of_labelled m.sys hk]
    exact Flash.contents_update hk hcontent

def mtdMachine.healthy : Healthy lib .mtd (mtdMachine lib line fill) where
  Section label := (labelled table label).isSome
  Handle := MtdHandle line
  contents m := m.sys.contents
  stdout m := m.stdout
  Fits label buf := ∃ k, labelled table label = some k ∧ Erases line k ∧
    buf.length ≤ (table.get k).capacity
  store label old buf :=
    match labelled table label with
    | some k => written line k old buf
    | none => old
  store_prefix label old buf hfits := by
    obtain ⟨k, hk, herases, hle⟩ := hfits
    have hle : buf.length ≤ table[k].capacity := hle
    simp only [hk, written, if_pos herases, programmed, List.take_of_length_le hle]
    exact List.prefix_append _ _
  answers o m hi hwrite := by
    cases o with
    | init j path =>
        obtain rfl := hi j rfl
        intro hsome
        obtain ⟨k, hk⟩ := Option.isSome_iff_exists.mp hsome
        obtain ⟨addr, hrun⟩ := run_nvramMtdInit line (line.map WpLine.path) hk m.sys
        exact ⟨_, hrun, k, hk, rfl, rfl⟩
    | size j priv =>
        obtain rfl := hi j rfl
        cases priv with
        | none => trivial
        | some priv =>
            intro hpriv
            obtain ⟨k, hk, hmtd, _⟩ := hpriv
            show _ = Except.ok (m.sys.contents priv.path).length
            rw [m.sys.contents_of_labelled hk, m.sys.length_content,
              ← nvramMtdSize_capacity (mtdPath k.val)]
            simp only [machine, Machine.exec, Interface.impl, nvramMtdInterface, hmtd]
            rfl
    | read j priv n =>
        obtain rfl := hi j rfl
        cases priv with
        | none => trivial
        | some priv =>
            intro hpriv
            obtain ⟨k, hk, hmtd, _⟩ := hpriv
            have hread := run_nvramMtdRead line k (table.get k).capacity n m.sys
            rw [← m.sys.contents_of_labelled hk] at hread
            simp only [machine, Machine.exec, Interface.impl, nvramMtdInterface, hmtd]
            exact ⟨fun hlt => ⟨_, hread.1 hlt⟩, fun hle _ => hread.2 hle⟩
    | write j priv buf => cases hwrite
    | sectionOf j priv => trivial
    | destroy j priv => trivial
    | _ => exact machine_answers lib _ fill (flash line) m _ rfl
  keeps o m hi hwrite := by
    cases o with
    | init j path =>
        obtain rfl := hi j rfl
        exact Flash.contents_congr (run_content_of_reads line (onlyReads_nvramMtdInit _ path) m.sys)
    | size j priv =>
        obtain rfl := hi j rfl
        cases priv with
        | none => rfl
        | some priv =>
            simp only [machine, Machine.exec, Interface.impl, nvramMtdInterface]
            cases priv.data.mtd <;> rfl
    | read j priv n =>
        obtain rfl := hi j rfl
        cases priv with
        | none => rfl
        | some priv =>
            simp only [machine, Machine.exec, Interface.impl, nvramMtdInterface]
            cases priv.data.mtd with
            | none => rfl
            | some mtd =>
                exact Flash.contents_congr
                  (run_content_of_reads line (onlyReads_nvramMtdRead mtd n) m.sys)
    | write j priv buf => cases hwrite
    | _ => rfl
  stores priv buf m hpriv := by
    obtain ⟨k, hk, hmtd, hgpio⟩ := hpriv
    obtain ⟨r, t, hrun, _, _, hcontents⟩ := mtdMachine_write lib line fill hk hmtd hgpio buf m
    rw [hrun]
    simp only [hk]
    exact hcontents
  succeeds priv buf m hpriv hfits := by
    obtain ⟨k, hk, hmtd, hgpio⟩ := hpriv
    obtain ⟨r, t, hrun, hok, _, _⟩ := mtdMachine_write lib line fill hk hmtd hgpio buf m
    obtain ⟨j, hj, herases, hle⟩ := hfits
    obtain rfl : k = j := Option.some.inj (hk.symm.trans hj)
    rw [hrun]
    exact hok ⟨herases, hle⟩
  fails priv buf m hpriv hfits := by
    obtain ⟨k, hk, hmtd, hgpio⟩ := hpriv
    obtain ⟨r, t, hrun, _, herr, _⟩ := mtdMachine_write lib line fill hk hmtd hgpio buf m
    rw [hrun]
    exact herr fun h => hfits ⟨k, hk, h⟩
  printed o m _ := machine_printed lib (line.map WpLine.path) fill (flash line) m o

theorem mtdMachine_store {label : CString} {k : Fin table.length}
    (hk : labelled table label = some k) (old buf : Bytes) :
    (mtdMachine.healthy lib line fill).store label old buf = written line k old buf := by
  simp only [mtdMachine.healthy, hk]

end

end Nvram
