import Nvram.Interface.Stores
import Nvram.Interface.File

/-!
# Regular files

Sections that change their size with a write: regular files behind the file interface, on a
kernel on which every system call can fail and the power can go at every call.  A file is emptied
when it is opened for the write.  How files are looked at is stated for every kernel that does it
like this one.
-/

namespace Nvram

open Effects Errno

/-! ### The kernel -/

/-- What a call that was cut off leaves of files; a write that was leaves `bad` bytes. -/
def FileSystem.CutOff (bad : Bytes → Prop) (s : FileSystem) (o : SysCall) (t : FileSystem) : Prop :=
  match o with
  | .openFile path .wronlyCreat => t = s ∨ t = s.bindFile path (s.content path)
  | .openFile path .wronlyCreatTrunc => t = s ∨ t = s.bindFile path []
  | .write fd _ => t = s ∨
      ∃ path offset new, s.fds fd = some (path, offset) ∧ bad new ∧ t = s.bindFile path new
  | _ => t = s

/-- Regular files when every call can fail and the power can go at every call. -/
abbrev fileKernel (lib : Libnvram) : World sysSig FileSystem :=
  faultyKernel fileSystem (FileSystem.CutOff fun new => ¬ Verifies lib new)

/-! ### What is read -/

/-- The calls with which a file is looked at. -/
def SysCall.looks : SysCall → Bool
  | .mallocStruct | .malloc _ | .printDebug _ _ | .stat _ | .openFile _ .rdonly | .read _ _
  | .close _ | .closeUnopened => true
  | _ => false

/-- A kernel on which files are looked at as on `fileSystem`. -/
structure LooksLike {σ : Type} (h : Handler sysSig σ) (cut : σ → SysCall → σ → Prop)
    (files : σ → FileSystem) : Prop where
  result : ∀ o s, o.looks = true → (h o s).1 = (fileSystem o (files s)).1
  state : ∀ o s, o.looks = true → files (h o s).2 = (fileSystem o (files s)).2
  cut : ∀ s o t, o.looks = true → cut s o t → files t = files s

theorem FileSystem.CutOff.eq {bad : Bytes → Prop} {s t : FileSystem} {o : SysCall}
    (ho : o.looks = true) (h : s.CutOff bad o t) : t = s := by
  cases o with
  | openFile path flags =>
      cases flags with
      | rdonly => exact h
      | _ => cases ho
  | write fd buf => cases ho
  | _ => exact h

theorem looksLike_fileKernel (bad : Bytes → Prop) :
    LooksLike fileSystem (FileSystem.CutOff bad) id where
  result _ _ _ := rfl
  state _ _ _ := rfl
  cut _ _ _ ho h := h.eq ho

/-- Looking at files changes none. -/
theorem fileSystem_files {o : SysCall} (ho : o.looks = true) (s : FileSystem) :
    (fileSystem o s).2.files = s.files := by
  cases o with
  | openFile path flags =>
      cases flags with
      | rdonly =>
          simp only [fileSystem]
          split <;> rfl
      | _ => cases ho
  | stat path =>
      simp only [fileSystem]
      split <;> rfl
  | read fd n =>
      simp only [fileSystem]
      split <;> rfl
  | _ => first | rfl | cases ho

section

variable {σ : Type} {h : Handler sysSig σ} {cut : σ → SysCall → σ → Prop} {files : σ → FileSystem}
  (L : LooksLike h cut files) {s : σ}

include L

/-- One call that looks at files, before the rest: it is done, or it fails without effect. -/
theorem wp_op_looks {α : Type} {Q : α → σ → Prop} {C : σ → Prop} {o : SysCall}
    {f : SysCall.Res o → SysProg α} (ho : o.looks = true)
    (hstop : ∀ t, (files t).files = (files s).files → C t)
    (hdone : ∀ t, files t = (fileSystem o (files s)).2 →
      wp (faultyKernel h cut) Q C (f (fileSystem o (files s)).1) t)
    (hfails : ∀ r t, o.Fails r → files t = files s → wp (faultyKernel h cut) Q C (f r) t) :
    wp (faultyKernel h cut) Q C (Prog.op (S := sysSig) o f) s := by
  refine ⟨fun t hhalt => ?_, fun r t hstep => ?_⟩
  · rcases hhalt with ⟨-, -, rfl⟩ | hcut
    · refine hstop _ ?_
      rw [L.state o s ho]
      exact fileSystem_files ho _
    · exact hstop t (congrArg FileSystem.files (L.cut s o t ho hcut))
  · rcases hstep with ⟨hrt, -⟩ | ⟨hr, hcut⟩
    · obtain rfl : r = (fileSystem o (files s)).1 := by
        rw [← L.result o s ho, hrt]
      refine hdone t ?_
      rw [← L.state o s ho, hrt]
    · exact hfails r t hr (L.cut s o t ho hcut)

/-- An open that fails has no effect; a success is a descriptor at the start of the file. -/
theorem wp_op_openRdonly {α : Type} {Q : α → σ → Prop} {C : σ → Prop} {path : CString}
    {f : Except Errno Fd → SysProg α} (hstop : ∀ t, (files t).files = (files s).files → C t)
    (herror : ∀ e t, (files t).files = (files s).files →
      wp (faultyKernel h cut) Q C (f (.error e)) t)
    (hopen : ∀ fd t, (files t).files = (files s).files → (files t).fds fd = some (path, 0) →
      wp (faultyKernel h cut) Q C (f (.ok fd)) t) :
    wp (faultyKernel h cut) Q C (Prog.op (S := sysSig) (.openFile path .rdonly) f) s := by
  refine wp_op_looks L rfl hstop (fun t ht => ?_) fun r t hr ht => ?_
  · simp only [fileSystem] at ht ⊢
    cases hfile : (files s).files path with
    | none =>
        simp only [hfile] at ht ⊢
        exact herror _ t (congrArg FileSystem.files ht)
    | some bytes =>
        simp only [hfile] at ht ⊢
        refine hopen _ t ?_ ?_
        · rw [ht]
          rfl
        · rw [ht]
          exact Function.update_self ..
  · obtain ⟨e, rfl⟩ := hr
    exact herror e t (congrArg FileSystem.files ht)

/-- A complete read from the start of a file gives its first bytes. -/
theorem wp_readAndClose {α : Type} {Q : α → σ → Prop} {C : σ → Prop} {path : CString} {fd : Fd}
    {n : ℕ} {f : Except Errno {buf : Bytes // buf.length ≤ n} → SysProg α}
    (hfd : (files s).fds fd = some (path, 0)) (hstop : ∀ t, (files t).files = (files s).files → C t)
    (hread : ∀ r t, (files t).files = (files s).files →
      (∀ buf, r = .ok buf → buf.val.length = n → buf.val <+: (files s).content path) →
      wp (faultyKernel h cut) Q C (f r) t) :
    wp (faultyKernel h cut) Q C (do
      let r ← Sys.read fd n
      Sys.close fd
      f r) s := by
  have hclose : ∀ (r : Except Errno {buf : Bytes // buf.length ≤ n}) (t : σ),
      (files t).files = (files s).files →
      (∀ buf, r = .ok buf → buf.val.length = n → buf.val <+: (files s).content path) →
      wp (faultyKernel h cut) Q C (do
        Sys.close fd
        f r) t := by
    intro r t ht hr
    refine wp_op_looks L rfl (fun u hu => hstop u (hu.trans ht)) (fun u hu => ?_)
      fun _ _ hfails => hfails.elim
    exact hread r u ((congrArg FileSystem.files hu).trans ht) hr
  refine wp_op_looks L rfl hstop (fun t ht => ?_) fun r t hr ht => ?_
  · simp only [fileSystem, hfd] at ht ⊢
    refine hclose _ t ?_ fun buf hbuf _ => ?_
    · rw [ht]
      rfl
    · cases hbuf
      exact List.take_prefix _ _
  · refine hclose r t (congrArg FileSystem.files ht) fun buf hbuf hlength => ?_
    exact absurd hlength (hr buf hbuf).ne

end

/-- Looking at a file does not change what it holds. -/
theorem FileSystem.content_congr {s t : FileSystem} (h : t.files = s.files) :
    t.content = s.content := by
  funext path
  rw [content, content, h]

theorem FileSystem.content_bindFile (s : FileSystem) (path : CString) (bytes : Bytes) :
    (s.bindFile path bytes).content = Function.update s.content path bytes := by
  funext p
  show (Function.update s.files path (some bytes) p).getD [] = _
  by_cases hp : p = path
  · subst hp
    rw [Function.update_self, Function.update_self]
    rfl
  · rw [Function.update_of_ne hp, Function.update_of_ne hp]
    rfl

/-! ### The file interface -/

section

variable {lib : Libnvram} {s : FileSystem}

theorem wp_fileSize (path : CString) :
    wp (fileKernel lib)
      (fun r t => t.content = s.content ∧ ∀ n, r = .ok n → n = (s.content path).length)
      (fun t => t.content = s.content) (fileSize path) s := by
  have hL := looksLike_fileKernel fun new => ¬ Verifies lib new
  have herror : ∀ (e : Errno) (t : FileSystem), t.files = s.files → t.content = s.content ∧
      ∀ n, (.error e : Except Errno ℕ) = .ok n → n = (s.content path).length :=
    fun e t ht => ⟨FileSystem.content_congr ht, fun _ h => by cases h⟩
  refine wp_op_looks hL rfl (fun t ht => FileSystem.content_congr ht) (fun t ht => ?_)
    fun r t hr ht => ?_
  · simp only [fileSystem] at ht ⊢
    cases hfile : s.files path with
    | none =>
        simp only [id_eq, hfile] at ht ⊢
        refine ⟨FileSystem.content_congr (congrArg FileSystem.files ht), fun n hn => ?_⟩
        rw [FileSystem.content, hfile, ← Except.ok.inj hn]
        rfl
    | some bytes =>
        simp only [id_eq, hfile] at ht ⊢
        subst ht
        refine wp_op_looks hL rfl (fun u hu => FileSystem.content_congr hu) (fun u hu => ?_)
          fun _ _ hfails => hfails.elim
        refine ⟨FileSystem.content_congr (congrArg FileSystem.files hu), fun n hn => ?_⟩
        rw [FileSystem.content, hfile, ← Except.ok.inj hn]
        rfl
  · obtain ⟨e, hne, rfl⟩ := hr
    show wp _ _ _ (if e = enoent then _ else _) _
    rw [if_neg hne]
    exact herror e t (congrArg FileSystem.files ht)

theorem wp_fileRead_regular (path : CString) (n : ℕ) :
    wp (fileKernel lib)
      (fun r t => t.content = s.content ∧ ∀ buf, r = .ok buf → buf.val <+: s.content path)
      (fun t => t.content = s.content) (fileRead path n) s := by
  have hL := looksLike_fileKernel fun new => ¬ Verifies lib new
  refine wp_op_openRdonly hL (fun t ht => FileSystem.content_congr ht) (fun e t ht => ?_)
    fun fd t ht hfd => ?_
  · exact ⟨FileSystem.content_congr ht, fun _ h => by cases h⟩
  have hcontent : t.content = s.content := FileSystem.content_congr ht
  refine wp_readAndClose hL hfd
    (fun u hu => (FileSystem.content_congr hu).trans hcontent) fun r u hu hr => ?_
  have hsame := (FileSystem.content_congr hu).trans hcontent
  cases r with
  | error e => exact ⟨hsame, fun _ h => by cases h⟩
  | ok buf =>
      refine ⟨hsame, fun buf' hbuf => ?_⟩
      by_cases hlength : buf.val.length = n
      · simp only [hlength, dite_true, Except.ok.injEq] at hbuf
        rw [← hbuf, ← hcontent]
        exact hr buf rfl hlength
      · simp only [hlength, dite_false, reduceCtorEq] at hbuf

/-- An open for a write leaves the file as it was, or empty. -/
theorem wp_op_openTrunc (hempty : ¬ Verifies lib []) {α : Type} {Q : α → FileSystem → Prop}
    {C : FileSystem → Prop} {path : CString} {f : Except Errno Fd → SysProg α}
    (herror : ∀ t, Damaged lib path s.content t.content →
      C t ∧ ∀ e, wp (fileKernel lib) Q C (f (.error e)) t)
    (hopen : ∀ fd t, Damaged lib path s.content t.content → t.content path = [] →
      t.fds fd = some (path, 0) → wp (fileKernel lib) Q C (f (.ok fd)) t) :
    wp (fileKernel lib) Q C (Prog.op (S := sysSig) (.openFile path .wronlyCreatTrunc) f) s := by
  have hemptied : ∀ t : FileSystem, t.files = (s.bindFile path []).files →
      t.content = Function.update s.content path [] :=
    fun t ht => (FileSystem.content_congr ht).trans (s.content_bindFile path [])
  have hcut : ∀ t, s.CutOff (fun new => ¬ Verifies lib new) (.openFile path .wronlyCreatTrunc) t →
      Damaged lib path s.content t.content := by
    rintro t (rfl | rfl)
    · exact Or.inl rfl
    · exact Or.inr ⟨[], hempty, hemptied _ rfl⟩
  refine ⟨fun t hhalt => ?_, fun r t hstep => ?_⟩
  · rcases hhalt with ⟨hreads, -⟩ | hhalt
    · cases hreads
    · exact (herror t (hcut t hhalt)).1
  · rcases hstep with ⟨hrt, -⟩ | ⟨⟨e, rfl⟩, hstep⟩
    · obtain ⟨rfl, rfl⟩ := Prod.mk.inj hrt
      have hcontent := hemptied ((s.bindFile path []).openAt path) rfl
      refine hopen s.nextFd _ (Or.inr ⟨[], hempty, hcontent⟩) ?_ (Function.update_self ..)
      rw [hcontent, Function.update_self]
    · exact (herror t (hcut t hstep)).2 e

/-- A write on an empty file that is open stores the buffer, or leaves what does not verify. -/
theorem wp_op_write_file {α : Type} {Q : α → FileSystem → Prop} {C : FileSystem → Prop}
    {path : CString} {fd : Fd} {buf : Bytes}
    {f : Except Errno {n : ℕ // n ≤ buf.length} → SysProg α} (hfd : s.fds fd = some (path, 0))
    (hcontent : s.content path = [])
    (hplaced : ∀ t, Placed path buf s.content t.content →
      C t ∧ wp (fileKernel lib) Q C (f (.ok (allWritten buf))) t)
    (hdamaged : ∀ t, Damaged lib path s.content t.content →
      C t ∧ ∀ r, r ≠ .ok (allWritten buf) → wp (fileKernel lib) Q C (f r) t) :
    wp (fileKernel lib) Q C (Prog.op (S := sysSig) (.write fd buf) f) s := by
  have hcut : ∀ t, s.CutOff (fun new => ¬ Verifies lib new) (.write fd buf) t →
      Damaged lib path s.content t.content := by
    rintro t (rfl | ⟨path', offset, new, hfd', hnew, rfl⟩)
    · exact Or.inl rfl
    · obtain ⟨rfl, -⟩ := Prod.mk.inj (Option.some.inj (hfd.symm.trans hfd'))
      exact Or.inr ⟨new, hnew, s.content_bindFile path new⟩
  have hdone : Placed path buf s.content (fileSystem (.write fd buf) s).2.content := by
    refine ⟨buf, List.prefix_rfl, ?_⟩
    simp only [fileSystem, hfd, hcontent, List.take_nil, List.drop_nil, List.nil_append,
      List.append_nil]
    exact s.content_bindFile path buf
  refine ⟨fun t hhalt => ?_, fun r t hstep => ?_⟩
  · rcases hhalt with ⟨-, -, rfl⟩ | hhalt
    · exact (hplaced _ hdone).1
    · exact (hdamaged t (hcut t hhalt)).1
  · rcases hstep with ⟨hrt, hok⟩ | ⟨hr, hstep⟩
    · obtain rfl : r = .ok (allWritten buf) := not_not.mp (hok rfl)
      obtain rfl : t = (fileSystem (.write fd buf) s).2 := (congrArg Prod.snd hrt).symm
      exact (hplaced _ hdone).2
    · exact (hdamaged t (hcut t hstep)).2 r hr

theorem wp_fileWrite_regular (hempty : ¬ Verifies lib []) (path : CString) (buf : Bytes) :
    wp (fileKernel lib)
      (fun r t => r = .ok () ∧ Placed path buf s.content t.content ∨
        (∃ e, r = .error e) ∧ Damaged lib path s.content t.content)
      (fun t => Placed path buf s.content t.content ∨ Damaged lib path s.content t.content)
      (fileWrite path buf) s := by
  have hL := looksLike_fileKernel fun new => ¬ Verifies lib new
  refine wp_op_openTrunc hempty (fun t ht => ⟨Or.inr ht, fun e => Or.inr ⟨⟨e, rfl⟩, ht⟩⟩)
    fun fd t ht hnil hfd => ?_
  refine wp_op_write_file hfd hnil (fun u hu => ?_) fun u hu => ?_
  · have hplaced := ht.placed hu
    refine ⟨Or.inl hplaced, ?_⟩
    refine wp_op_looks hL rfl (fun v hv => ?_) (fun v hv => ?_) fun _ _ hfails => hfails.elim
    · have hsame : v.content = u.content := FileSystem.content_congr hv
      rw [hsame]
      exact Or.inl hplaced
    · obtain rfl : v = (fileSystem (.close fd) u).2 := hv
      exact Or.inl ⟨if_neg fun h => h rfl, hplaced⟩
  · have hdamaged := ht.trans hu
    refine ⟨Or.inr hdamaged, fun r hr => ?_⟩
    refine wp_op_looks hL rfl (fun v hv => ?_) (fun v hv => ?_) fun _ _ hfails => hfails.elim
    · have hsame : v.content = u.content := FileSystem.content_congr hv
      rw [hsame]
      exact Or.inr hdamaged
    · obtain rfl : v = (fileSystem (.close fd) u).2 := hv
      cases r with
      | error e => exact Or.inr ⟨⟨e, rfl⟩, hdamaged⟩
      | ok n =>
          have hshort : n.val ≠ buf.length := fun hn => hr (congrArg Except.ok (Subtype.ext hn))
          exact Or.inr ⟨⟨eio, if_pos hshort⟩, hdamaged⟩

end

/-- The files of a file system, through the file interface. -/
def regularStore (lib : Libnvram) (hempty : ¬ Verifies lib []) :
    KernelStore lib nvramFileInterface (fileKernel lib) where
  contents := FileSystem.content
  Handle _ := True
  init path s := by
    refine wp_op_looks (looksLike_fileKernel _) rfl (fun t ht => FileSystem.content_congr ht)
      (fun t ht => ?_) fun r t hr ht => ?_
    · obtain rfl : t = (fileSystem .mallocStruct s).2 := ht
      exact ⟨rfl, fun _ _ => trivial⟩
    · obtain rfl : r = none := hr
      exact ⟨congrArg FileSystem.content ht, fun _ _ => trivial⟩
  size priv s _ := wp_fileSize priv.path
  read priv n s _ := wp_fileRead_regular priv.path n
  write priv buf s _ := wp_fileWrite_regular hempty priv.path buf
  halt_self s o := by
    refine Or.inr ?_
    cases o with
    | openFile path flags =>
        cases flags with
        | wronlyCreat => exact Or.inl rfl
        | wronlyCreatTrunc => exact Or.inl rfl
        | _ => rfl
    | write fd buf => exact Or.inl rfl
    | _ => rfl

end Nvram
