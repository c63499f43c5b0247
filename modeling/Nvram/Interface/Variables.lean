import Nvram.Interface.Files
import Nvram.Interface.Efi
import Mathlib.Data.List.Infix

/-!
# EFI variables

Sections behind the efi interface, on a kernel on which every system call can fail and the power
can go at every call.  A write replaces the whole variable, the attributes in front of the content
included, and a variable that is immutable cannot be opened for a write.
-/

namespace Nvram

open Effects Errno

/-! ### The kernel -/

/-- A file system of EFI variables: some of the files are immutable. -/
structure EfiVars extends FileSystem where
  immutable : CString → Bool

namespace EfiVars

/-- The contents of the variables, behind their attributes. -/
def contents (s : EfiVars) : Contents := fun path => (s.content path).drop EFI_HEADER.length

def withFiles (s : EfiVars) (fs : FileSystem) : EfiVars := { s with toFileSystem := fs }

def withFlags (s : EfiVars) (path : CString) (flags : UInt64) : EfiVars :=
  { s with
    immutable := Function.update s.immutable path (decide (flags &&& EXT2_IMMUTABLE_FL ≠ 0)) }

end EfiVars

/-- Files, except that an immutable one is not opened for a write, and that a write replaces what
was there. -/
def efivarfs : Handler sysSig EfiVars
  | .openFile path flags, s =>
    if flags ≠ .rdonly ∧ s.files path ≠ none ∧ s.immutable path = true then (.error eperm, s)
    else
      ((fileSystem (.openFile path flags) s.toFileSystem).1,
        s.withFiles (fileSystem (.openFile path flags) s.toFileSystem).2)
  | .write fd buf, s =>
    match s.fds fd with
    | none => (.error ebadf, s)
    | some (path, _) => (.ok (allWritten buf), s.withFiles (s.bindFile path buf))
  | .fgetflags path, s =>
    if s.files path = none then (.error enoent, s)
    else (.ok (if s.immutable path then EXT2_IMMUTABLE_FL else 0), s)
  | .fsetflags path flags, s =>
    if s.files path = none then (.error enoent, s) else (.ok (), s.withFlags path flags)
  | o, s => ((fileSystem o s.toFileSystem).1, s.withFiles (fileSystem o s.toFileSystem).2)

/-- EFI variables when every call can fail and the power can go at every call; whether a file is
immutable may change in a call that fails. -/
abbrev efiKernel (lib : Libnvram) : World sysSig EfiVars :=
  faultyKernel efivarfs fun s o t =>
    s.toFileSystem.CutOff (fun new => ¬ Verifies lib (new.drop EFI_HEADER.length)) o t.toFileSystem

theorem looksLike_efiKernel (bad : Bytes → Prop) :
    LooksLike efivarfs (fun s o t => s.toFileSystem.CutOff bad o t.toFileSystem)
      EfiVars.toFileSystem where
  result o s ho := by
    cases o with
    | openFile path flags =>
        cases flags with
        | rdonly => rfl
        | _ => cases ho
    | _ => first | rfl | cases ho
  state o s ho := by
    cases o with
    | openFile path flags =>
        cases flags with
        | rdonly => rfl
        | _ => cases ho
    | _ => first | rfl | cases ho
  cut _ _ _ ho h := h.eq ho

/-! ### The interface -/

namespace EfiVars

variable {s t : EfiVars} {path : CString} {bytes : Bytes}

theorem contents_congr (h : t.content = s.content) : t.contents = s.contents := by
  funext p
  rw [contents, contents, h]

theorem contents_update (h : t.content = Function.update s.content path bytes) :
    t.contents = Function.update s.contents path (bytes.drop EFI_HEADER.length) := by
  funext p
  by_cases hp : p = path
  · subst hp
    rw [Function.update_self, contents, h, Function.update_self]
  · rw [Function.update_of_ne hp, contents, h, Function.update_of_ne hp]
    rfl

end EfiVars

section

variable {lib : Libnvram} {s : EfiVars}

theorem wp_efiSize (path : CString) :
    wp (efiKernel lib)
      (fun r t => t.contents = s.contents ∧ ∀ n, r = .ok n → n = (s.contents path).length)
      (fun t => t.contents = s.contents) (efiSize path) s := by
  have hL := looksLike_efiKernel fun new => ¬ Verifies lib (new.drop EFI_HEADER.length)
  have hsame : ∀ {t : EfiVars}, t.files = s.files → t.contents = s.contents :=
    fun ht => EfiVars.contents_congr (FileSystem.content_congr ht)
  have herror : ∀ (e : Errno) (t : EfiVars), t.files = s.files → t.contents = s.contents ∧
      ∀ n, (.error e : Except Errno ℕ) = .ok n → n = (s.contents path).length :=
    fun e t ht => ⟨hsame ht, fun _ h => by cases h⟩
  refine wp_op_looks hL rfl (fun t ht => hsame ht) (fun t ht => ?_) fun r t hr ht => ?_
  · simp only [fileSystem] at ht ⊢
    cases hfile : s.files path with
    | none =>
        simp only [hfile] at ht ⊢
        refine ⟨hsame (congrArg FileSystem.files ht), fun n hn => ?_⟩
        rw [EfiVars.contents, FileSystem.content, hfile, ← Except.ok.inj hn]
        rfl
    | some bytes =>
        simp only [hfile] at ht ⊢
        show wp _ _ _ (if bytes.length < EFI_HEADER.length then _ else _) _
        split
        · exact herror _ t (congrArg FileSystem.files ht)
        · refine ⟨hsame (congrArg FileSystem.files ht), fun n hn => ?_⟩
          rw [EfiVars.contents, FileSystem.content, hfile, ← Except.ok.inj hn, List.length_drop]
          rfl
  · obtain ⟨e, hne, rfl⟩ := hr
    show wp _ _ _ (if e = enoent then _ else _) _
    rw [if_neg hne]
    exact herror e t (congrArg FileSystem.files ht)

theorem wp_efiRead (path : CString) (n : ℕ) :
    wp (efiKernel lib)
      (fun r t => t.contents = s.contents ∧ ∀ buf, r = .ok buf → buf.val <+: s.contents path)
      (fun t => t.contents = s.contents) (efiRead path n) s := by
  have hL := looksLike_efiKernel fun new => ¬ Verifies lib (new.drop EFI_HEADER.length)
  have hsame : ∀ {t : EfiVars}, t.files = s.files → t.contents = s.contents :=
    fun ht => EfiVars.contents_congr (FileSystem.content_congr ht)
  have herror : ∀ (e : Errno) (t : EfiVars), t.files = s.files → t.contents = s.contents ∧
      ∀ buf, (.error e : Except Errno {buf : Bytes // buf.length = n}) = .ok buf →
        buf.val <+: s.contents path :=
    fun e t ht => ⟨hsame ht, fun _ h => by cases h⟩
  refine wp_op_openRdonly hL (fun t ht => hsame ht) (fun e t ht => herror e t ht)
    fun fd t ht hfd => ?_
  refine wp_op_looks hL rfl (fun u hu => hsame (hu.trans ht)) (fun u hu => ?_) fun r u hr hu => ?_
  swap
  · obtain rfl : r = none := hr
    exact herror _ u ((congrArg FileSystem.files hu).trans ht)
  have hu' : u.toFileSystem = t.toFileSystem := hu
  have hfiles : u.files = s.files := (congrArg FileSystem.files hu').trans ht
  refine wp_readAndClose hL (by rw [hu']; exact hfd) (fun v hv => hsame (hv.trans hfiles))
    fun r v hv hr => ?_
  cases r with
  | error e => exact herror e v (hv.trans hfiles)
  | ok buf =>
      refine ⟨hsame (hv.trans hfiles), fun buf' hbuf => ?_⟩
      by_cases hlength : buf.val.length = n + EFI_HEADER.length
      · rw [dif_pos hlength, Except.ok.injEq] at hbuf
        have hprefix := hr buf rfl hlength
        rw [show u.content = s.content from FileSystem.content_congr hfiles] at hprefix
        rw [← hbuf]
        exact hprefix.drop _
      · rw [dif_neg hlength] at hbuf
        cases hbuf

/-- A call on the flags leaves the files as they are, however it ends. -/
theorem wp_op_flags {α : Type} {Q : α → EfiVars → Prop} {C : EfiVars → Prop} {o : SysCall}
    {f : SysCall.Res o → SysProg α} (ho : (∃ path, o = .fgetflags path) ∨
      ∃ path flags, o = .fsetflags path flags)
    (hstop : ∀ t, t.toFileSystem = s.toFileSystem → C t)
    (hrest : ∀ r t, t.toFileSystem = s.toFileSystem → wp (efiKernel lib) Q C (f r) t) :
    wp (efiKernel lib) Q C (Prog.op (S := sysSig) o f) s := by
  have hcut : ∀ t : EfiVars, s.toFileSystem.CutOff
      (fun new => ¬ Verifies lib (new.drop EFI_HEADER.length)) o t.toFileSystem →
      t.toFileSystem = s.toFileSystem := by
    rintro t hcut
    rcases ho with ⟨path, rfl⟩ | ⟨path, flags, rfl⟩ <;> exact hcut
  have hdone : (efivarfs o s).2.toFileSystem = s.toFileSystem := by
    rcases ho with ⟨path, rfl⟩ | ⟨path, flags, rfl⟩
    · simp only [efivarfs]
      split <;> rfl
    · simp only [efivarfs]
      split <;> rfl
  refine ⟨fun t hhalt => ?_, fun r t hstep => ?_⟩
  · rcases hhalt with ⟨-, -, rfl⟩ | hhalt
    · exact hstop _ hdone
    · exact hstop t (hcut t hhalt)
  · rcases hstep with ⟨hrt, -⟩ | ⟨-, hstep⟩
    · obtain rfl : t = (efivarfs o s).2 := (congrArg Prod.snd hrt).symm
      exact hrest r _ hdone
    · exact hrest r t (hcut t hstep)

/-- Setting the flag of a file leaves the files as they are. -/
theorem wp_setImmutable {Q : Except Errno Unit → EfiVars → Prop} {C : EfiVars → Prop}
    {path : CString} {value : Bool} (hstop : ∀ t, t.toFileSystem = s.toFileSystem → C t)
    (hQ : ∀ r t, t.toFileSystem = s.toFileSystem → Q r t) :
    wp (efiKernel lib) Q C (setImmutable path value) s := by
  refine wp_op_flags (Or.inl ⟨path, rfl⟩) hstop fun r t ht => ?_
  cases r with
  | error e => exact hQ _ t ht
  | ok flags =>
      exact wp_op_flags (Or.inr ⟨path, _, rfl⟩) (fun u hu => hstop u (hu.trans ht))
        fun r u hu => hQ r u (hu.trans ht)

/-- An open for a write leaves the contents as they are. -/
theorem wp_op_openCreat {α : Type} {Q : α → EfiVars → Prop} {C : EfiVars → Prop} {path : CString}
    {f : Except Errno Fd → SysProg α}
    (hstop : ∀ t : EfiVars, t.contents = s.contents → C t)
    (herror : ∀ (e : Errno) (t : EfiVars), t.contents = s.contents →
      wp (efiKernel lib) Q C (f (.error e)) t)
    (hopen : ∀ (fd : Fd) (t : EfiVars), t.contents = s.contents → t.fds fd = some (path, 0) →
      wp (efiKernel lib) Q C (f (.ok fd)) t) :
    wp (efiKernel lib) Q C (Prog.op (S := sysSig) (.openFile path .wronlyCreat) f) s := by
  have hcreated : (s.bindFile path (s.content path)).content = s.content := by
    rw [FileSystem.content_bindFile, Function.update_eq_self]
  have hcut : ∀ t : EfiVars, s.toFileSystem.CutOff
      (fun new => ¬ Verifies lib (new.drop EFI_HEADER.length)) (.openFile path .wronlyCreat)
      t.toFileSystem → t.contents = s.contents := by
    rintro t (ht | ht)
    · exact EfiVars.contents_congr (congrArg FileSystem.content ht)
    · exact EfiVars.contents_congr ((congrArg FileSystem.content ht).trans hcreated)
  refine ⟨fun t hhalt => ?_, fun r t hstep => ?_⟩
  · rcases hhalt with ⟨hreads, -⟩ | hhalt
    · cases hreads
    · exact hstop t (hcut t hhalt)
  · rcases hstep with ⟨hrt, -⟩ | ⟨⟨e, rfl⟩, hstep⟩
    · simp only [efivarfs] at hrt
      split at hrt
      · obtain ⟨rfl, rfl⟩ := Prod.mk.inj hrt
        exact herror _ s rfl
      · obtain ⟨rfl, rfl⟩ := Prod.mk.inj hrt
        exact hopen _ _ (EfiVars.contents_congr hcreated) (Function.update_self ..)
    · exact herror e t (hcut t hstep)

/-- A write replaces the variable, or leaves what does not verify. -/
theorem wp_op_write_variable {α : Type} {Q : α → EfiVars → Prop} {C : EfiVars → Prop}
    {path : CString} {fd : Fd} {buf : Bytes}
    {f : Except Errno {n : ℕ // n ≤ (EFI_HEADER ++ buf).length} → SysProg α} {offset : ℕ}
    (hfd : s.fds fd = some (path, offset))
    (hplaced : ∀ t : EfiVars, Placed path buf s.contents t.contents →
      C t ∧ wp (efiKernel lib) Q C (f (.ok (allWritten _))) t)
    (hdamaged : ∀ t : EfiVars, Damaged lib path s.contents t.contents →
      C t ∧ ∀ r, r ≠ .ok (allWritten _) → wp (efiKernel lib) Q C (f r) t) :
    wp (efiKernel lib) Q C (Prog.op (S := sysSig) (.write fd (EFI_HEADER ++ buf)) f) s := by
  have hcut : ∀ t : EfiVars, s.toFileSystem.CutOff
      (fun new => ¬ Verifies lib (new.drop EFI_HEADER.length)) (.write fd (EFI_HEADER ++ buf))
      t.toFileSystem → Damaged lib path s.contents t.contents := by
    rintro t (ht | ⟨path', offset', new, hfd', hnew, ht⟩)
    · exact Or.inl (EfiVars.contents_congr (congrArg FileSystem.content ht))
    · obtain ⟨rfl, -⟩ := Prod.mk.inj (Option.some.inj (hfd.symm.trans hfd'))
      refine Or.inr ⟨_, hnew, EfiVars.contents_update ?_⟩
      exact (congrArg FileSystem.content ht).trans (s.content_bindFile path new)
  have hdone : Placed path buf s.contents
      (efivarfs (.write fd (EFI_HEADER ++ buf)) s).2.contents := by
    refine ⟨buf, List.prefix_rfl, ?_⟩
    simp only [efivarfs, hfd]
    have hupdate := EfiVars.contents_update (s := s)
      (t := s.withFiles (s.bindFile path (EFI_HEADER ++ buf)))
      (s.content_bindFile path (EFI_HEADER ++ buf))
    rwa [List.drop_left] at hupdate
  refine ⟨fun t hhalt => ?_, fun r t hstep => ?_⟩
  · rcases hhalt with ⟨-, -, rfl⟩ | hhalt
    · exact (hplaced _ hdone).1
    · exact (hdamaged t (hcut t hhalt)).1
  · rcases hstep with ⟨hrt, hok⟩ | ⟨hr, hstep⟩
    · obtain rfl : r = .ok (allWritten (EFI_HEADER ++ buf)) := not_not.mp (hok rfl)
      obtain rfl : t = (efivarfs (.write fd (EFI_HEADER ++ buf)) s).2 :=
        (congrArg Prod.snd hrt).symm
      exact (hplaced _ hdone).2
    · exact (hdamaged t (hcut t hstep)).2 r hr

/-- The buffer is stored behind the attributes, or it is an error. -/
theorem wp_efiPut {path : CString} {fd : Fd} {buf : Bytes} {offset : ℕ}
    (hfd : s.fds fd = some (path, offset)) :
    wp (efiKernel lib)
      (fun r t => r = .ok () ∧ Placed path buf s.contents t.contents ∨
        (∃ e, r = .error e) ∧ Damaged lib path s.contents t.contents)
      (fun t => Placed path buf s.contents t.contents ∨ Damaged lib path s.contents t.contents)
      (efiPut fd buf) s := by
  have hL := looksLike_efiKernel fun new => ¬ Verifies lib (new.drop EFI_HEADER.length)
  have hsame : ∀ {t : EfiVars}, t.files = s.files → t.contents = s.contents :=
    fun ht => EfiVars.contents_congr (FileSystem.content_congr ht)
  refine wp_op_looks hL rfl (fun t ht => Or.inr (Or.inl (hsame ht))) (fun t ht => ?_)
    fun r t hr ht => ?_
  swap
  · obtain rfl : r = none := hr
    exact Or.inr ⟨⟨enomem, rfl⟩, Or.inl (hsame (congrArg FileSystem.files ht))⟩
  have ht' : t.toFileSystem = s.toFileSystem := ht
  rw [← hsame (congrArg FileSystem.files ht')]
  refine wp_op_write_variable (by rw [ht']; exact hfd) (fun u hu => ?_) fun u hu => ?_
  · refine ⟨Or.inl hu, Or.inl ⟨if_neg fun h => h ?_, hu⟩⟩
    rw [allWritten_val, List.length_append, add_comm]
  · refine ⟨Or.inr hu, fun r hr => ?_⟩
    cases r with
    | error e => exact Or.inr ⟨⟨e, rfl⟩, hu⟩
    | ok n =>
        have hshort : n.val ≠ buf.length + EFI_HEADER.length := by
          intro hn
          refine hr (congrArg Except.ok (Subtype.ext ?_))
          rw [hn, allWritten_val, List.length_append, add_comm]
        exact Or.inr ⟨⟨eio, if_pos hshort⟩, hu⟩

/-- Once the variable can be written, it is, or it is an error; its flag is set again. -/
theorem wp_efiStore (path : CString) (buf : Bytes) :
    wp (efiKernel lib)
      (fun r t => r = .ok () ∧ Placed path buf s.contents t.contents ∨
        (∃ e, r = .error e) ∧ Damaged lib path s.contents t.contents)
      (fun t => Placed path buf s.contents t.contents ∨ Damaged lib path s.contents t.contents)
      (efiStore path buf) s := by
  have hL := looksLike_efiKernel fun new => ¬ Verifies lib (new.drop EFI_HEADER.length)
  have hsame : ∀ {t u : EfiVars}, u.toFileSystem = t.toFileSystem → u.contents = t.contents :=
    fun hu => EfiVars.contents_congr (congrArg FileSystem.content hu)
  refine wp_op_openCreat (fun t ht => Or.inr (Or.inl ht)) (fun e t ht => ?_) fun fd t ht hfd => ?_
  · show wp _ _ _ (setImmutable path true >>= _) t
    refine wp_seq (wp_setImmutable (fun u hu => Or.inr (Or.inl ((hsame hu).trans ht)))
      fun _ _ hu => (hsame hu).trans ht) fun _ u hu => ?_
    have hkept : ∀ {v : EfiVars}, v.files = u.files → v.contents = s.contents :=
      fun hv => (EfiVars.contents_congr (FileSystem.content_congr hv)).trans hu
    refine wp_op_looks hL rfl (fun v hv => Or.inr (Or.inl (hkept hv))) (fun v hv => ?_)
      fun _ _ hfails => hfails.elim
    exact Or.inr ⟨⟨e, rfl⟩, Or.inl (hkept (congrArg FileSystem.files hv))⟩
  · rw [← ht]
    show wp _ _ _ (efiPut fd buf >>= _) t
    refine wp_seq (wp_efiPut hfd) fun r u hr => ?_
    have hstop : ∀ v : EfiVars, v.contents = u.contents →
        Placed path buf t.contents v.contents ∨ Damaged lib path t.contents v.contents := by
      intro v hv
      rw [hv]
      exact hr.imp And.right And.right
    show wp _ _ _ (setImmutable path true >>= _) u
    refine wp_seq (wp_setImmutable (fun v hv => hstop v (hsame hv)) fun _ _ hv => hsame hv)
      fun _ v hv => ?_
    have hfiles : ∀ {w : EfiVars}, w.files = v.files → w.contents = u.contents :=
      fun hw => (EfiVars.contents_congr (FileSystem.content_congr hw)).trans hv
    refine wp_op_looks hL rfl (fun w hw => hstop w (hfiles hw)) (fun w hw => ?_)
      fun _ _ hfails => hfails.elim
    have hw' : w.files = v.files := by
      rw [hw]
      rfl
    show r = .ok () ∧ Placed path buf t.contents w.contents ∨
      (∃ e, r = .error e) ∧ Damaged lib path t.contents w.contents
    rw [hfiles hw']
    exact hr

theorem wp_efiWrite (path : CString) (buf : Bytes) :
    wp (efiKernel lib)
      (fun r t => r = .ok () ∧ Placed path buf s.contents t.contents ∨
        (∃ e, r = .error e) ∧ Damaged lib path s.contents t.contents)
      (fun t => Placed path buf s.contents t.contents ∨ Damaged lib path s.contents t.contents)
      (efiWrite path buf) s := by
  have hsame : ∀ {t : EfiVars}, t.toFileSystem = s.toFileSystem → t.contents = s.contents :=
    fun ht => EfiVars.contents_congr (congrArg FileSystem.content ht)
  rw [efiWrite_eq]
  refine wp_seq (wp_setImmutable (fun t ht => Or.inr (Or.inl (hsame ht))) fun _ _ ht => hsame ht)
    fun r t ht => ?_
  have hstore := @wp_efiStore lib t path buf
  rw [ht] at hstore
  rcases r with e | u
  · show wp _ _ _ (if e ≠ enoent then _ else _) t
    split
    · exact Or.inr ⟨⟨e, rfl⟩, Or.inl ht⟩
    · exact hstore
  · exact hstore

end

/-- The variables of a file system of them, through the efi interface. -/
def variableStore (lib : Libnvram) : KernelStore lib nvramEfiInterface (efiKernel lib) where
  contents := EfiVars.contents
  Handle _ := True
  init path s := by
    have hsame : ∀ {t : EfiVars}, t.files = s.files → t.contents = s.contents :=
      fun ht => EfiVars.contents_congr (FileSystem.content_congr ht)
    refine wp_op_looks (looksLike_efiKernel _) rfl (fun t ht => hsame ht) (fun t ht => ?_)
      fun r t hr ht => ?_
    · refine ⟨hsame ?_, fun _ _ => trivial⟩
      rw [ht]
      rfl
    · obtain rfl : r = none := hr
      exact ⟨hsame (congrArg FileSystem.files ht), fun _ _ => trivial⟩
  size priv s _ := wp_efiSize priv.path
  read priv n s _ := wp_efiRead priv.path n
  write priv buf s _ := wp_efiWrite priv.path buf
  halt_self s o := by
    refine Or.inr ?_
    cases o with
    | openFile path flags =>
        cases flags with
        | wronlyCreat => exact Or.inl rfl
        | wronlyCreatTrunc => exact Or.inl rfl
        | _ => rfl
    | write fd buf => exact Or.inl rfl
    | _ => rfl

end Nvram
