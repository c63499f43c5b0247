import Nvram.Interface.Block
import Nvram.V2.PowerFail

/-!
# System calls that can fail, and a power that can go

Every system call may fail, also after a part of its work, and the power may go in every one.
A partition or a block device on which an erase or a write was cut off holds what it held, or
something that does not verify.  On such a kernel the functions of the interfaces do what is
asked of them: an init that succeeds found its section, a size and the bytes that are read are
those of the section, and a write is done, or it is an error and has torn at most its section.
-/

namespace Nvram

open Effects Errno

/-! ### The kernel -/

/-- What is answered where the work was not done, or not all of it.  A `stat` does not take a
file that is there for a missing one, and libmtd leaves a positive `errno`. -/
def SysCall.Fails : (o : SysCall) → SysCall.Res o → Prop
  | .mallocStruct, r => r = none
  | .malloc _, r => r = none
  | .stat _, r => ∃ e, e ≠ enoent ∧ r = .error e
  | .openFile _ _, r => ∃ e, r = .error e
  | .blkGetSize64 _, r => ∃ e, r = .error e
  | .memErase _ _ _, r => ∃ e, r = .error e
  | .read _ n, r => ∀ buf, r = .ok buf → buf.val.length < n
  | .write _ buf, r => r ≠ .ok (allWritten buf)
  | .errno, _ => True
  | .fgetflags _, r => ∃ e, r = .error e
  | .fsetflags _ _, r => ∃ e, r = .error e
  | .libmtdOpen, r => ∃ code, 0 < code ∧ r = .error code
  | .mtdGetInfo, r => ∃ code, 0 < code ∧ r = .error code
  | .mtdGetDevInfo1 _, r => ∃ code, 0 < code ∧ r = .error code
  | _, _ => False

/-- The kernel `h` when every call can fail and the power can go at every call; `cut` says what a
call leaves that was cut off. -/
def faultyKernel {σ : Type} (h : Handler sysSig σ) (cut : σ → SysCall → σ → Prop) :
    World sysSig σ where
  step s o r t := (h o s = (r, t) ∧ (o.reads = false → ¬ o.Fails r)) ∨ o.Fails r ∧ cut s o t
  halt s o t := o.reads = false ∧ ¬ o.Fails (h o s).1 ∧ t = (h o s).2 ∨ cut s o t

/-! ### Devices of fixed size -/

section

variable {table : List MtdPartition} (lib : Libnvram)

/-- Partition `k` holds what it held, or bytes that do not verify. -/
def Torn (k : Fin table.length) (s t : Flash table) : Prop :=
  t.content = s.content ∨ ∃ new, ¬ Verifies lib new ∧ new.length = (table.get k).capacity ∧
    t.content = Function.update s.content k new

/-- Partition `k` starts with `buf`. -/
def StoredAt (k : Fin table.length) (buf : Bytes) (s t : Flash table) : Prop :=
  ∃ new, buf <+: new ∧ new.length = (table.get k).capacity ∧
    t.content = Function.update s.content k new

/-- What a call that was cut off leaves: the open files are as they were. -/
def CutOff (s : Flash table) (o : SysCall) (t : Flash table) : Prop :=
  t.fds = s.fds ∧ t.nextFd = s.nextFd ∧
    match o with
    | .memErase fd _ _ | .write fd _ =>
      t.content = s.content ∨ ∃ k offset, s.fds fd = some (.partition k, offset) ∧ Torn lib k s t
    | _ => t.content = s.content

/-- A kernel for such devices when every call can fail and the power can go at every call. -/
abbrev powerKernel (h : Handler sysSig (Flash table)) : World sysSig (Flash table) :=
  faultyKernel h (CutOff lib)

end

section

variable {table : List MtdPartition} {lib : Libnvram} {h : Handler sysSig (Flash table)}
  {s t u : Flash table} {k : Fin table.length}

theorem Torn.refl (k : Fin table.length) (s : Flash table) : Torn lib k s s := Or.inl rfl

theorem Torn.trans (hst : Torn lib k s t) (htu : Torn lib k t u) : Torn lib k s u := by
  rcases htu with htu | ⟨new, hnew, hlength, htu⟩
  · rw [Torn, htu]
    exact hst
  · refine Or.inr ⟨new, hnew, hlength, ?_⟩
    rcases hst with hst | ⟨old, -, -, hst⟩
    · rw [htu, hst]
    · rw [htu, hst, Function.update_idem]

theorem Torn.storedAt {buf : Bytes} (hst : Torn lib k s t) (htu : StoredAt k buf t u) :
    StoredAt k buf s u := by
  obtain ⟨new, hprefix, hlength, htu⟩ := htu
  refine ⟨new, hprefix, hlength, ?_⟩
  rcases hst with hst | ⟨old, -, -, hst⟩
  · rw [htu, hst]
  · rw [htu, hst, Function.update_idem]

theorem StoredAt.congr {buf : Bytes} (hst : StoredAt k buf s t) (hu : u.content = t.content) :
    StoredAt k buf s u := by
  obtain ⟨new, hprefix, hlength, ht⟩ := hst
  exact ⟨new, hprefix, hlength, hu.trans ht⟩

theorem Torn.congr (hst : Torn lib k s t) (hu : u.content = t.content) : Torn lib k s u :=
  hst.trans (Or.inl hu)

/-- A call that is cut off while it neither writes nor erases leaves no trace. -/
theorem CutOff.content {o : SysCall} (hcut : CutOff lib s o t) (ho : o.reads = true) :
    t.content = s.content := by
  cases o with
  | write fd buf => cases ho
  | memErase fd start length => cases ho
  | _ => exact hcut.2.2

/-- Where one kernel reads without a trace, so does it with faults. -/
theorem powerKernel_content (hreads : ∀ o s, o.reads = true → (h o s).2.content = s.content)
    {o : SysCall} {r : SysCall.Res o} (ho : o.reads = true)
    (hstep : (powerKernel lib h).step s o r t) : t.content = s.content := by
  rcases hstep with ⟨hdone, -⟩ | ⟨-, hcut⟩
  · have hkept := hreads o s ho
    rwa [hdone] at hkept
  · exact hcut.content ho

theorem powerKernel_halt_content {o : SysCall} (ho : o.reads = true)
    (hhalt : (powerKernel lib h).halt s o t) : t.content = s.content := by
  rcases hhalt with ⟨hwrites, -⟩ | hcut
  · rw [ho] at hwrites
    cases hwrites
  · exact hcut.content ho

/-- A program that neither writes nor erases leaves no trace. -/
theorem wp_reads (hreads : ∀ o s, o.reads = true → (h o s).2.content = s.content) {α : Type}
    {A : (o : SysCall) → SysCall.Res o → Prop} {R : α → Prop} {p : SysProg α} (hp : OnlyReads p)
    (hA : ∀ s o r t, (powerKernel lib h).step s o r t → A o r) (hu : Under A R p) :
    wp (powerKernel lib h) (fun a t => R a ∧ t.content = s.content)
      (fun t => t.content = s.content) p s := by
  refine wp_of_under (I := fun t : Flash table => t.content = s.content)
    (fun u o r v hu ho hstep => ?_) (fun u o v hu ho hhalt => ?_) hp hu rfl
  · exact ⟨hA u o r v hstep, (powerKernel_content hreads ho hstep).trans hu⟩
  · exact (powerKernel_halt_content ho hhalt).trans hu

/-! ### One call -/

/-- A call that neither writes nor erases, before the rest: it is done, or it fails. -/
theorem wp_op_reads {α : Type} {Q : α → Flash table → Prop} {C : Flash table → Prop} {o : SysCall}
    {f : SysCall.Res o → SysProg α} (ho : o.reads = true)
    (hstop : ∀ t, t.content = s.content → C t)
    (hdone : wp (powerKernel lib h) Q C (f (h o s).1) (h o s).2)
    (hfails : ∀ r t, o.Fails r → t.fds = s.fds → t.nextFd = s.nextFd → t.content = s.content →
      wp (powerKernel lib h) Q C (f r) t) :
    wp (powerKernel lib h) Q C (Prog.op (S := sysSig) o f) s := by
  refine ⟨fun t hhalt => hstop t (powerKernel_halt_content ho hhalt), fun r t hstep => ?_⟩
  rcases hstep with ⟨hstep, -⟩ | ⟨hr, hcut⟩
  · rw [hstep] at hdone
    exact hdone
  · exact hfails r t hr hcut.1 hcut.2.1 (hcut.content ho)

/-- A write on a partition from its start on stores the buffer, or tears the partition. -/
theorem wp_op_write {α : Type} {Q : α → Flash table → Prop} {C : Flash table → Prop} {fd : Fd}
    {buf : Bytes} {f : Except Errno {n : ℕ // n ≤ buf.length} → SysProg α}
    (hh : h (.write fd buf) s = flash none (.write fd buf) s)
    (hfd : s.fds fd = some (.partition k, 0))
    (hstored : ∀ t, StoredAt k buf s t →
      C t ∧ wp (powerKernel lib h) Q C (f (.ok (allWritten buf))) t)
    (htorn : ∀ t, Torn lib k s t → C t ∧
      ∀ r, r ≠ .ok (allWritten buf) → wp (powerKernel lib h) Q C (f r) t) :
    wp (powerKernel lib h) Q C (Prog.op (S := sysSig) (.write fd buf) f) s := by
  have hcut : ∀ t, CutOff lib s (.write fd buf) t → Torn lib k s t := by
    rintro t ⟨-, -, hsame | ⟨j, offset, hj, ht⟩⟩
    · exact Or.inl hsame
    · cases hfd.symm.trans hj
      exact ht
  -- the count is complete where the buffer fits
  have hdone : ∀ r t, h (.write fd buf) s = (r, t) → ¬ SysCall.Fails (.write fd buf) r →
      r = .ok (allWritten buf) ∧ StoredAt k buf s t := by
    intro r t hrt hok
    have hr : r = .ok (allWritten buf) := not_not.mp hok
    rw [hh, flash_write none buf hfd] at hrt
    obtain ⟨hcount, rfl⟩ := Prod.mk.inj hrt
    refine ⟨hr, (buf ++ (s.content k).drop buf.length), List.prefix_append _ _, ?_, ?_⟩
    · rw [hr] at hcount
      have hmin : min buf.length ((table.get k).capacity - 0) = buf.length :=
        congrArg Subtype.val (Except.ok.inj hcount)
      rw [List.length_append, List.length_drop, s.length_content]
      show buf.length + ((table.get k).capacity - buf.length) = (table.get k).capacity
      omega
    · rw [hr] at hcount
      have hmin : min buf.length ((table.get k).capacity - 0) = buf.length :=
        congrArg Subtype.val (Except.ok.inj hcount)
      have hlength : (s.content k).length = (table.get k).capacity := s.length_content k
      show Function.update s.content k (overlay (s.content k) 0 buf) = _
      rw [overlay_zero, List.take_of_length_le (by omega)]
  refine ⟨fun t hhalt => ?_, fun r t hstep => ?_⟩
  · rcases hhalt with ⟨-, hok, rfl⟩ | hcut'
    · exact (hstored _ (hdone _ _ rfl hok).2).1
    · exact (htorn t (hcut t hcut')).1
  · rcases hstep with ⟨hrt, hok⟩ | ⟨hr, hcut'⟩
    · obtain ⟨rfl, ht⟩ := hdone r t hrt (hok rfl)
      exact (hstored t ht).2
    · exact (htorn t (hcut t hcut')).2 r hr

/-- What a kernel does with open files, as the models of flash and of block devices do. -/
structure OnDescriptors (h : Handler sysSig (Flash table)) : Prop where
  reads : ∀ o s, o.reads = true → (h o s).2.content = s.content
  read : ∀ fd n s, h (.read fd n) s = flash none (.read fd n) s
  write : ∀ fd buf s, h (.write fd buf) s = flash none (.write fd buf) s

variable (H : OnDescriptors h)

include H

/-- What neither writes nor erases keeps what was done before. -/
theorem wp_onlyReads {α : Type} {Q : α → Flash table → Prop} {C : Flash table → Prop}
    {p : SysProg α} (hp : OnlyReads p) (hQ : ∀ a t, t.content = s.content → Q a t)
    (hC : ∀ t, t.content = s.content → C t) : wp (powerKernel lib h) Q C p s :=
  wp_mono (fun a t ht => hQ a t ht.2) hC
    (wp_reads H.reads (A := fun _ _ => True) hp (fun _ _ _ _ _ => trivial) hp.under)

/-- A read of a section: a success gives the first bytes. -/
theorem wp_fileRead {path : CString} (n : ℕ) (s : Flash table)
    (hopen : h (.openFile path .rdonly) s = (.ok s.nextFd, s.openAt (.partition k))) :
    wp (powerKernel lib h)
      (fun r t => t.content = s.content ∧ ∀ buf, r = .ok buf → buf.val <+: s.content k)
      (fun t => t.content = s.content) (fileRead path n) s := by
  refine wp_op_reads rfl (fun _ ht => ht) ?_ fun r t hr _ _ ht => ?_
  · rw [hopen]
    have hfd : (s.openAt (.partition k)).fds s.nextFd = some (.partition k, 0) :=
      Function.update_self ..
    -- only a read of the whole length is a success
    have hresult : ∀ (buf : {buf : Bytes // buf.length ≤ n}) (t : Flash table),
        t.content = s.content → (buf.val.length = n → buf.val <+: s.content k) →
        t.content = s.content ∧ ∀ buf', (if h : buf.val.length = n then .ok ⟨buf.val, h⟩
          else .error eio : Except Errno {buf : Bytes // buf.length = n}) = .ok buf' →
            buf'.val <+: s.content k := by
      intro buf t ht hbuf
      refine ⟨ht, fun buf' h => ?_⟩
      by_cases hlength : buf.val.length = n
      · rw [dif_pos hlength] at h
        cases h
        exact hbuf hlength
      · rw [dif_neg hlength] at h
        cases h
    have hclosed : ∀ {t : Flash table}, t.content = s.content →
        (h (.close s.nextFd) t).2.content = s.content := fun ht => (H.reads _ _ rfl).trans ht
    refine wp_op_reads rfl (fun _ ht => ht) ?_ fun r t hr _ _ ht => ?_
    · rw [H.read]
      simp only [flash, hfd]
      refine wp_op_reads rfl (fun _ ht => ht) ?_ fun _ _ hfails => hfails.elim
      exact hresult _ _ (hclosed rfl) fun _ => List.take_prefix _ _
    · refine wp_op_reads rfl (fun _ hu => hu.trans ht) ?_ fun _ _ hfails => hfails.elim
      cases r with
      | error e => exact ⟨hclosed ht, fun _ h => by cases h⟩
      | ok buf =>
          exact hresult buf _ (hclosed ht) fun hlength => absurd hlength (hr buf rfl).ne
  · obtain ⟨e, rfl⟩ := hr
    exact ⟨ht, fun _ h => by cases h⟩

/-- A write on a descriptor of the section and its check of the count: it is stored, or it is an
error and the section is torn. -/
theorem wp_writeAll (buf : Bytes) {fd : Fd} (hfd : s.fds fd = some (.partition k, 0)) :
    wp (powerKernel lib h)
      (fun r t => r = .ok () ∧ StoredAt k buf s t ∨ (∃ e, r = .error e) ∧ Torn lib k s t)
      (fun t => StoredAt k buf s t ∨ Torn lib k s t) (do
        match ← Sys.write fd buf with
        | .error e => return (.error e : Except Errno Unit)
        | .ok bytes => return if bytes.val ≠ buf.length then .error eio else .ok ()) s := by
  refine wp_op_write (H.write fd buf s) hfd ?_ ?_
  · intro t ht
    exact ⟨Or.inl ht, Or.inl ⟨if_neg fun h => h rfl, ht⟩⟩
  · intro t ht
    refine ⟨Or.inr ht, fun r hr => ?_⟩
    cases r with
    | error e => exact Or.inr ⟨⟨e, rfl⟩, ht⟩
    | ok n =>
        have hshort : n.val ≠ buf.length := fun hn => hr (congrArg Except.ok (Subtype.ext hn))
        exact Or.inr ⟨⟨eio, if_pos hshort⟩, ht⟩

end

/-! ### The mtd interface on flash -/

section

variable {table : List MtdPartition} {lib : Libnvram} (line : Option (WpLine table))
  {s t : Flash table} {k : Fin table.length}

theorem onDescriptors_flash : OnDescriptors (flash line) where
  reads _ s ho := flash_content line ho s
  read _ _ _ := rfl
  write _ _ _ := rfl

/-- The partitions and the files that were open before are as they were. -/
def KeepsOpen (s t : Flash table) : Prop :=
  t.content = s.content ∧ s.nextFd ≤ t.nextFd ∧ ∀ fd, fd < s.nextFd → t.fds fd = s.fds fd

theorem KeepsOpen.trans {u : Flash table} (hst : KeepsOpen s t) (htu : KeepsOpen t u) :
    KeepsOpen s u :=
  ⟨htu.1.trans hst.1, hst.2.1.trans htu.2.1,
    fun fd hfd => (htu.2.2 fd (hfd.trans_le hst.2.1)).trans (hst.2.2 fd hfd)⟩

theorem KeepsOpen.of_cut (hcontent : t.content = s.content) (hfds : t.fds = s.fds)
    (hnext : t.nextFd = s.nextFd) : KeepsOpen s t :=
  ⟨hcontent, hnext.ge, fun fd _ => congrFun hfds fd⟩

theorem flash_write_line {line : Option (WpLine table)} {fd : Fd} {offset : ℕ} {buf : Bytes}
    (hfd : s.fds fd = some (.line, offset)) :
    flash line (.write fd buf) s = (.ok (allWritten buf), s) := by
  simp only [flash, hfd]

/-- A write on the line touches no partition, however it ends. -/
theorem wp_op_write_line {line : Option (WpLine table)} {α : Type} {Q : α → Flash table → Prop}
    {C : Flash table → Prop} {fd : Fd} {offset : ℕ} {buf : Bytes}
    {f : Except Errno {n : ℕ // n ≤ buf.length} → SysProg α}
    (hfd : s.fds fd = some (.line, offset)) (hstop : ∀ t, t.content = s.content → C t)
    (hrest : ∀ r t, t.fds = s.fds → t.nextFd = s.nextFd → t.content = s.content →
      wp (powerKernel lib (flash line)) Q C (f r) t) :
    wp (powerKernel lib (flash line)) Q C (Prog.op (S := sysSig) (.write fd buf) f) s := by
  have hcut : ∀ t, CutOff lib s (.write fd buf) t →
      t.fds = s.fds ∧ t.nextFd = s.nextFd ∧ t.content = s.content := by
    rintro t ⟨hfds, hnext, hcontent | ⟨k, offset', hk, -⟩⟩
    · exact ⟨hfds, hnext, hcontent⟩
    · cases hfd.symm.trans hk
  refine ⟨fun t hhalt => ?_, fun r t hstep => ?_⟩
  · rcases hhalt with ⟨-, -, rfl⟩ | hcut'
    · rw [flash_write_line hfd]
      exact hstop s rfl
    · exact hstop t (hcut t hcut').2.2
  · rcases hstep with ⟨hrt, -⟩ | ⟨-, hcut'⟩
    · rw [flash_write_line hfd] at hrt
      obtain ⟨-, rfl⟩ := Prod.mk.inj hrt
      exact hrest r s rfl rfl rfl
    · obtain ⟨hfds, hnext, hcontent⟩ := hcut t hcut'
      exact hrest r t hfds hnext hcontent

/-- The write protect line is set through a descriptor of its own. -/
theorem wp_setWpGpio (value : Bool) (s : Flash table) :
    wp (powerKernel lib (flash line)) (fun _ t => KeepsOpen s t) (fun t => t.content = s.content)
      (setWpGpio (line.map WpLine.path) value) s := by
  have hself : KeepsOpen s s := ⟨rfl, le_rfl, fun _ _ => rfl⟩
  cases line with
  | none => exact hself
  | some l =>
      refine wp_op_reads rfl (fun _ ht => ht) ?_ fun _ _ hfails => hfails.elim
      refine wp_op_reads rfl (fun _ ht => ht) ?_ fun r t hr hfds hnext ht => ?_
      · rw [flash_printDebug]
        cases haccepts : l.accepts with
        | false =>
            have hfile : flashFile (some l) l.path = none := by
              simp [flashFile, l.notNode, haccepts]
            simp only [flash, hfile]
            exact hself
        | true =>
            have hfile : flashFile (some l) l.path = some .line := by
              simp [flashFile, l.notNode, haccepts]
            simp only [flash, hfile]
            have hfd : (s.openAt .line).fds s.nextFd = some (.line, 0) := Function.update_self ..
            refine wp_op_write_line hfd (fun _ ht => ht) fun r t hfds hnext hcontent => ?_
            -- the descriptor is closed, whatever the count
            have hclosed : ∀ u, u.fds = Function.update t.fds s.nextFd none →
                u.nextFd = t.nextFd → u.content = t.content → KeepsOpen s u := by
              intro u hufds hunext hucontent
              refine ⟨hucontent.trans hcontent, ?_, fun fd hfd => ?_⟩
              · rw [hunext, hnext]
                exact Nat.le_succ _
              · rw [hufds, Function.update_of_ne hfd.ne, hfds]
                exact Function.update_of_ne hfd.ne ..
            refine wp_op_reads rfl (fun _ hu => hu.trans hcontent) ?_ fun _ _ hf => hf.elim
            cases r with
            | error e => exact hclosed _ rfl rfl rfl
            | ok n =>
                show wp _ _ _ (if n.val = 1 then _ else _) _
                split
                · exact hclosed _ rfl rfl rfl
                · refine wp_op_reads rfl (fun _ hu => hu.trans hcontent) ?_
                    fun _ u _ hufds hunext hu => ?_
                  · exact hclosed _ rfl rfl rfl
                  · exact hclosed u hufds hunext hu
      · obtain ⟨e, rfl⟩ := hr
        exact .of_cut ht hfds hnext

/-- How a write ends or is stopped. -/
abbrev WriteEnds (lib : Libnvram) (k : Fin table.length) (buf : Bytes) (s : Flash table)
    (r : Except Errno Unit) (t : Flash table) : Prop :=
  r = .ok () ∧ StoredAt k buf s t ∨ (∃ e, r = .error e) ∧ Torn lib k s t

abbrev WriteStops (lib : Libnvram) (k : Fin table.length) (buf : Bytes) (s t : Flash table) : Prop :=
  StoredAt k buf s t ∨ Torn lib k s t

section

variable (hblank : ∀ n, ¬ Verifies lib (List.replicate n 0xFF))

include hblank

/-- The whole partition is erased, or torn. -/
theorem wp_op_erase {α : Type} {Q : α → Flash table → Prop} {C : Flash table → Prop} {fd : Fd}
    {f : Except Errno Unit → SysProg α} (hfd : s.fds fd = some (.partition k, 0))
    (hstop : ∀ t, Torn lib k s t → C t)
    (hrest : ∀ r t, Torn lib k s t → t.fds fd = some (.partition k, 0) →
      wp (powerKernel lib (flash line)) Q C (f r) t) :
    wp (powerKernel lib (flash line)) Q C (eraseMtd fd (table.get k).capacity >>= f) s := by
  have hself : Torn lib k s s := .refl k s
  by_cases hcap : (table.get k).capacity ≤ UINT32_MAX
  · have hsize : ¬ ((UINT32_MAX : ℤ) < ((table.get k).capacity : ℤ) ∨
        ((table.get k).capacity : ℤ) < 0) := by omega
    have herase : eraseMtd fd (table.get k).capacity =
        Sys.memErase fd 0 (UInt32.ofNat ((table.get k).capacity : ℤ).toNat) := if_neg hsize
    have hh : flash line (.memErase fd 0 (UInt32.ofNat ((table.get k).capacity : ℤ).toNat)) s =
        (.ok (), s.program k 0 (List.replicate (table.get k).capacity 0xFF)) :=
      (congrArg (fun p => run (flash line) p s) herase).symm.trans
        ((run_eraseMtd line k hfd).trans (if_pos hcap))
    have herased : Torn lib k s (s.program k 0 (List.replicate (table.get k).capacity 0xFF)) := by
      refine Or.inr ⟨List.replicate (table.get k).capacity 0xFF, hblank _,
        List.length_replicate, ?_⟩
      have hlength : (s.content k).length = (table.get k).capacity := s.length_content k
      show Function.update s.content k (overlay (s.content k) 0 _) = _
      rw [overlay_zero, hlength, List.take_of_length_le (by simp), List.drop_of_length_le (by simp
        [hlength]), List.append_nil]
    have hcut : ∀ t, CutOff lib s (.memErase fd 0 (UInt32.ofNat
        ((table.get k).capacity : ℤ).toNat)) t → Torn lib k s t ∧ t.fds = s.fds := by
      rintro t ⟨hfds, -, hsame | ⟨j, offset, hj, ht⟩⟩
      · exact ⟨Or.inl hsame, hfds⟩
      · cases hfd.symm.trans hj
        exact ⟨ht, hfds⟩
    rw [herase]
    refine ⟨fun t hhalt => ?_, fun r t hstep => ?_⟩
    · rcases hhalt with ⟨-, -, rfl⟩ | hcut'
      · rw [hh]
        exact hstop _ herased
      · exact hstop t (hcut t hcut').1
    · rcases hstep with ⟨hrt, -⟩ | ⟨-, hcut'⟩
      · rw [hh] at hrt
        obtain ⟨-, rfl⟩ := Prod.mk.inj hrt
        exact hrest r _ herased hfd
      · obtain ⟨ht, hfds⟩ := hcut t hcut'
        exact hrest r t ht ((congrFun hfds fd).trans hfd)
  · have hsize : (UINT32_MAX : ℤ) < ((table.get k).capacity : ℤ) ∨
        ((table.get k).capacity : ℤ) < 0 := by omega
    rw [eraseMtd, if_pos hsize]
    exact hrest _ s hself hfd

/-- `nvram_mtd_write` stores the buffer, or it is an error and the partition is torn; the power
can go before the erase, after it and within it. -/
theorem wp_eraseAndWrite {path : CString} (buf : Bytes) {fd : Fd}
    (hfd : s.fds fd = some (.partition k, 0)) :
    wp (powerKernel lib (flash line)) (WriteEnds lib k buf s) (WriteStops lib k buf s)
      (eraseAndWrite ⟨path, (table.get k).capacity⟩ fd buf) s := by
  refine wp_op_reads rfl (fun t ht => Or.inr (Or.inl ht)) ?_ fun _ _ hf => hf.elim
  rw [flash_printDebug]
  refine wp_op_erase line hblank hfd (fun t ht => Or.inr ht) fun r t ht hfd => ?_
  cases r with
  | error e => exact Or.inr ⟨⟨e, rfl⟩, ht⟩
  | ok u =>
      refine wp_op_reads rfl (fun u hu => Or.inr (ht.congr hu)) ?_ fun _ _ hf => hf.elim
      rw [flash_printDebug]
      refine wp_mono (fun r u hu => ?_) (fun u hu => ?_)
        (wp_writeAll (onDescriptors_flash line) buf hfd)
      · exact hu.imp (fun h => ⟨h.1, ht.storedAt h.2⟩) fun h => ⟨h.1, ht.trans h.2⟩
      · exact hu.imp ht.storedAt ht.trans

theorem wp_nvramMtdWrite (buf : Bytes) (s : Flash table) :
    wp (powerKernel lib (flash line)) (WriteEnds lib k buf s) (WriteStops lib k buf s)
      (nvramMtdWrite ⟨mtdPath k.val, (table.get k).capacity⟩ (line.map WpLine.path) buf) s := by
  have hself : Torn lib k s s := .refl k s
  refine wp_op_reads rfl (fun t ht => Or.inr (Or.inl ht)) ?_ fun r t hr _ _ ht => ?_
  · have hopen : flash line (.openFile (mtdPath k.val) .wronly) s =
        (.ok s.nextFd, s.openAt (.partition k)) := by
      simp only [flash, flashFile_mtdPath]
    rw [hopen]
    -- the line is raised and the descriptor closed, whatever happened before
    have hfinish : ∀ (r : Except Errno Unit) (t : Flash table), WriteEnds lib k buf s r t →
        wp (powerKernel lib (flash line)) (WriteEnds lib k buf s) (WriteStops lib k buf s) (do
          let _ ← setWpGpio (line.map WpLine.path) true
          Sys.close s.nextFd
          return r) t := by
      intro r t hr
      have hkept : ∀ {u : Flash table}, u.content = t.content → WriteEnds lib k buf s r u := by
        intro u hu
        exact hr.imp (fun h => ⟨h.1, h.2.congr hu⟩) fun h => ⟨h.1, h.2.congr hu⟩
      have hstops : ∀ {u : Flash table}, u.content = t.content → WriteStops lib k buf s u :=
        fun hu => (hkept hu).imp And.right And.right
      refine wp_seq (wp_mono (fun _ _ h => h) (fun u hu => hstops hu)
        (wp_setWpGpio line true t)) fun _ u hu => ?_
      refine wp_op_reads rfl (fun v hv => hstops (hv.trans hu.1)) ?_ fun _ _ hf => hf.elim
      exact hkept hu.1
    show wp _ _ _ (setWpGpio (line.map WpLine.path) false >>= _) _
    refine wp_seq (wp_mono (fun _ _ h => h) (fun u hu => Or.inr (Or.inl hu))
      (wp_setWpGpio line false (s.openAt (.partition k)))) fun r u hu => ?_
    have htorn : Torn lib k s u := Or.inl hu.1
    cases r with
    | error e => exact hfinish (.error e) u (Or.inr ⟨⟨e, rfl⟩, htorn⟩)
    | ok done =>
        have hfd : u.fds s.nextFd = some (.partition k, 0) := by
          rw [hu.2.2 s.nextFd (Nat.lt_succ_self _)]
          exact Function.update_self ..
        refine wp_seq (wp_mono (fun r v hv => ?_) (fun v hv => ?_)
          (wp_eraseAndWrite line hblank buf hfd)) hfinish
        · exact hv.imp (fun h => ⟨h.1, htorn.storedAt h.2⟩) fun h => ⟨h.1, htorn.trans h.2⟩
        · exact hv.imp htorn.storedAt htorn.trans
  · obtain ⟨e, rfl⟩ := hr
    exact Or.inr ⟨⟨e, rfl⟩, Or.inl ht⟩

end

/-- libmtd lists the devices of the table, or leaves a positive `errno`. -/
def ListsDevices (table : List MtdPartition) : (o : SysCall) → SysCall.Res o → Prop
  | .libmtdOpen, r => r = .ok () ∨ ∃ code, 0 < code ∧ r = .error code
  | .mtdGetInfo, r => r = .ok ⟨0, (table.length : ℤ) - 1⟩ ∨ ∃ code, 0 < code ∧ r = .error code
  | .mtdGetDevInfo1 num, r =>
    (∃ i : Fin table.length, num = i.val ∧
      r = .ok ⟨(table.get i).name, num, (table.get i).capacity⟩) ∨
      ∃ code, 0 < code ∧ r = .error code
  | _, _ => True

theorem powerKernel_listsDevices {o : SysCall} {r : SysCall.Res o}
    (h : (powerKernel lib (flash line)).step s o r t) : ListsDevices table o r := by
  cases o with
  | libmtdOpen =>
      rcases h with ⟨hrt, -⟩ | ⟨hfails, -⟩
      · exact Or.inl (congrArg Prod.fst hrt).symm
      · exact Or.inr hfails
  | mtdGetInfo =>
      rcases h with ⟨hrt, -⟩ | ⟨hfails, -⟩
      · exact Or.inl (congrArg Prod.fst hrt).symm
      · exact Or.inr hfails
  | mtdGetDevInfo1 num =>
      rcases h with ⟨hrt, -⟩ | ⟨hfails, -⟩
      · simp only [flash] at hrt
        split at hrt
        · rename_i hin
          refine Or.inl ⟨⟨num.toNat, hin.2⟩, ?_, (congrArg Prod.fst hrt).symm⟩
          exact (Int.toNat_of_nonneg hin.1).symm
        · exact Or.inr ⟨enodev.code, enodev.pos, (congrArg Prod.fst hrt).symm⟩
      · exact Or.inr hfails
  | _ => trivial

/-- The first device with the label, with its number and its size. -/
def FindsLabel (table : List MtdPartition) (label : CString) (r : Except Errno (ℤ × ℤ)) : Prop :=
  ∀ found, r = .ok found → ∃ k, labelled table label = some k ∧
    found = ((k.val : ℤ), ((table.get k).capacity : ℤ))

theorem findsLabel_error {label : CString} {code : ℕ} (hcode : 0 < code) :
    FindsLabel table label (Sys.negErrno code (0, 0)) := by
  intro found h
  rw [Sys.negErrno, dif_pos hcode] at h
  cases h

/-- From device `i` on, a device that is found is the first with the label. -/
theorem under_findMtdFrom (label : CString) {rounds i : ℕ} (hrounds : i + rounds = table.length)
    (hi : i < table.length)
    (hbefore : ∀ j : Fin table.length, j.val < i → (table.get j).name ≠ label) :
    Under (ListsDevices table) (FindsLabel table label)
      (findMtdFrom label ((table.length : ℤ) - 1) rounds i) := by
  induction rounds generalizing i with
  | zero => omega
  | succ rounds ih =>
      intro r hr
      rcases hr with ⟨j, hj, rfl⟩ | ⟨code, hcode, rfl⟩
      · have hij : i = j.val := by exact_mod_cast hj
        show Under _ _ (if (table.get j).name = label then _ else _)
        split
        · rename_i hname
          intro found h
          cases h
          refine ⟨j, ?_, Prod.ext hj rfl⟩
          rw [labelled, Fin.find?_eq_some_iff]
          refine ⟨by simpa using hname, fun m hm => ?_⟩
          have hne := hbefore m (hij ▸ hm)
          simpa using hne
        · rename_i hname
          split
          · exact fun _ h => by cases h
          · rename_i hlast
            have hnext := ih (i := i + 1) (by omega) (by omega) fun m hm => ?_
            · rw [Nat.cast_add, Nat.cast_one] at hnext
              exact hnext
            · by_cases hmi : m.val < i
              · exact hbefore m hmi
              · obtain rfl : m = j := Fin.ext (by omega)
                exact hname
      · exact findsLabel_error hcode

theorem under_findMtd (htable : table ≠ []) (label : CString) :
    Under (ListsDevices table) (FindsLabel table label) (findMtd label) := by
  intro dev _ info _
  show Under _ _ (if dev.isNone ∨ info.isNone then _ else _)
  split
  · exact fun _ h => by cases h
  · intro r hr
    rcases hr with rfl | ⟨code, hcode, rfl⟩
    · intro r hr
      rcases hr with rfl | ⟨code, hcode, rfl⟩
      · have hlength : 0 < table.length := List.length_pos_iff.mpr htable
        have hloop := under_findMtdFrom label (i := 0) (Nat.zero_add table.length) hlength
          fun _ h => (Nat.not_lt_zero _ h).elim
        have hcount : ((table.length : ℤ) - 1 - 0 + 1).toNat = table.length := by omega
        show Under _ _ (findMtdFrom label ((table.length : ℤ) - 1)
          ((table.length : ℤ) - 1 - 0 + 1).toNat 0 >>= _)
        rw [hcount]
        exact under_seq hloop fun r hr _ _ => hr
      · exact fun _ _ => findsLabel_error hcode
    · exact findsLabel_error hcode

/-- A handle that `nvram_mtd_init` gives out is one of the partition with the label. -/
theorem under_nvramMtdInit (htable : table ≠ []) (label : CString) :
    Under (ListsDevices table) (fun r => ∀ data, r = .ok data → MtdHandle line ⟨label, data⟩)
      (nvramMtdInit (line.map WpLine.path) label) := by
  intro addr _
  cases addr with
  | none => exact fun _ h => by cases h
  | some addr =>
      have hmtd : Under (ListsDevices table) (fun r => ∀ mtd, r = .ok mtd → ∃ k,
          labelled table label = some k ∧ mtd = ⟨mtdPath k.val, (table.get k).capacity⟩)
          (initNvramMtd label) := by
        refine under_seq (under_findMtd htable label) fun r hr => ?_
        cases r with
        | error e => exact fun _ h => by cases h
        | ok found =>
            obtain ⟨k, hk, rfl⟩ := hr found rfl
            intro _ _ mem _
            cases mem with
            | none => exact fun _ h => by cases h
            | some mem => exact fun mtd h => ⟨k, hk, (Except.ok.inj h).symm⟩
      show Under _ _ (initNvramMtd label >>= _)
      refine under_seq hmtd fun r hr => ?_
      cases r with
      | error e => exact fun _ h => by cases h
      | ok mtd =>
          obtain ⟨k, hk, rfl⟩ := hr mtd rfl
          have hhandle : ∀ data : PrivData, data = ⟨addr, some ⟨mtdPath k.val,
              (table.get k).capacity⟩, line.map WpLine.path⟩ → MtdHandle line ⟨label, data⟩ := by
            rintro data rfl
            exact ⟨k, hk, rfl, rfl⟩
          cases line with
          | none => exact fun data h => hhandle data (Except.ok.inj h).symm
          | some l => exact fun _ _ data h => hhandle data (Except.ok.inj h).symm

end

end Nvram
