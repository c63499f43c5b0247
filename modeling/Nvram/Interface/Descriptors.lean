import Nvram.Library.Resources
import Nvram.Machine

/-!
# Open descriptors

What the functions of the interfaces hold while they run: descriptors, and the connection to
libmtd.  They work only on what they have opened and close it on every path, whatever the kernel
answers, but for `efi_read`, which leaves a descriptor open when its buffer cannot be allocated,
and for `efi_write`, which also closes the -1 of an open that failed.  A `malloc` that fails is
counted, as a token that is never given back; the -1 is a token that is.
-/

namespace Nvram

open Effects Errno

inductive Held where
  | fd (fd : Fd)
  /-- the -1 of an open that failed -/
  | unopened
  | libmtd
  | noMemory
  deriving DecidableEq

/-- What the system calls work on, give back and hand out. -/
def sysProtocol : Protocol sysSig Held where
  uses
    | .blkGetSize64 fd | .memErase fd _ _ | .read fd _ | .write fd _ => some (.fd fd)
    | .mtdGetInfo | .mtdGetDevInfo1 _ => some .libmtd
    | _ => none
  frees
    | .close fd => some (.fd fd)
    | .closeUnopened => some .unopened
    | .libmtdClose => some .libmtd
    | _ => none
  takes o r :=
    match o, r with
    | .openFile _ _, .ok fd => some (.fd fd)
    -- the flags of `efi_write`
    | .openFile _ .wronlyCreat, .error _ => some .unopened
    | .libmtdOpen, .ok () => some .libmtd
    | .malloc _, none => some .noMemory
    | _, _ => none

/-- Everything was closed. -/
def Closed (left : Multiset Held) : Prop := ∀ h ∈ left, h = .noMemory

/-- What is still open is no more than the allocations that failed. -/
def Covered (left : Multiset Held) : Prop :=
  left.countP (· ≠ .noMemory) ≤ left.count .noMemory

/-- What a function of an interface leaves. -/
def Leftover (i : Interface) (left : Multiset Held) : Prop :=
  Covered left ∧ (i ≠ .efi → Closed left)

section

variable {i : Interface} {left more : Multiset Held}

theorem Closed.countP_eq (h : Closed left) : left.countP (· ≠ .noMemory) = 0 :=
  Multiset.countP_eq_zero.mpr fun held hheld hne => hne (h held hheld)

theorem Closed.covered (h : Closed left) : Covered left := by
  rw [Covered, h.countP_eq]
  exact Nat.zero_le _

theorem Closed.leftover (h : Closed left) : Leftover i left := ⟨h.covered, fun _ => h⟩

theorem closed_zero : Closed 0 := fun _ hh => absurd hh (Multiset.notMem_zero _)

theorem closed_noMemory : Closed {.noMemory} := fun _ hh => Multiset.mem_singleton.mp hh

theorem Closed.add (h : Closed left) (h' : Closed more) : Closed (left + more) := fun held hh =>
  (Multiset.mem_add.mp hh).elim (h held) (h' held)

theorem Leftover.add (h : Leftover i left) (h' : Leftover i more) : Leftover i (left + more) := by
  refine ⟨?_, fun hi => (h.2 hi).add (h'.2 hi)⟩
  rw [Covered, Multiset.countP_add, Multiset.count_add]
  exact Nat.add_le_add h.1 h'.1

/-- One descriptor is left open for one allocation that failed. -/
theorem covered_fd (fd : Fd) : Covered {.fd fd, .noMemory} := by
  rw [Covered, Multiset.insert_eq_cons, Multiset.countP_cons_of_pos _ (by simp),
    closed_noMemory.countP_eq, Multiset.count_cons_of_ne (by simp), Multiset.count_singleton_self]

end

/-! ### Single calls -/

section

variable {α : Type} {owned : Multiset Held} {Q : Multiset Held → α → Prop}

/-- What an open that fails with these flags hands out. -/
def unopened : OpenFlags → Multiset Held
  | .wronlyCreat => {.unopened}
  | _ => 0

theorem owns_open {path : CString} {flags : OpenFlags} {k : Except Errno Fd → SysProg α}
    (herror : ∀ e, Owns sysProtocol (unopened flags + owned) Q (k (.error e)))
    (hok : ∀ fd, Owns sysProtocol (.fd fd ::ₘ owned) Q (k (.ok fd))) :
    Owns sysProtocol owned Q (Sys.openFile path flags >>= k) := by
  refine owns_op (fun h hh => by rcases hh with hh | hh <;> cases hh) fun r => ?_
  cases r with
  | ok fd => exact hok fd
  | error e =>
      have hafter : sysProtocol.after owned (.openFile path flags) (.error e) =
          unopened flags + owned := by
        cases flags with
        | wronlyCreat => rfl
        | _ => exact (zero_add owned).symm
      rw [hafter]
      exact herror e

theorem owns_close {fd : Fd} {k : Unit → SysProg α} (hk : Owns sysProtocol owned Q (k ())) :
    Owns sysProtocol (.fd fd ::ₘ owned) Q (Sys.close fd >>= k) := by
  refine owns_op (fun h hh => ?_) fun r => ?_
  · rcases hh with hh | hh
    · cases hh
    · cases hh
      exact Multiset.mem_cons_self _ _
  · show Owns sysProtocol ((Held.fd fd ::ₘ owned).erase (.fd fd)) Q (k ())
    rw [Multiset.erase_cons_head]
    exact hk

/-- A call on an open descriptor. -/
theorem owns_on {fd : Fd} {o : SysCall} {k : SysCall.Res o → SysProg α}
    (huses : sysProtocol.uses o = some (.fd fd)) (hfrees : sysProtocol.frees o = none)
    (htakes : ∀ r, sysProtocol.takes o r = none)
    (hk : ∀ r, Owns sysProtocol (.fd fd ::ₘ owned) Q (k r)) :
    Owns sysProtocol (.fd fd ::ₘ owned) Q (Prog.op (S := sysSig) o k) := by
  refine owns_op (fun h hh => ?_) fun r => ?_
  · rcases hh with hh | hh
    · rw [huses] at hh
      cases hh
      exact Multiset.mem_cons_self _ _
    · rw [hfrees] at hh
      cases hh
  · have hafter : sysProtocol.after (.fd fd ::ₘ owned) o r = .fd fd ::ₘ owned := by
      simp only [Protocol.after, hfrees, htakes r]
    rw [hafter]
    exact hk r

theorem owns_malloc {n : ℕ} {k : Option {buf : Bytes // buf.length = n} → SysProg α}
    (hnone : Owns sysProtocol (.noMemory ::ₘ owned) Q (k none))
    (hsome : ∀ mem, Owns sysProtocol owned Q (k (some mem))) :
    Owns sysProtocol owned Q (Sys.malloc n >>= k) := by
  refine owns_op (fun h hh => by rcases hh with hh | hh <;> cases hh) fun r => ?_
  cases r with
  | none => exact hnone
  | some mem => exact hsome mem

end

/-! ### The file interface -/

theorem owns_fileInit : Owns sysProtocol 0 (fun left _ => left = 0) fileInit :=
  owns_quiet ⟨rfl, rfl, fun _ => rfl⟩ fun r => by
    cases r with
    | none => exact owns_ret rfl
    | some addr => exact owns_ret rfl

theorem owns_fileSize (path : CString) :
    Owns sysProtocol 0 (fun left _ => left = 0) (fileSize path) := by
  refine owns_quiet ⟨rfl, rfl, fun _ => rfl⟩ fun r => ?_
  rcases r with e | ⟨type, size⟩
  · show Owns _ _ _ (if e = enoent then _ else _)
    split <;> exact owns_ret rfl
  · cases type with
    | reg => exact owns_quiet ⟨rfl, rfl, fun _ => rfl⟩ fun _ => owns_ret rfl
    | other => exact owns_quiet ⟨rfl, rfl, fun _ => rfl⟩ fun _ => owns_ret rfl
    | blk =>
        refine owns_quiet ⟨rfl, rfl, fun _ => rfl⟩ fun _ => ?_
        refine owns_open (fun e => owns_ret rfl) fun fd => ?_
        refine owns_on rfl rfl (fun _ => rfl) fun r => owns_close ?_
        cases r with
        | error e => exact owns_ret rfl
        | ok bytes =>
            show Owns _ _ _ (if SIZE_MAX < bytes.toNat then _ else _)
            split <;> exact owns_ret rfl

theorem owns_fileRead (path : CString) (n : ℕ) :
    Owns sysProtocol 0 (fun left _ => left = 0) (fileRead path n) := by
  refine owns_open (fun e => owns_ret rfl) fun fd => ?_
  refine owns_on rfl rfl (fun _ => rfl) fun r => owns_close ?_
  cases r with
  | error e => exact owns_ret rfl
  | ok buf => exact owns_ret rfl

theorem owns_fileWrite (path : CString) (buf : Bytes) :
    Owns sysProtocol 0 (fun left _ => left = 0) (fileWrite path buf) := by
  refine owns_open (fun e => owns_ret rfl) fun fd => ?_
  refine owns_on rfl rfl (fun _ => rfl) fun r => owns_close ?_
  cases r with
  | error e => exact owns_ret rfl
  | ok bytes => exact owns_ret rfl

/-! ### The mtd interface -/

theorem owns_findMtdFrom (label : CString) (highest : ℤ) (rounds : ℕ) (i : ℤ) :
    Owns sysProtocol {.libmtd} (fun left _ => left = {.libmtd})
      (findMtdFrom label highest rounds i) := by
  induction rounds generalizing i with
  | zero => exact owns_ret rfl
  | succ rounds ih =>
      refine owns_op (fun h hh => ?_) fun r => ?_
      · rcases hh with hh | hh
        · cases hh
          exact Multiset.mem_singleton_self _
        · cases hh
      · cases r with
        | error code => exact owns_ret rfl
        | ok dev =>
            show Owns _ _ _ (if dev.name = label then _ else if i = highest then _ else _)
            split
            · exact owns_ret rfl
            · split
              · exact owns_ret rfl
              · exact ih (i + 1)

/-- libmtd is closed, whatever was found. -/
theorem owns_findMtd (label : CString) :
    Owns sysProtocol 0 (fun left _ => left = 0) (findMtd label) := by
  refine owns_quiet ⟨rfl, rfl, fun _ => rfl⟩ fun dev => ?_
  refine owns_quiet ⟨rfl, rfl, fun _ => rfl⟩ fun info => ?_
  show Owns _ _ _ (if dev.isNone ∨ info.isNone then _ else _)
  split
  · exact owns_ret rfl
  · refine owns_op (fun h hh => by rcases hh with hh | hh <;> cases hh) fun r => ?_
    cases r with
    | error code => exact owns_ret rfl
    | ok u =>
        -- whatever was found, libmtd is closed
        have hclose : ∀ r : Except Errno (ℤ × ℤ), Owns sysProtocol {.libmtd}
            (fun left _ => left = 0) (do
              Sys.libmtdClose
              return r) := by
          intro r
          refine owns_op (fun h hh => ?_) fun _ => owns_ret rfl
          rcases hh with hh | hh
          · cases hh
          · cases hh
            exact Multiset.mem_singleton_self _
        refine owns_op (fun h hh => ?_) fun r => ?_
        · rcases hh with hh | hh
          · cases hh
            exact Multiset.mem_singleton_self _
          · cases hh
        · cases r with
          | error code => exact hclose (Sys.negErrno code (0, 0))
          | ok info =>
              show Owns _ _ _ (findMtdFrom label _ _ _ >>= _)
              refine owns_seq (owns_findMtdFrom label _ _ _) fun left r hleft => ?_
              rw [hleft]
              exact hclose r

theorem owns_nvramMtdInit (gpio : Option CString) (label : CString) :
    Owns sysProtocol 0 (fun left _ => Closed left) (nvramMtdInit gpio label) := by
  refine owns_quiet ⟨rfl, rfl, fun _ => rfl⟩ fun addr => ?_
  cases addr with
  | none => exact owns_ret closed_zero
  | some addr =>
      have hinit : Owns sysProtocol 0 (fun left _ => Closed left) (initNvramMtd label) := by
        refine owns_seq (owns_findMtd label) fun left r hleft => ?_
        subst hleft
        cases r with
        | error e => exact owns_ret closed_zero
        | ok found =>
            refine owns_quiet ⟨rfl, rfl, fun _ => rfl⟩ fun _ => ?_
            exact owns_malloc (owns_ret closed_noMemory) fun _ => owns_ret closed_zero
      show Owns _ _ _ (initNvramMtd label >>= _)
      refine owns_seq hinit fun left r hleft => ?_
      cases r with
      | error e => exact owns_ret hleft
      | ok mtd =>
          cases gpio with
          | none => exact owns_ret hleft
          | some path => exact owns_quiet ⟨rfl, rfl, fun _ => rfl⟩ fun _ => owns_ret hleft

theorem owns_setWpGpio (gpio : Option CString) (value : Bool) :
    Owns sysProtocol 0 (fun left _ => left = 0) (setWpGpio gpio value) := by
  cases gpio with
  | none => exact owns_ret rfl
  | some path =>
      refine owns_quiet ⟨rfl, rfl, fun _ => rfl⟩ fun _ => ?_
      refine owns_open (fun e => owns_ret rfl) fun fd => ?_
      refine owns_on rfl rfl (fun _ => rfl) fun r => owns_close ?_
      cases r with
      | error e => exact owns_ret rfl
      | ok n =>
          show Owns _ _ _ (if n.val = 1 then _ else _)
          split
          · exact owns_ret rfl
          · exact owns_quiet ⟨rfl, rfl, fun _ => rfl⟩ fun _ => owns_ret rfl

theorem owns_eraseAndWrite (mtd : NvramMtd) (fd : Fd) (buf : Bytes) :
    Owns sysProtocol {.fd fd} (fun left _ => left = {.fd fd}) (eraseAndWrite mtd fd buf) := by
  have hstart : ∀ {p : SysProg (Except Errno Unit)},
      Owns sysProtocol (.fd fd ::ₘ 0) (fun left _ => left = {.fd fd}) p →
      Owns sysProtocol {.fd fd} (fun left _ => left = {.fd fd}) p := id
  refine owns_quiet ⟨rfl, rfl, fun _ => rfl⟩ fun _ => hstart ?_
  have herase : Owns sysProtocol (.fd fd ::ₘ 0) (fun left _ => left = .fd fd ::ₘ 0)
      (eraseMtd fd mtd.size) := by
    unfold eraseMtd
    split
    · exact owns_ret rfl
    · exact owns_on rfl rfl (fun _ => rfl) fun r => owns_ret rfl
  show Owns _ _ _ (eraseMtd fd mtd.size >>= _)
  refine owns_seq herase fun left r hleft => ?_
  subst hleft
  cases r with
  | error e => exact owns_ret rfl
  | ok u =>
      refine owns_quiet ⟨rfl, rfl, fun _ => rfl⟩ fun _ => ?_
      refine owns_on rfl rfl (fun _ => rfl) fun r => ?_
      cases r with
      | error e => exact owns_ret rfl
      | ok bytes => exact owns_ret rfl

/-- The descriptor is closed, whatever was erased or written. -/
theorem owns_nvramMtdWrite (mtd : NvramMtd) (gpio : Option CString) (buf : Bytes) :
    Owns sysProtocol 0 (fun left _ => left = 0) (nvramMtdWrite mtd gpio buf) := by
  refine owns_open (fun e => owns_ret rfl) fun fd => ?_
  have hset : ∀ value, Owns sysProtocol (.fd fd ::ₘ 0) (fun left _ => left = .fd fd ::ₘ 0)
      (setWpGpio gpio value) := by
    intro value
    refine ((owns_setWpGpio gpio value).frame {.fd fd}).mono fun left _ hleft => ?_
    obtain ⟨l, rfl, rfl⟩ := hleft
    exact zero_add _
  have hfinish : ∀ r : Except Errno Unit, Owns sysProtocol (.fd fd ::ₘ 0)
      (fun left _ => left = 0) (do
        let _ ← setWpGpio gpio true
        Sys.close fd
        return r) := by
    intro r
    refine owns_seq (hset true) fun left _ hleft => ?_
    subst hleft
    exact owns_close (owns_ret rfl)
  show Owns _ _ _ (setWpGpio gpio false >>= _)
  refine owns_seq (hset false) fun left r hleft => ?_
  subst hleft
  cases r with
  | error e => exact hfinish (.error e)
  | ok u =>
      refine owns_seq (owns_eraseAndWrite mtd fd buf) fun left r hleft => ?_
      subst hleft
      exact hfinish r

/-! ### The efi interface -/

theorem owns_efiSize (path : CString) :
    Owns sysProtocol 0 (fun left _ => left = 0) (efiSize path) := by
  refine owns_quiet ⟨rfl, rfl, fun _ => rfl⟩ fun r => ?_
  cases r with
  | error e =>
      show Owns _ _ _ (if e = enoent then _ else _)
      split <;> exact owns_ret rfl
  | ok sb =>
      show Owns _ _ _ (if sb.size < EFI_HEADER.length then _ else _)
      split <;> exact owns_ret rfl

/-- The descriptor stays open where there is no memory. -/
theorem owns_efiRead (path : CString) (n : ℕ) :
    Owns sysProtocol 0 (fun left _ => left = 0 ∨ ∃ fd, left = {.fd fd, .noMemory})
      (efiRead path n) := by
  refine owns_open (fun e => owns_ret (Or.inl rfl)) fun fd => ?_
  refine owns_malloc (owns_ret (Or.inr ⟨fd, Multiset.cons_swap _ _ _⟩)) fun mem => ?_
  refine owns_on rfl rfl (fun _ => rfl) fun r => owns_close ?_
  cases r with
  | error e => exact owns_ret (Or.inl rfl)
  | ok buf => exact owns_ret (Or.inl rfl)

/-- It does, so `efi_read` does not close everything. -/
theorem not_closed_efiRead (path : CString) (n : ℕ) :
    ¬ Owns sysProtocol 0 (fun left _ => Closed left) (efiRead path n) := by
  intro h
  obtain ⟨left, hleft, hclosed⟩ := ((h 0).2 (.ok 3)).2 none
  have hheld : (.noMemory ::ₘ .fd 3 ::ₘ 0 : Multiset Held) = left := hleft.trans (add_zero left)
  have hfd : Held.fd 3 ∈ left := by
    rw [← hheld]
    exact Multiset.mem_cons_of_mem (Multiset.mem_cons_self _ _)
  cases hclosed _ hfd

theorem owns_setImmutable {owned : Multiset Held} (path : CString) (value : Bool) :
    Owns sysProtocol owned (fun left _ => left = owned) (setImmutable path value) := by
  refine owns_quiet ⟨rfl, rfl, fun _ => rfl⟩ fun r => ?_
  cases r with
  | error e => exact owns_ret rfl
  | ok flags => exact owns_quiet ⟨rfl, rfl, fun _ => rfl⟩ fun r => owns_ret rfl

theorem owns_efiPut (fd : Fd) (buf : Bytes) :
    Owns sysProtocol {.fd fd} (fun left _ => ∃ l, left = .fd fd ::ₘ l ∧ Closed l)
      (efiPut fd buf) := by
  refine owns_malloc (owns_ret ⟨{.noMemory}, Multiset.cons_swap _ _ _, closed_noMemory⟩)
    fun mem => ?_
  show Owns sysProtocol (.fd fd ::ₘ 0) _ _
  refine owns_on rfl rfl (fun _ => rfl) fun r => ?_
  cases r with
  | error e => exact owns_ret ⟨0, rfl, closed_zero⟩
  | ok bytes => exact owns_ret ⟨0, rfl, closed_zero⟩

theorem owns_efiStore (path : CString) (buf : Bytes) :
    Owns sysProtocol 0 (fun left _ => Closed left) (efiStore path buf) := by
  refine owns_open (fun e => ?_) fun fd => ?_
  · refine owns_seq (owns_setImmutable path true) fun left _ hleft => ?_
    subst hleft
    refine owns_op (fun h hh => ?_) fun _ => owns_ret closed_zero
    rcases hh with hh | hh
    · cases hh
    · cases hh
      exact Multiset.mem_singleton_self _
  · show Owns _ _ _ (efiPut fd buf >>= _)
    refine owns_seq (owns_efiPut fd buf) fun left r hleft => ?_
    obtain ⟨l, rfl, hl⟩ := hleft
    refine owns_seq (owns_setImmutable path true) fun left _ hleft => ?_
    subst hleft
    exact owns_close (owns_ret hl)

theorem owns_efiWrite (path : CString) (buf : Bytes) :
    Owns sysProtocol 0 (fun left _ => Closed left) (efiWrite path buf) := by
  rw [efiWrite_eq]
  refine owns_seq (owns_setImmutable path false) fun left r hleft => ?_
  subst hleft
  cases r with
  | ok u => exact owns_efiStore path buf
  | error e =>
      show Owns _ _ _ (if e ≠ enoent then _ else _)
      split
      · exact owns_ret closed_zero
      · exact owns_efiStore path buf

/-! ### Every interface -/

section

variable (i : Interface) (gpio : Option CString)

/-- A function that leaves nothing or closes everything. -/
theorem owns_leftover {α : Type} {Q : Multiset Held → α → Prop} {p : SysProg α}
    (h : Owns sysProtocol 0 Q p) (hQ : ∀ left a, Q left a → Closed left) :
    Owns sysProtocol 0 (fun left _ => Leftover i left) p :=
  h.mono fun left a ha => (hQ left a ha).leftover

theorem owns_init (path : CString) :
    Owns sysProtocol 0 (fun left _ => Leftover i left) ((i.impl gpio).init path) := by
  cases i with
  | file => exact owns_leftover _ owns_fileInit fun _ _ h => h ▸ closed_zero
  | mtd => exact owns_leftover _ (owns_nvramMtdInit gpio path) fun _ _ h => h
  | efi => exact owns_leftover _ owns_fileInit fun _ _ h => h ▸ closed_zero

theorem owns_size (priv : NvramPriv) :
    Owns sysProtocol 0 (fun left _ => Leftover i left) ((i.impl gpio).size priv) := by
  cases i with
  | file => exact owns_leftover _ (owns_fileSize priv.path) fun _ _ h => h ▸ closed_zero
  | efi => exact owns_leftover _ (owns_efiSize priv.path) fun _ _ h => h ▸ closed_zero
  | mtd =>
      simp only [Interface.impl, nvramMtdInterface]
      cases priv.data.mtd <;> exact owns_ret closed_zero.leftover

theorem owns_read (priv : NvramPriv) (n : ℕ) :
    Owns sysProtocol 0 (fun left _ => Leftover i left) ((i.impl gpio).read priv n) := by
  cases i with
  | file => exact owns_leftover _ (owns_fileRead priv.path n) fun _ _ h => h ▸ closed_zero
  | efi =>
      refine (owns_efiRead priv.path n).mono fun left _ h => ?_
      rcases h with rfl | ⟨fd, rfl⟩
      · exact closed_zero.leftover
      · exact ⟨covered_fd fd, fun h => absurd rfl h⟩
  | mtd =>
      simp only [Interface.impl, nvramMtdInterface]
      cases priv.data.mtd with
      | none => exact owns_ret closed_zero.leftover
      | some mtd => exact owns_leftover _ (owns_fileRead mtd.path n) fun _ _ h => h ▸ closed_zero

theorem owns_write (priv : NvramPriv) (buf : Bytes) :
    Owns sysProtocol 0 (fun left _ => Leftover i left) ((i.impl gpio).write priv buf) := by
  cases i with
  | file => exact owns_leftover _ (owns_fileWrite priv.path buf) fun _ _ h => h ▸ closed_zero
  | efi => exact owns_leftover _ (owns_efiWrite priv.path buf) fun _ _ h => h
  | mtd =>
      simp only [Interface.impl, nvramMtdInterface]
      cases priv.data.mtd with
      | none => exact owns_ret closed_zero.leftover
      | some mtd => exact owns_leftover _ (owns_nvramMtdWrite mtd _ buf) fun _ _ h => h ▸ closed_zero

end

end Nvram
