import Nvram.Library.Interp
import Nvram.Interface.Files
import Nvram.Machine

/-!
# Write protection

An EFI variable is immutable, and a partition can have a write protect pin.  The functions of the
interfaces take the protection off around a write and put it back.  A monitor keeps what the
answers of the kernel say about the protection; what is protected is not written, and after each
function it is protected again or the last call about it was refused.
-/

namespace Nvram

open Effects Errno

/-! ### The flag of EFI variables -/

/-- What the answers say about the flags of one file. -/
structure VarFlags where
  /-- The file is not immutable, or there was none. -/
  bare : Bool
  /-- The last call on the flags failed. -/
  refused : Bool
  deriving DecidableEq

/-- What the answers say about the flags, and the files that are open for a write. -/
structure FlagGuard where
  flags : CString → VarFlags
  /-- The file whose flags the last call read, and the flags. -/
  seen : Option (CString × UInt64)
  opened : Fd → Option CString

namespace FlagGuard

/-- Nothing is known to be bare. -/
def start : FlagGuard := ⟨fun _ => ⟨false, false⟩, none, fun _ => none⟩

def withFlags (g : FlagGuard) (path : CString) (flags : VarFlags) : FlagGuard :=
  { g with flags := Function.update g.flags path flags, seen := none }

/-- Not immutable by these flags. -/
def bareBy (flags : UInt64) : Bool := decide (flags &&& EXT2_IMMUTABLE_FL = 0)

/-- After a call on the flags of `path` has failed. -/
def refuse (g : FlagGuard) (path : CString) (e : Errno) : FlagGuard :=
  g.withFlags path ⟨(g.flags path).bare || decide (e = enoent), true⟩

def next : FlagGuard → (o : SysCall) → SysCall.Res o → FlagGuard
  | g, .fgetflags path, .ok flags =>
    { g.withFlags path ⟨bareBy flags, false⟩ with seen := some (path, flags) }
  | g, .fgetflags path, .error e => g.refuse path e
  | g, .fsetflags path flags, .ok () => g.withFlags path ⟨bareBy flags, false⟩
  | g, .fsetflags path _, .error e => g.refuse path e
  | g, .openFile path flags, .ok fd =>
    { g with
      seen := none
      opened := Function.update g.opened fd (if flags = .rdonly then none else some path) }
  | g, .close fd, _ => { g with seen := none, opened := Function.update g.opened fd none }
  | g, _, _ => { g with seen := none }

/-- Flags are set right after they were read, and as they were read but for the flag in question;
a file is opened for a write and written only while it is bare. -/
def allows (g : FlagGuard) : SysCall → Prop
  | .fsetflags path flags => ∃ old, g.seen = some (path, old) ∧
      flags ||| EXT2_IMMUTABLE_FL = old ||| EXT2_IMMUTABLE_FL
  | .openFile path flags => flags ≠ .rdonly → (g.flags path).bare = true
  | .write fd _ => ∃ path, g.opened fd = some path ∧ (g.flags path).bare = true
  | .memErase _ _ _ => False
  | _ => True

/-- What is bare is so because a call was refused. -/
def Settled (g : FlagGuard) : Prop :=
  ∀ path, (g.flags path).bare = true → (g.flags path).refused = true

end FlagGuard

def flagMonitor : Monitor sysSig FlagGuard where
  allows := FlagGuard.allows
  next := FlagGuard.next

/-! ### Flags -/

theorem or_and_immutable (flags : UInt64) :
    (flags ||| EXT2_IMMUTABLE_FL) &&& EXT2_IMMUTABLE_FL = EXT2_IMMUTABLE_FL := by
  rw [← UInt64.toBitVec_inj]
  ext i hi
  simp only [UInt64.toBitVec_and, UInt64.toBitVec_or, BitVec.getElem_and, BitVec.getElem_or]
  cases flags.toBitVec[i] <;> simp

theorem and_not_or_immutable (flags : UInt64) :
    flags &&& ~~~EXT2_IMMUTABLE_FL ||| EXT2_IMMUTABLE_FL = flags ||| EXT2_IMMUTABLE_FL := by
  rw [← UInt64.toBitVec_inj]
  ext i hi
  simp only [UInt64.toBitVec_and, UInt64.toBitVec_or, UInt64.toBitVec_not, BitVec.getElem_and,
    BitVec.getElem_or, BitVec.getElem_not]
  cases flags.toBitVec[i] <;> cases EXT2_IMMUTABLE_FL.toBitVec[i] <;> rfl

/-- The flags that `set_immutable` sets. -/
def immutableAs (flags : UInt64) (value : Bool) : UInt64 :=
  if value then flags ||| EXT2_IMMUTABLE_FL else flags &&& ~~~EXT2_IMMUTABLE_FL

theorem immutableAs_or (flags : UInt64) (value : Bool) :
    immutableAs flags value ||| EXT2_IMMUTABLE_FL = flags ||| EXT2_IMMUTABLE_FL := by
  cases value with
  | false => exact and_not_or_immutable flags
  | true =>
      show flags ||| EXT2_IMMUTABLE_FL ||| EXT2_IMMUTABLE_FL = flags ||| EXT2_IMMUTABLE_FL
      rw [UInt64.or_assoc, UInt64.or_self]

@[simp] theorem bareBy_immutableAs (flags : UInt64) (value : Bool) :
    FlagGuard.bareBy (immutableAs flags value) = !value := by
  cases value with
  | false =>
      refine decide_eq_true ?_
      show flags &&& ~~~EXT2_IMMUTABLE_FL &&& EXT2_IMMUTABLE_FL = 0
      rw [UInt64.and_assoc, UInt64.not_and_self, UInt64.and_zero]
  | true =>
      refine decide_eq_false ?_
      show ¬ (flags ||| EXT2_IMMUTABLE_FL) &&& EXT2_IMMUTABLE_FL = 0
      rw [or_and_immutable]
      decide

/-! ### The efi interface -/

namespace FlagGuard

variable {g g' : FlagGuard} {path : CString}

/-- Settled but for `path`. -/
def SettledBut (path : CString) (g : FlagGuard) : Prop :=
  ∀ p, p ≠ path → (g.flags p).bare = true → (g.flags p).refused = true

theorem Settled.but (h : g.Settled) (path : CString) : g.SettledBut path := fun p _ => h p

theorem SettledBut.settled (h : g.SettledBut path)
    (hpath : (g.flags path).bare = true → (g.flags path).refused = true) : g.Settled := by
  intro p
  by_cases hp : p = path
  · subst hp
    exact hpath
  · exact h p hp

@[simp] theorem flags_withFlags (g : FlagGuard) (path : CString) (flags : VarFlags) :
    (g.withFlags path flags).flags path = flags := Function.update_self ..

theorem SettledBut.withFlags (h : g.SettledBut path) (flags : VarFlags) :
    (g.withFlags path flags).SettledBut path := by
  intro p hp
  show (Function.update g.flags path flags p).bare = true →
    (Function.update g.flags path flags p).refused = true
  rw [Function.update_of_ne hp]
  exact h p hp

theorem start_settled : start.Settled := fun _ h => by cases h

end FlagGuard

section

variable {g : FlagGuard} {path : CString}

/-- What `set_immutable` leaves: where it is done the file is as it should be, and where it is not
the last call on the flags failed.  A missing file is bare. -/
theorem monitored_setImmutable (hg : g.SettledBut path) (value : Bool) :
    Monitored flagMonitor
      (fun g' r => g'.SettledBut path ∧ g'.opened = g.opened ∧
        (r = .ok () → (g'.flags path).bare = !value) ∧
        (r = .error enoent → (g'.flags path).bare = true) ∧
        (r ≠ .ok () → (g'.flags path).refused = true))
      (setImmutable path value) g := by
  have hrefused : ∀ {g' : FlagGuard} (e : Errno), g'.SettledBut path →
      g'.opened = g.opened →
      (g'.refuse path e).SettledBut path ∧ (g'.refuse path e).opened = g.opened ∧
        ((.error e : Except Errno Unit) = .ok () → ((g'.refuse path e).flags path).bare = !value) ∧
        ((.error e : Except Errno Unit) = .error enoent →
          ((g'.refuse path e).flags path).bare = true) ∧
        ((.error e : Except Errno Unit) ≠ .ok () →
          ((g'.refuse path e).flags path).refused = true) := by
    intro g' e hg' hopened
    refine ⟨hg'.withFlags _, hopened, (by intro h; cases h), fun h => ?_, fun _ => ?_⟩
    · obtain rfl := Except.error.inj h
      rw [FlagGuard.refuse, FlagGuard.flags_withFlags]
      exact Bool.or_true _
    · rw [FlagGuard.refuse, FlagGuard.flags_withFlags]
  refine ⟨trivial, fun r => ?_⟩
  cases r with
  | error e => exact hrefused e hg rfl
  | ok flags =>
      -- the flags were just read
      have hread : FlagGuard.SettledBut path
          { g.withFlags path ⟨FlagGuard.bareBy flags, false⟩ with seen := some (path, flags) } :=
        hg.withFlags _
      refine ⟨⟨flags, rfl, immutableAs_or flags value⟩, fun r => ?_⟩
      cases r with
      | error e => exact hrefused e hread rfl
      | ok u =>
          refine ⟨hread.withFlags _, rfl, fun _ => ?_, (by intro h; cases h), fun h => ?_⟩
          · show (FlagGuard.flags (FlagGuard.withFlags _ path _) path).bare = !value
            rw [FlagGuard.flags_withFlags]
            exact bareBy_immutableAs flags value
          · exact absurd rfl h

/-- After an attempt to make the file immutable again everything is settled. -/
theorem monitored_setImmutable_true (hg : g.SettledBut path) :
    Monitored flagMonitor (fun g' _ => g'.Settled) (setImmutable path true) g := by
  refine (monitored_setImmutable hg true).mono fun g' r h => ?_
  obtain ⟨hbut, -, hok, -, hrefused⟩ := h
  refine hbut.settled fun hbare => ?_
  by_cases hr : r = .ok ()
  · rw [hok hr] at hbare
    cases hbare
  · exact hrefused hr

/-- The variable is bare while it is written. -/
theorem monitored_efiStore (hg : g.SettledBut path) (hbare : (g.flags path).bare = true)
    (buf : Bytes) :
    Monitored flagMonitor (fun g' _ => g'.Settled) (efiStore path buf) g := by
  refine ⟨fun _ => hbare, fun r => ?_⟩
  cases r with
  | error e =>
      show Monitored _ _ (setImmutable path true >>= _) _
      exact monitored_seq (monitored_setImmutable_true hg) fun g' _ h => ⟨trivial, fun _ => h⟩
  | ok fd =>
      have hput : ∀ g' : FlagGuard, g'.opened fd = some path → (g'.flags path).bare = true →
          Monitored flagMonitor (fun g'' _ => g''.flags = g'.flags) (efiPut fd buf) g' := by
        intro g' hfd hbare'
        refine ⟨trivial, fun mem => ?_⟩
        cases mem with
        | none => exact rfl
        | some mem =>
            refine ⟨⟨path, hfd, hbare'⟩, fun r => ?_⟩
            cases r with
            | error e => exact rfl
            | ok n => exact rfl
      show Monitored _ _ (efiPut fd buf >>= _) _
      refine monitored_seq (hput _ (Function.update_self ..) hbare) fun g' r h => ?_
      have hbut : g'.SettledBut path := by
        intro p hp
        rw [h]
        exact hg p hp
      show Monitored _ _ (setImmutable path true >>= _) _
      refine monitored_seq (monitored_setImmutable_true hbut) fun g'' _ h => ?_
      exact ⟨trivial, fun _ => h⟩

theorem monitored_efiWrite (hg : g.Settled) (buf : Bytes) :
    Monitored flagMonitor (fun g' _ => g'.Settled) (efiWrite path buf) g := by
  rw [efiWrite_eq]
  refine monitored_seq (monitored_setImmutable (hg.but path) false) fun g' r h => ?_
  obtain ⟨hbut, -, hok, henoent, hrefused⟩ := h
  rcases r with e | u
  · show Monitored _ _ (if e ≠ enoent then _ else _) g'
    by_cases he : e = enoent
    · rw [if_neg (not_not.mpr he)]
      exact monitored_efiStore hbut (henoent (congrArg Except.error he)) buf
    · rw [if_pos he]
      exact hbut.settled fun _ => hrefused fun h => by cases h
  · exact monitored_efiStore hbut (hok rfl) buf

/-- What only looks at files leaves the flags alone. -/
theorem monitored_looks {α : Type} {Q : α → Prop} {p : SysProg α}
    (hp : Confined (fun o => SysCall.looks o = true) Q p) (hg : g.Settled) :
    Monitored flagMonitor (fun g' _ => g'.Settled) p g := by
  refine (hp.keeps (J := FlagGuard.Settled) (fun g o ho hg => ?_) hg).mono fun _ _ h => h.1
  cases o with
  | openFile path flags =>
      cases flags with
      | rdonly =>
          refine ⟨fun h => absurd rfl h, fun r => ?_⟩
          cases r with
          | error e => exact hg
          | ok fd => exact hg
      | _ => cases ho
  | mallocStruct => exact ⟨trivial, fun _ => hg⟩
  | malloc n => exact ⟨trivial, fun _ => hg⟩
  | printDebug fmt args => exact ⟨trivial, fun _ => hg⟩
  | stat path => exact ⟨trivial, fun _ => hg⟩
  | read fd n => exact ⟨trivial, fun _ => hg⟩
  | close fd => exact ⟨trivial, fun _ => hg⟩
  | closeUnopened => exact ⟨trivial, fun _ => hg⟩
  | _ => cases ho

theorem looks_efiInit : Confined (fun o => SysCall.looks o = true) (fun _ => True) efiInit := by
  refine ⟨rfl, fun r => ?_⟩
  cases r with
  | none => trivial
  | some addr => trivial

theorem looks_efiSize (path : CString) :
    Confined (fun o => SysCall.looks o = true) (fun _ => True) (efiSize path) := by
  refine ⟨rfl, fun r => ?_⟩
  cases r with
  | error e =>
      show Confined _ _ (if e = enoent then _ else _)
      split <;> trivial
  | ok sb =>
      show Confined _ _ (if sb.size < EFI_HEADER.length then _ else _)
      split <;> trivial

theorem looks_efiRead (path : CString) (n : ℕ) :
    Confined (fun o => SysCall.looks o = true) (fun _ => True) (efiRead path n) := by
  refine ⟨rfl, fun r => ?_⟩
  cases r with
  | error e => trivial
  | ok fd =>
      refine ⟨rfl, fun mem => ?_⟩
      cases mem with
      | none => trivial
      | some mem =>
          refine ⟨rfl, fun r => ⟨rfl, fun _ => ?_⟩⟩
          cases r with
          | error e => trivial
          | ok buf => trivial

end

/-! ### The write protect pin of partitions -/

/-- What the answers say about the pin. -/
structure PinGuard where
  /-- A 0 was the last that it was given. -/
  low : Bool
  /-- The last attempt to give it something failed, or wrote nothing. -/
  refused : Bool
  /-- It did, and `errno` was 0 then, which `set_gpio` takes for a success. -/
  unreported : Bool
  opened : Fd → Option CString

namespace PinGuard

/-- Nothing is known to be low. -/
def start : PinGuard := ⟨false, false, false, fun _ => none⟩

/-- After a complete write of `buf` to the pin. -/
def given (g : PinGuard) (buf : Bytes) : PinGuard :=
  if buf = [48] then { g with low := true, refused := false, unreported := false }
  else if buf = [49] then { g with low := false, refused := false, unreported := false }
  else g

/-- After an attempt to set the pin that failed or fell short. -/
def refuse (g : PinGuard) : PinGuard := { g with refused := true, unreported := false }

def next (pin : CString) : PinGuard → (o : SysCall) → SysCall.Res o → PinGuard
  | g, .openFile path _, .ok fd =>
    { g with opened := Function.update g.opened fd (some path) }
  | g, .openFile path _, .error _ => if path = pin then g.refuse else g
  | g, .write fd buf, .ok n =>
    if g.opened fd = some pin then
      if n.val = buf.length then g.given buf else g.refuse
    else g
  | g, .write fd _, .error _ => if g.opened fd = some pin then g.refuse else g
  | g, .errno, code => { g with unreported := g.unreported || g.refused && decide (code = 0) }
  | g, .close fd, _ => { g with opened := Function.update g.opened fd none }
  | g, _, _ => g

/-- The pin is low, as far as `set_gpio` can tell. -/
def Lowered (g : PinGuard) : Prop := g.low = true ∨ g.unreported = true

/-- Nothing is erased, and nothing but the pin is written, unless the pin is low or an attempt to
set it has written nothing without an error. -/
def allows (pin : CString) (g : PinGuard) : SysCall → Prop
  | .memErase _ _ _ => g.Lowered
  | .write fd _ => g.opened fd = some pin ∨ g.Lowered
  | _ => True

/-- The pin is low only because an attempt to raise it failed. -/
def Settled (g : PinGuard) : Prop := g.low = true → g.refused = true

end PinGuard

def pinMonitor (pin : CString) : Monitor sysSig PinGuard where
  allows := PinGuard.allows pin
  next := PinGuard.next pin

/-- What neither erases nor writes. -/
def SysCall.stores : SysCall → Bool
  | .memErase _ _ _ | .write _ _ => true
  | _ => false

section

variable {g : PinGuard} {pin : CString}

theorem PinGuard.start_settled : PinGuard.start.Settled := fun h => by cases h

/-- An open leaves the pin as it is, or it fails. -/
theorem PinGuard.Settled.open (hg : g.Settled) (path : CString) (flags : OpenFlags)
    (r : Except Errno Fd) :
    ((pinMonitor pin).next g (.openFile path flags) r).Settled := by
  cases r with
  | ok fd => exact hg
  | error e =>
      show PinGuard.Settled (if path = pin then _ else _)
      split
      · exact fun _ => rfl
      · exact hg

/-- A call that stores nothing is no danger. -/
theorem monitored_of_not_stores {α : Type} {Q : α → Prop} {p : SysProg α}
    (hp : Confined (fun o => SysCall.stores o = false) Q p) (hg : g.Settled) :
    Monitored (pinMonitor pin) (fun g' a => g'.Settled ∧ Q a) p g := by
  refine hp.keeps (fun g o ho hg => ?_) hg
  cases o with
  | memErase fd start length => cases ho
  | write fd buf => cases ho
  | openFile path flags => exact ⟨trivial, fun r => hg.open path flags r⟩
  | close fd => exact ⟨trivial, fun _ => hg⟩
  | _ => exact ⟨trivial, fun _ => hg⟩

section

variable {fd : Fd} (hfd : g.opened fd = some pin)

include hfd

theorem PinGuard.next_write_all (value : Bool)
    (n : {n : ℕ // n ≤ [if value then (49 : UInt8) else 48].length}) (hn : n.val = 1) :
    (pinMonitor pin).next g (.write fd [if value then 49 else 48]) (.ok n) =
      { g with low := !value, refused := false, unreported := false } := by
  show (if g.opened fd = some pin then if n.val = 1 then g.given _ else g.refuse else g) = _
  rw [if_pos hfd, if_pos hn]
  cases value <;> rfl

theorem PinGuard.next_write_short {buf : Bytes} (n : {n : ℕ // n ≤ buf.length})
    (hn : n.val ≠ buf.length) : (pinMonitor pin).next g (.write fd buf) (.ok n) = g.refuse := by
  show (if g.opened fd = some pin then if n.val = buf.length then _ else g.refuse else g) = _
  rw [if_pos hfd, if_neg hn]

theorem PinGuard.next_write_error (buf : Bytes) (e : Errno) :
    (pinMonitor pin).next g (.write fd buf) (.error e) = g.refuse := by
  show (if g.opened fd = some pin then g.refuse else g) = _
  rw [if_pos hfd]

end

/-- The pin is given the value, or the attempt fails; that is an error, unless nothing was written
and `errno` is 0. -/
theorem monitored_setGpio (value : Bool) :
    Monitored (pinMonitor pin)
      (fun g' r => g'.low = !value ∧ g'.refused = false ∨
        g'.refused = true ∧ (r = .ok () → g'.unreported = true))
      (setGpio pin value) g := by
  refine ⟨trivial, fun _ => ⟨trivial, fun r => ?_⟩⟩
  cases r with
  | error e =>
      right
      refine ⟨?_, fun h => by cases h⟩
      show PinGuard.refused (if pin = pin then _ else _) = true
      rw [if_pos rfl]
      rfl
  | ok fd =>
      have hopened : Function.update g.opened fd (some pin) fd = some pin :=
        Function.update_self ..
      refine ⟨Or.inl hopened, fun r => ⟨trivial, fun _ => ?_⟩⟩
      cases r with
      | error e =>
          right
          rw [PinGuard.next_write_error hopened]
          exact ⟨rfl, fun h => by cases h⟩
      | ok n =>
          show Monitored _ _ (if n.val = 1 then _ else _) _
          by_cases hn : n.val = 1
          · rw [if_pos hn, PinGuard.next_write_all hopened value n hn]
            exact Or.inl ⟨rfl, rfl⟩
          · rw [if_neg hn, PinGuard.next_write_short hopened n hn]
            refine ⟨trivial, fun code => Or.inr ⟨rfl, fun h => ?_⟩⟩
            -- an error unless `errno` is 0
            by_cases hcode : 0 < code
            · rw [Sys.negErrno, dif_pos hcode] at h
              cases h
            · obtain rfl : code = 0 := Nat.eq_zero_of_not_pos hcode
              rfl

/-- An attempt to raise the pin settles it. -/
theorem monitored_raise :
    Monitored (pinMonitor pin) (fun g' _ => g'.Settled) (setWpGpio (some pin) true) g := by
  refine (monitored_setGpio true).mono fun g' r h => ?_
  intro hlow
  rcases h with ⟨hhigh, -⟩ | ⟨hrefused, -⟩
  · rw [hhigh] at hlow
    cases hlow
  · exact hrefused

/-- The partition is erased and written while the pin is lowered. -/
theorem monitored_eraseAndWrite (hlow : g.Lowered) (mtd : NvramMtd) (fd : Fd) (buf : Bytes) :
    Monitored (pinMonitor pin) (fun _ _ => True) (eraseAndWrite mtd fd buf) g := by
  have herase : Monitored (pinMonitor pin) (fun g' _ => g'.Lowered) (eraseMtd fd mtd.size) g := by
    unfold eraseMtd
    split
    · exact hlow
    · exact ⟨hlow, fun _ => hlow⟩
  refine ⟨trivial, fun _ => ?_⟩
  show Monitored _ _ (eraseMtd fd mtd.size >>= _) g
  refine monitored_seq herase fun g' r hlow' => ?_
  cases r with
  | error e => trivial
  | ok u =>
      refine ⟨trivial, fun _ => ⟨Or.inr hlow', fun r => ?_⟩⟩
      cases r with
      | error e => trivial
      | ok bytes => trivial

theorem monitored_nvramMtdWrite (hg : g.Settled) (mtd : NvramMtd) (buf : Bytes) :
    Monitored (pinMonitor pin) (fun g' _ => g'.Settled) (nvramMtdWrite mtd (some pin) buf) g := by
  refine ⟨trivial, fun r => ?_⟩
  cases r with
  | error e => exact hg.open mtd.path .wronly (.error e)
  | ok fd =>
      have hfinish : ∀ (r : Except Errno Unit) (g' : PinGuard),
          Monitored (pinMonitor pin) (fun g'' _ => g''.Settled) (do
            let _ ← setWpGpio (some pin) true
            Sys.close fd
            return r) g' :=
        fun r g' => monitored_seq monitored_raise fun g'' _ h => ⟨trivial, fun _ => h⟩
      show Monitored _ _ (setGpio pin false >>= _) _
      refine monitored_seq (monitored_setGpio false) fun g' r h => ?_
      cases r with
      | error e => exact hfinish (.error e) g'
      | ok u =>
          have hlow : g'.Lowered := by
            rcases h with ⟨hlow, -⟩ | ⟨-, hunreported⟩
            · exact Or.inl hlow
            · exact Or.inr (hunreported rfl)
          exact monitored_seq (monitored_eraseAndWrite hlow mtd fd buf) fun g'' r _ =>
            hfinish r g''

/-! ### Reads and inits of the mtd interface -/

theorem quiet_findMtdFrom (label : CString) (highest : ℤ) (rounds : ℕ) (i : ℤ) :
    Confined (fun o => SysCall.stores o = false) (fun _ => True)
      (findMtdFrom label highest rounds i) := by
  induction rounds generalizing i with
  | zero => trivial
  | succ rounds ih =>
      refine ⟨rfl, fun r => ?_⟩
      cases r with
      | error code => trivial
      | ok dev =>
          show Confined _ _ (if dev.name = label then _ else if i = highest then _ else _)
          split
          · trivial
          · split
            · trivial
            · exact ih (i + 1)

theorem quiet_findMtd (label : CString) :
    Confined (fun o => SysCall.stores o = false) (fun _ => True) (findMtd label) := by
  refine ⟨rfl, fun dev => ⟨rfl, fun info => ?_⟩⟩
  show Confined _ _ (if dev.isNone ∨ info.isNone then _ else _)
  split
  · trivial
  · refine ⟨rfl, fun r => ?_⟩
    cases r with
    | error code => trivial
    | ok u =>
        refine ⟨rfl, fun r => ?_⟩
        cases r with
        | error code => exact ⟨rfl, fun _ => trivial⟩
        | ok info =>
            show Confined _ _ (findMtdFrom label _ _ _ >>= _)
            exact confined_seq (quiet_findMtdFrom label _ _ _) fun r _ => ⟨rfl, fun _ => trivial⟩

/-- An init gives out handles with the pin. -/
theorem quiet_nvramMtdInit (gpio : Option CString) (label : CString) :
    Confined (fun o => SysCall.stores o = false) (fun r => ∀ data, r = .ok data → data.gpio = gpio)
      (nvramMtdInit gpio label) := by
  have hinit : Confined (fun o => SysCall.stores o = false) (fun _ => True) (initNvramMtd label) := by
    refine confined_seq (quiet_findMtd label) fun r _ => ?_
    cases r with
    | error e => trivial
    | ok found =>
        refine ⟨rfl, fun _ => ⟨rfl, fun mem => ?_⟩⟩
        cases mem with
        | none => trivial
        | some mem => trivial
  have herror : ∀ (e : Errno) (data : PrivData), (.error e : Except Errno PrivData) = .ok data →
      data.gpio = gpio := fun e data h => by cases h
  refine ⟨rfl, fun addr => ?_⟩
  cases addr with
  | none => exact herror enomem
  | some addr =>
      show Confined _ _ (initNvramMtd label >>= _)
      refine confined_seq hinit fun r _ => ?_
      have hdone : ∀ (mtd : NvramMtd) (data : PrivData),
          (.ok ⟨addr, some mtd, gpio⟩ : Except Errno PrivData) = .ok data → data.gpio = gpio := by
        intro mtd data h
        rw [← Except.ok.inj h]
      cases r with
      | error e => exact herror e
      | ok mtd =>
          cases gpio with
          | none => exact hdone mtd
          | some path => exact ⟨rfl, fun _ => hdone mtd⟩

theorem quiet_nvramMtdRead (mtd : NvramMtd) (n : ℕ) :
    Confined (fun o => SysCall.stores o = false) (fun _ => True) (nvramMtdRead mtd n) := by
  refine ⟨rfl, fun r => ?_⟩
  cases r with
  | error e => trivial
  | ok fd =>
      refine ⟨rfl, fun r => ⟨rfl, fun _ => ?_⟩⟩
      cases r with
      | error e => trivial
      | ok buf => trivial

end

end Nvram
