import Nvram.Program.Args
import Nvram.Library.Interleave

/-!
# What an invocation may touch

The calls of `main` under the lock are confined to the sections of the sides that the mode
names; a write goes to a section of the writable side and is issued only when some operation
changes a list.  The calls before and after touch no section, and the lockfile is touched
only around this part.
-/

namespace Nvram

open Effects Errno

/-- An operation that can change a list. -/
def Operation.Changes : Operation → Prop
  | .set _ _ => True
  | .del _ => True
  | _ => False

instance : (it : Operation) → Decidable it.Changes
  | .set _ _ => inferInstanceAs (Decidable True)
  | .del _ => inferInstanceAs (Decidable True)
  | .list => inferInstanceAs (Decidable False)
  | .get _ => inferInstanceAs (Decidable False)

/-- One that only reads. -/
def Operation.Shows : Operation → Prop
  | .list => True
  | .get _ => True
  | _ => False

instance (it : Operation) : Decidable it.Shows := by
  cases it <;> unfold Operation.Shows <;> infer_instance

theorem Operation.shows_of_not_changes {it : Operation} (h : ¬ it.Changes) : it.Shows := by
  cases it with
  | list => trivial
  | get key => trivial
  | set key value => exact h trivial
  | del key => exact h trivial

/-- A call that touches neither a section nor the lockfile. -/
def Call.Local (o : Call) : Prop :=
  o.interface? = none ∧ o.path? = none ∧ o.isLock = false ∧ o.isWrite = false

theorem Call.Inner.local {o : Call} (h : o.Inner) : o.Local :=
  ⟨h.1, h.2.1, h.2.2.1, h.2.2.2.2⟩

@[simp] theorem Call.local_print (text : Bytes) : (Call.print text).Local := ⟨rfl, rfl, rfl, rfl⟩

/-- The sections of an invocation: those it may read, whether it writes, and those it may
write. -/
structure Footprint where
  interface : Interface
  readable : CString → Prop
  writes : Prop
  writable : CString → Prop

namespace Footprint

def Admits (fp : Footprint) (o : Call) : Prop :=
  (∀ j, o.interface? = some j → j = fp.interface) ∧
    (∀ path, o.path? = some path → fp.readable path) ∧
    (o.isWrite = true → fp.writes ∧ ∀ path, o.path? = some path → fp.writable path) ∧
    o.isLock = false

variable {fp : Footprint} {o : Call} {paths : CString → Prop}

theorem admits_local (h : o.Local) : fp.Admits o := by
  obtain ⟨hi, hpath, hlock, hwrite⟩ := h
  exact ⟨by simp [hi], by simp [hpath], by simp [hwrite], hlock⟩

theorem admits_reads (h : o.Reads fp.interface paths) (hread : ∀ p, paths p → fp.readable p) :
    fp.Admits o := by
  obtain ⟨⟨hi, hpath, hlock, _⟩, hwrite⟩ := h
  exact ⟨hi, fun path hp => hread path (hpath path hp), by simp [hwrite], hlock⟩

theorem admits_within (h : o.Within fp.interface paths) (hread : ∀ p, paths p → fp.readable p)
    (hwrites : fp.writes) (hwrite : ∀ p, paths p → fp.writable p) : fp.Admits o := by
  obtain ⟨hi, hpath, hlock, _⟩ := h
  exact ⟨hi, fun path hp => hread path (hpath path hp),
    fun _ => ⟨hwrites, fun path hp => hwrite path (hpath path hp)⟩, hlock⟩

end Footprint

/-- The sections of one side. -/
def OfSide (sectionA sectionB : Option CString) (path : CString) : Prop :=
  path ∈ sectionA ∨ path ∈ sectionB

section

variable (cfg : BuildConfig) (env : Environ) (interfaceName : CString) (opts : Opts)

def SystemSection : CString → Prop :=
  OfSide (resolveSection cfg env interfaceName opts.systemAOverride .systemA)
    (resolveSection cfg env interfaceName opts.systemBOverride .systemB)

def UserSection : CString → Prop :=
  OfSide (resolveSection cfg env interfaceName opts.userAOverride .userA)
    (resolveSection cfg env interfaceName opts.userBOverride .userB)

/-- The system sections of a mode that has a system side. -/
def SystemReach (path : CString) : Prop :=
  (opts.mode.systemWrite || opts.mode.systemRead) = true ∧
    SystemSection cfg env interfaceName opts path

/-- The user sections of a mode that has a user side. -/
def UserReach (path : CString) : Prop :=
  (opts.mode.userWrite || opts.mode.userRead) = true ∧
    UserSection cfg env interfaceName opts path

/-- The footprint of a mode on a batch of operations. -/
def footprint (interface : Interface) : Footprint where
  interface := interface
  readable path :=
    SystemReach cfg env interfaceName opts path ∨ UserReach cfg env interfaceName opts path
  writes := ∃ it ∈ opts.operations, it.Changes
  writable path :=
    (opts.mode.systemWrite = true ∧ SystemReach cfg env interfaceName opts path) ∨
      (opts.mode.systemWrite = false ∧ opts.mode.userWrite = true ∧
        UserReach cfg env interfaceName opts path)

end

/-! ### Operations -/

theorem local_printArrU8 (data : Bytes) :
    Confined Call.Local (fun _ => True) (printArrU8 data) := by
  unfold printArrU8
  split
  · exact ⟨Call.local_print _, fun _ => trivial⟩
  · exact ⟨Call.local_print _, fun _ => trivial⟩

theorem printEntry_eq (entry : Entry) (opts : PrintOptions) :
    printEntry entry opts =
      if intMax < entry.key.length ∨ intMax < entry.value.length then
        pure (.error Errno.einval)
      else if ¬ opts.key ∧ ¬ opts.value then pure (.error Errno.einval)
      else do
        let _ ← (if opts.key then printArrU8 entry.key else pure ())
        let _ ← (if opts.key ∧ opts.value then print [equals] else pure ())
        let _ ← (if opts.value then printArrU8 entry.value else pure ())
        print [newline]
        return .ok () := by
  obtain ⟨key, value⟩ := opts
  unfold printEntry
  cases key <;> cases value <;> rfl

theorem local_printEntry (entry : Entry) (opts : PrintOptions) :
    Confined Call.Local (fun _ => True) (printEntry entry opts) := by
  have hwhen : ∀ (b : Prop) [Decidable b] (p : NProg Unit),
      Confined Call.Local (fun _ => True) p →
      Confined Call.Local (fun _ => True) (if b then p else pure ()) := by
    intro b _ p hp
    split
    · exact hp
    · trivial
  rw [printEntry_eq]
  split
  · trivial
  · split
    · trivial
    · refine confined_seq (hwhen _ _ (local_printArrU8 _)) fun _ _ => ?_
      refine confined_seq (hwhen _ _ ⟨Call.local_print _, fun _ => trivial⟩) fun _ _ => ?_
      refine confined_seq (hwhen _ _ (local_printArrU8 _)) fun _ _ => ?_
      exact ⟨Call.local_print _, fun _ => trivial⟩

theorem local_printList (listName : String) (list : List Entry) :
    Confined Call.Local (fun _ => True) (printList listName list) := by
  simp only [printList, prDbg_bind]
  refine ⟨(Call.inner_printDebug _ _).local, fun _ => ?_⟩
  induction list with
  | nil => trivial
  | cons entry list ih => exact confined_seq (local_printEntry entry _) fun _ _ => ih

section

variable (lib : Libnvram) (mode : Mode)

theorem local_printListEntry (listName : String) (list : List Entry) (key : CString) :
    Confined Call.Local (fun _ => True) (printListEntry lib listName list key) := by
  simp only [printListEntry, prDbg_bind]
  refine ⟨(Call.inner_printDebug _ _).local, fun _ => ?_⟩
  split
  · trivial
  · exact local_printEntry _ _

theorem inner_addListEntry (listName : String) (list : List Entry) (key value : CString) :
    Confined Call.Inner (fun _ => True) (addListEntry lib listName list key value) := by
  simp only [addListEntry, prDbg_bind]
  refine ⟨Call.inner_printDebug _ _, fun _ => ?_⟩
  split
  · trivial
  · refine ⟨Call.inner_listSet _ _, fun r => ?_⟩
    cases r with
    | error e => exact ⟨Call.inner_fprintfStderr _ _, fun _ => trivial⟩
    | ok list => trivial

theorem inner_removeListEntry (listName : String) (list : List Entry) (key : CString) :
    Confined Call.Inner (fun _ => True) (removeListEntry lib listName list key) :=
  ⟨Call.inner_printDebug _ _, fun _ => trivial⟩

theorem execList_eq (st : ExecState) :
    execList mode st = (do
      let _ ← (if mode.systemRead then printList "system" st.listSystem else pure ())
      let _ ← (if mode.userRead then printList "user" st.listUser else pure ())
      return .ok st) := by
  unfold execList
  cases mode.systemRead <;> cases mode.userRead <;> rfl

theorem local_execList (st : ExecState) :
    Confined Call.Local (fun r => r = .ok st) (execList mode st) := by
  have hwhen : ∀ (b : Bool) (listName : String) (list : List Entry),
      Confined Call.Local (fun _ => True) (if b then printList listName list else pure ()) := by
    intro b listName list
    cases b with
    | true => exact local_printList listName list
    | false => trivial
  rw [execList_eq]
  exact confined_seq (hwhen _ _ _) fun _ _ => confined_seq (hwhen _ _ _) fun _ _ => rfl

theorem execGet_eq (key : CString) (st : ExecState) :
    execGet lib mode key st = ((if mode.systemRead then printListEntry lib "system" st.listSystem key
        else pure (.error Errno.enoent)) >>= fun r =>
      (match r with
        | .ok () => pure r
        | .error _ =>
          if mode.userRead then printListEntry lib "user" st.listUser key else pure r) >>= fun r =>
      match r with
      | .ok () => return .ok st
      | .error e => do
        prDbg "key not found: %s\n" [.str key]
        return .error e) := by
  unfold execGet
  cases mode.systemRead
  · cases mode.userRead <;> rfl
  · refine bind_congr fun r => ?_
    cases r with
    | ok u => rfl
    | error e => cases mode.userRead <;> rfl

theorem local_execGet (key : CString) (st : ExecState) :
    Confined Call.Local (fun r => ∀ st', r = .ok st' → st' = st) (execGet lib mode key st) := by
  have hlook : ∀ (b : Bool) (listName : String) (list : List Entry) (r : Except Errno Unit),
      Confined Call.Local (fun _ => True)
        (if b then printListEntry lib listName list key else pure r) := by
    intro b listName list r
    cases b with
    | true => exact local_printListEntry lib listName list key
    | false => trivial
  rw [execGet_eq]
  refine confined_seq (hlook _ _ _ _) fun r _ => ?_
  have hsecond : Confined Call.Local (fun _ => True) (match r with
      | .ok () => pure r
      | .error _ =>
        if mode.userRead then printListEntry lib "user" st.listUser key else pure r) := by
    cases r with
    | ok u => trivial
    | error e => exact hlook _ _ _ _
  refine confined_seq hsecond fun r _ => ?_
  cases r with
  | ok u =>
      intro st' h
      cases h
      rfl
  | error e =>
      refine ⟨(Call.inner_printDebug _ _).local, fun _ st' h => ?_⟩
      cases h

/-- What a set or a delete that does something leaves. -/
structure Wrote (st st' : ExecState) : Prop where
  performed : st'.writePerformed = true
  side : (mode.systemWrite = true ∧ st'.listUser = st.listUser) ∨
    (mode.systemWrite = false ∧ mode.userWrite = true ∧ st'.listSystem = st.listSystem)

variable {mode} in
/-- The part of `set` on one list. -/
theorem inner_addition (listName : String) (list : List Entry) (key value : CString)
    {st : ExecState} {put : List Entry → ExecState} (hwrote : ∀ list, Wrote mode st (put list)) :
    Confined Call.Inner (fun r => ∀ st', r = .ok st' → st' = st ∨ Wrote mode st st') (do
      match ← addListEntry lib listName list key value with
      | .error r => return .error r
      | .ok none => return .ok st
      | .ok (some list) =>
        prDbg "written\n" []
        return (.ok (put list) : Except Errno ExecState)) := by
  refine confined_seq (inner_addListEntry lib _ _ _ _) fun r _ => ?_
  rcases r with e | (_ | list)
  · exact fun _ h => by cases h
  · intro st' h
    cases h
    exact Or.inl rfl
  · refine ⟨Call.inner_printDebug _ _, fun _ st' h => ?_⟩
    cases h
    exact Or.inr (hwrote list)

theorem inner_execSet (key value : CString) (st : ExecState) :
    Confined Call.Inner (fun r => ∀ st', r = .ok st' → st' = st ∨ Wrote mode st st')
      (execSet lib mode key value st) := by
  unfold execSet
  split
  · rename_i hsw
    have hwrote : ∀ list, Wrote mode st { st with listSystem := list, writePerformed := true } :=
      fun _ => ⟨rfl, Or.inl ⟨hsw, rfl⟩⟩
    exact inner_addition lib _ _ key value hwrote
  · rename_i hsw
    split
    · rename_i huw
      have hwrote : ∀ list, Wrote mode st { st with listUser := list, writePerformed := true } :=
        fun _ => ⟨rfl, Or.inr ⟨by simpa using hsw, huw, rfl⟩⟩
      exact inner_addition lib _ _ key value hwrote
    · exact fun _ h => by cases h

variable {mode} in
/-- The part of `delete` on one list. -/
theorem inner_removal (listName : String) (list : List Entry) (key : CString)
    {st : ExecState} {put : List Entry → ExecState} (hwrote : ∀ list, Wrote mode st (put list)) :
    Confined Call.Inner (fun r => ∀ st', r = .ok st' → st' = st ∨ Wrote mode st st') (do
      match ← removeListEntry lib listName list key with
      | none => return .ok st
      | some list =>
        prDbg "deleted\n" []
        return (.ok (put list) : Except Errno ExecState)) := by
  refine confined_seq (inner_removeListEntry lib _ _ _) fun r _ => ?_
  cases r with
  | none =>
      intro st' h
      cases h
      exact Or.inl rfl
  | some list =>
      refine ⟨Call.inner_printDebug _ _, fun _ st' h => ?_⟩
      cases h
      exact Or.inr (hwrote list)

theorem inner_execDel (key : CString) (st : ExecState) :
    Confined Call.Inner (fun r => ∀ st', r = .ok st' → st' = st ∨ Wrote mode st st')
      (execDel lib mode key st) := by
  unfold execDel
  split
  · rename_i hsw
    have hwrote : ∀ list, Wrote mode st { st with listSystem := list, writePerformed := true } :=
      fun _ => ⟨rfl, Or.inl ⟨hsw, rfl⟩⟩
    exact inner_removal lib _ _ key hwrote
  · rename_i hsw
    split
    · rename_i huw
      have hwrote : ∀ list, Wrote mode st { st with listUser := list, writePerformed := true } :=
        fun _ => ⟨rfl, Or.inr ⟨by simpa using hsw, huw, rfl⟩⟩
      exact inner_removal lib _ _ key hwrote
    · intro st' h
      cases h
      exact Or.inl rfl

/-- An operation touches no section.  It leaves the lists as they are, or it is one that
changes lists and has changed one of the writable side. -/
theorem local_execute (it : Operation) (st : ExecState) :
    Confined Call.Local (fun r => ∀ st', r = .ok st' → st' = st ∨ (it.Changes ∧ Wrote mode st st'))
      (it.execute lib mode st) := by
  cases it with
  | list =>
      refine (local_execList mode st).mono (fun _ ho => ho) ?_
      rintro _ rfl st' h
      cases h
      exact Or.inl rfl
  | get key =>
      exact (local_execGet lib mode key st).mono (fun _ ho => ho) fun r hr st' h =>
        Or.inl (hr st' h)
  | set key value =>
      exact (inner_execSet lib mode key value st).mono (fun _ ho => ho.local) fun r hr st' h =>
        (hr st' h).imp_right fun hwrote => ⟨trivial, hwrote⟩
  | del key =>
      exact (inner_execDel lib mode key st).mono (fun _ ho => ho.local) fun r hr st' h =>
        (hr st' h).imp_right fun hwrote => ⟨trivial, hwrote⟩

theorem local_executeEach (operations : List Operation) (st : ExecState) :
    Confined Call.Local (fun r => ∀ st', r = .ok st' → st'.writePerformed = true →
      st.writePerformed = true ∨ ∃ it ∈ operations, it.Changes)
      (executeEach lib mode operations st) := by
  induction operations generalizing st with
  | nil =>
      intro st' h hwritten
      cases h
      exact Or.inl hwritten
  | cons it ops ih =>
      refine confined_seq (local_execute lib mode it st) fun r hr => ?_
      cases r with
      | error e => exact fun _ h => by cases h
      | ok st₁ =>
          refine (ih st₁).mono (fun _ ho => ho) fun r hrest st' h hwritten => ?_
          rcases hrest st' h hwritten with hst₁ | ⟨it', hmem, hchanges⟩
          · rcases hr st₁ rfl with rfl | ⟨hchanges, _⟩
            · exact Or.inl hst₁
            · exact Or.inr ⟨it, List.mem_cons_self, hchanges⟩
          · exact Or.inr ⟨it', List.mem_cons_of_mem _ hmem, hchanges⟩

end

/-! ### Validation -/

section

variable (cfg : BuildConfig) (env : Environ) (mode : Mode)

/-- What the validation of one operation asks for. -/
def Operation.Permitted : Operation → Prop
  | .set key _ =>
    (mode.systemWrite = true →
      (sysPrefixEnforced cfg = true → startsWithSysPrefix cfg key = true) ∧
        systemUnlocked env = true) ∧
      (mode.userWrite = true →
        sysPrefixEnforced cfg = true → startsWithSysPrefix cfg key = false)
  | .del _ => mode.systemWrite = true → systemUnlocked env = true
  | _ => True

/-- What the validation of a batch asks for. -/
structure Accepted (operations : List Operation) : Prop where
  permitted : ∀ it ∈ operations, it.Permitted cfg env mode
  unmixed : ¬ ((∃ it ∈ operations, it.Shows) ∧ ∃ it ∈ operations, it.Changes)
  oneKind : ¬ (.list ∈ operations ∧ ∃ key, .get key ∈ operations)

variable {cfg env mode} in
/-- An accepted batch with a change consists of changes. -/
theorem Accepted.all_change {operations : List Operation} (h : Accepted cfg env mode operations)
    (hchanges : ∃ it ∈ operations, it.Changes) : ∀ it ∈ operations, it.Changes := by
  intro it hit
  by_contra hno
  exact h.unmixed ⟨⟨it, hit, Operation.shows_of_not_changes hno⟩, hchanges⟩

theorem inner_validateSet (key value : CString) :
    Confined Call.Inner
      (fun r => r = .ok () ↔ (Operation.set key value).Permitted cfg env mode)
      (validateSet cfg env key mode) := by
  unfold validateSet
  cases hs : mode.systemWrite <;> cases hu : mode.userWrite <;>
    cases hp : sysPrefixEnforced cfg <;> cases hk : startsWithSysPrefix cfg key <;>
    cases hl : systemUnlocked env <;>
    simp [Operation.Permitted, hs, hu, hp, hk, hl, confined_op]

theorem inner_validate (it : Operation) :
    Confined Call.Inner (fun r => r = .ok () ↔ it.Permitted cfg env mode)
      (it.validate cfg env mode) := by
  cases it with
  | list => exact ⟨fun _ => trivial, fun _ => rfl⟩
  | get key => exact ⟨fun _ => trivial, fun _ => rfl⟩
  | set key value => exact inner_validateSet cfg env mode key value
  | del key =>
      simp only [Operation.validate, validateDel]
      cases hs : mode.systemWrite <;> cases hl : systemUnlocked env <;>
        simp [Operation.Permitted, hs, hl, confined_op]

theorem inner_validateEach (found : OpTypes) (operations : List Operation) :
    Confined Call.Inner (fun r => ∀ found', r = .ok found' ↔
        (∀ it ∈ operations, it.Permitted cfg env mode) ∧
          found' = operations.foldl OpTypes.add found)
      (validateEach cfg env mode found operations) := by
  induction operations generalizing found with
  | nil =>
      intro found'
      simp [eq_comm]
  | cons it ops ih =>
      simp only [validateEach, prDbg_bind]
      refine ⟨Call.inner_printDebug _ _, fun _ => ?_⟩
      refine confined_seq (inner_validate cfg env mode it) fun r hr => ?_
      cases r with
      | error e =>
          have hno : ¬ it.Permitted cfg env mode := fun h => by cases hr.mpr h
          intro found'
          simp [hno]
      | ok u =>
          refine (ih (found.add it)).mono (fun _ ho => ho) fun r hrest found' => ?_
          rw [hrest found', List.foldl_cons]
          simp [hr.mp rfl]

/-- The bits that the loop collects. -/
theorem foldl_add (operations : List Operation) (found : OpTypes) :
    let all := operations.foldl OpTypes.add found
    (all.get = true ∨ all.list = true ↔
        (found.get = true ∨ found.list = true) ∨ ∃ it ∈ operations, it.Shows) ∧
      (all.set = true ∨ all.del = true ↔
        (found.set = true ∨ found.del = true) ∨ ∃ it ∈ operations, it.Changes) ∧
      (all.list = true ↔ found.list = true ∨ .list ∈ operations) ∧
      (all.get = true ↔ found.get = true ∨ ∃ key, .get key ∈ operations) := by
  induction operations generalizing found with
  | nil => simp
  | cons it ops ih =>
      obtain ⟨hshows, hchanges, hlist, hget⟩ := ih (found.add it)
      simp only [List.foldl_cons]
      refine ⟨hshows.trans ?_, hchanges.trans ?_, hlist.trans ?_, hget.trans ?_⟩ <;>
        cases it <;> simp [OpTypes.add, Operation.Shows, Operation.Changes]

theorem inner_validateOperations (operations : List Operation) :
    Confined Call.Inner (fun r => r = .ok () ↔ Accepted cfg env mode operations)
      (validateOperations cfg env mode operations) := by
  unfold validateOperations
  refine confined_seq (inner_validateEach cfg env mode _ operations) fun r hr => ?_
  cases r with
  | error e =>
      have hno : ¬ ∀ it ∈ operations, it.Permitted cfg env mode := fun h => by
        cases (hr _).mpr ⟨h, rfl⟩
      exact ⟨fun h => (by cases h), fun h => absurd h.permitted hno⟩
  | ok found =>
      obtain ⟨hpermitted, hfound⟩ := (hr found).mp rfl
      have hbits := foldl_add operations ⟨false, false, false, false⟩
      rw [← hfound] at hbits
      simp only [Bool.false_eq_true, false_or, or_self] at hbits
      obtain ⟨hshows, hchanges, hlist, hget⟩ := hbits
      dsimp only
      split
      · rename_i hmixed
        rw [hshows, hchanges] at hmixed
        refine ⟨Call.inner_fprintfStderr _ _, fun _ => ?_⟩
        exact ⟨fun h => (by cases h), fun h => absurd hmixed h.unmixed⟩
      · rename_i hunmixed
        rw [hshows, hchanges] at hunmixed
        split
        · rename_i hboth
          rw [hlist, hget] at hboth
          refine ⟨Call.inner_fprintfStderr _ _, fun _ => ?_⟩
          exact ⟨fun h => (by cases h), fun h => absurd hboth h.oneKind⟩
        · rename_i hone
          rw [hlist, hget] at hone
          exact ⟨fun _ => ⟨hpermitted, hunmixed, hone⟩, fun _ => rfl⟩

end

/-! ### Under the lock -/

section

variable (lib : Libnvram) (cfg : BuildConfig) (env : Environ) (interfaceName : CString)
  (opts : Opts) (interface : Interface) {format : NvramFormat} (F : format.Frame)

/-- Besides the commit itself there is only an error message. -/
theorem confined_commitList {P : Call → Prop} (hinner : ∀ o, Call.Inner o → P o)
    {nvram : Option format.StructNvram} {list : List Entry}
    (hcommit : ∀ n ∈ nvram, Confined P (fun _ => True) (format.commit n list)) :
    Confined P (fun _ => True) (commitList format nvram list) := by
  cases nvram with
  | none => trivial
  | some nvram =>
      refine confined_seq (hcommit nvram rfl) fun r _ => ?_
      obtain ⟨r, nvram'⟩ := r
      cases r with
      | error e => exact ⟨hinner _ (Call.inner_fprintfStderr _ _), fun _ => trivial⟩
      | ok u => trivial

theorem within_commitList {i : Interface} {paths : CString → Prop}
    {nvram : Option format.StructNvram} (h : ∀ n ∈ nvram, F.On i paths n) (list : List Entry) :
    Confined (Call.Within i paths) (fun _ => True) (commitList format nvram list) :=
  confined_commitList (fun _ ho => ho.reads.1) fun n hn => F.commit i paths n list (h n hn)

theorem reads_initSide {i : Interface} {sectionA sectionB : Option CString} (wanted : Bool)
    (labelA labelB : String) :
    Confined (Call.Reads i fun p => wanted = true ∧ OfSide sectionA sectionB p)
      (fun r => ∀ nvram list, r = .ok (nvram, list) →
        ∀ n ∈ nvram, F.On i (fun p => wanted = true ∧ OfSide sectionA sectionB p) n)
      (initSide format i wanted labelA labelB sectionA sectionB) := by
  cases wanted with
  | false =>
      intro nvram list h n hn
      cases h
      cases hn
  | true =>
      rw [initSide, if_pos rfl, prDbg_bind]
      refine ⟨(Call.inner_printDebug _ _).reads, fun _ => ?_⟩
      rw [prDbg_bind]
      refine ⟨(Call.inner_printDebug _ _).reads, fun _ => ?_⟩
      have hA : ∀ p ∈ sectionA, true = true ∧ OfSide sectionA sectionB p :=
        fun p hp => ⟨rfl, Or.inl hp⟩
      have hB : ∀ p ∈ sectionB, true = true ∧ OfSide sectionA sectionB p :=
        fun p hp => ⟨rfl, Or.inr hp⟩
      refine confined_seq (F.init i _ sectionA sectionB hA hB) fun r hr => ?_
      cases r with
      | error e => exact fun _ _ h => by cases h
      | ok both =>
          intro nvram list h n hn
          cases h
          cases hn
          exact hr _ _ rfl

variable {nvramSystem nvramUser : Option format.StructNvram}

theorem admits_executeOperations
    (hsystem : ∀ n ∈ nvramSystem, F.On interface (SystemReach cfg env interfaceName opts) n)
    (huser : ∀ n ∈ nvramUser, F.On interface (UserReach cfg env interfaceName opts) n)
    (listSystem listUser : List Entry) :
    Confined (footprint cfg env interfaceName opts interface).Admits (fun _ => True)
      (executeOperations lib opts.mode format opts.operations nvramSystem listSystem
        nvramUser listUser) := by
  unfold executeOperations
  have hexecute := local_executeEach lib opts.mode opts.operations ⟨listSystem, listUser, false⟩
  refine confined_seq (hexecute.mono (fun _ h => Footprint.admits_local h) fun _ h => h)
    fun r hr => ?_
  cases r with
  | error e => trivial
  | ok st =>
      dsimp only
      split
      · rename_i hwritten
        have hwrites : (footprint cfg env interfaceName opts interface).writes :=
          (hr st rfl hwritten).resolve_left (by simp)
        refine ⟨Footprint.admits_local (Call.inner_printDebug _ _).local, fun _ => ?_⟩
        split
        · rename_i hsw
          exact (within_commitList F hsystem _).mono (fun _ h => Footprint.admits_within h
            (fun _ hp => Or.inl hp) hwrites fun _ hp => Or.inl ⟨hsw, hp⟩) fun _ _ => trivial
        · rename_i hsw
          split
          · rename_i huw
            exact (within_commitList F huser _).mono (fun _ h => Footprint.admits_within h
              (fun _ hp => Or.inr hp) hwrites
              fun _ hp => Or.inr ⟨by simpa using hsw, huw, hp⟩) fun _ _ => trivial
          · trivial
      · trivial

/-- The part under the lock stays in the footprint, and so do the handles it leaves. -/
theorem admits_withLock :
    Confined (footprint cfg env interfaceName opts interface).Admits
      (fun done => (∀ n ∈ done.nvramSystem,
          F.On interface (SystemReach cfg env interfaceName opts) n) ∧
        ∀ n ∈ done.nvramUser, F.On interface (UserReach cfg env interfaceName opts) n)
      (withLock lib cfg env format interface interfaceName opts) := by
  unfold withLock
  refine confined_seq ((reads_initSide F _ _ _).mono
    (fun _ h => Footprint.admits_reads h fun _ hp => Or.inl hp) fun _ h => h) fun r hr => ?_
  cases r with
  | error e => exact ⟨fun _ h => (by cases h), fun _ h => (by cases h)⟩
  | ok system =>
      obtain ⟨nvramSystem, listSystem⟩ := system
      have hsystem := hr nvramSystem listSystem rfl
      refine confined_seq ((reads_initSide F _ _ _).mono
        (fun _ h => Footprint.admits_reads h fun _ hp => Or.inr hp) fun _ h => h) fun r hr => ?_
      cases r with
      | error e => exact ⟨hsystem, fun _ h => (by cases h)⟩
      | ok user =>
          obtain ⟨nvramUser, listUser⟩ := user
          have huser := hr nvramUser listUser rfl
          exact confined_seq (admits_executeOperations lib cfg env interfaceName opts interface F
            hsystem huser listSystem listUser) fun _ _ => ⟨hsystem, huser⟩

/-- Closing the handles that are left stays in the footprint. -/
theorem admits_closes {done : AtExit format}
    (hsystem : ∀ n ∈ done.nvramSystem, F.On interface (SystemReach cfg env interfaceName opts) n)
    (huser : ∀ n ∈ done.nvramUser, F.On interface (UserReach cfg env interfaceName opts) n)
    (r : Except Errno Unit) :
    Confined (footprint cfg env interfaceName opts interface).Admits (fun _ => True) (do
      format.close done.nvramSystem
      format.close done.nvramUser
      return r) := by
  refine confined_seq ((F.close _ _ _ hsystem).mono
    (fun _ h => Footprint.admits_reads h fun _ hp => Or.inl hp) fun _ h => h) fun _ _ => ?_
  exact confined_seq ((F.close _ _ _ huser).mono
    (fun _ h => Footprint.admits_reads h fun _ hp => Or.inr hp) fun _ h => h) fun _ _ => trivial

end

/-! ### The lock and the exit -/

/-- The loop asks for the lock, closes the descriptor and logs. -/
theorem confined_acquireRetry {P : Call → Prop} {fd : Fd} (hinner : ∀ o, Call.Inner o → P o)
    (hflock : P (.flock fd)) (hclose : P (.close fd)) (path : CString) (retries : ℕ) :
    Confined P (fun _ => True) (acquireRetry path fd retries) := by
  have hlog : ∀ (args : List Arg) (e : Errno), Confined P (fun _ => True) (do
      prErr "failed locking lockfile: %s [%d]: %s\n" args
      let _ ← close fd
      return (.error e : Except Errno Fd)) :=
    fun args e => ⟨hinner _ (Call.inner_fprintfStderr _ _), fun _ => ⟨hclose, fun _ => trivial⟩⟩
  induction retries with
  | zero => exact ⟨hinner _ (Call.inner_printDebug _ _), fun _ => trivial⟩
  | succ n ih =>
      rw [acquireRetry, flock_bind]
      refine ⟨hflock, fun r => ?_⟩
      cases r with
      | ok u => exact ⟨hinner _ (Call.inner_printDebug _ _), fun _ => trivial⟩
      | error e =>
          dsimp only
          split
          · exact hlog _ e
          · split
            · exact hlog _ etimedout
            · exact ⟨hinner _ (Call.inner_usleep _), fun _ => ih⟩

/-- Without a lock the release says so and keeps what was returned before. -/
theorem inner_exitRelease (r : Except Errno Unit) :
    Confined Call.Inner (fun r' => r' = r) (exitRelease r none) := by
  refine ⟨Call.inner_printDebug _ _, fun _ => ?_⟩
  cases r <;> rfl

/-- The exit of `main` where the options were not read to the end. -/
theorem inner_exitEarly (e : Errno) : Confined Call.Inner (fun c => c = exitStatus (.error e))
    (do return exitStatus (← exitRelease (.error e) none)) := by
  refine confined_seq (inner_exitRelease (.error e)) fun r hr => ?_
  exact congrArg exitStatus hr

/-- The exit of `main` for an interface or a format that is not there. -/
theorem inner_exitUnresolved (fmt : String) (args : List Arg) :
    Confined Call.Inner (fun r => r = .error einval) (do
      fprintfStderr fmt args
      exitRelease (.error einval) none) :=
  ⟨Call.inner_fprintfStderr _ _, fun _ => inner_exitRelease (.error einval)⟩

/-- The release leaves an error from before as it is, and without a lock it does not fail. -/
theorem confined_exitRelease {P : Call → Prop} (hinner : ∀ o, Call.Inner o → P o)
    (hclose : ∀ fd, P (.close fd)) (hunlink : ∀ path, P (.unlink path)) (r : Except Errno Unit)
    (fdLock : Option Fd) :
    Confined P (fun r' => (r' = .ok () → r = .ok ()) ∧ (fdLock = none → r' = r))
      (exitRelease r fdLock) := by
  refine confined_seq (R := fun lockRet => fdLock = none → lockRet = .ok ()) ?_
    fun lockRet hret => ?_
  · cases fdLock with
    | none => exact ⟨hinner _ (Call.inner_printDebug _ _), fun _ _ => rfl⟩
    | some fd =>
        rw [releaseLockfile, close_bind]
        refine ⟨hclose fd, fun r => ?_⟩
        cases r with
        | error e => exact ⟨hinner _ (Call.inner_fprintfStderr _ _), fun _ h => (by cases h)⟩
        | ok u =>
            refine ⟨hunlink _, fun r => ?_⟩
            cases r with
            | error e => exact ⟨hinner _ (Call.inner_fprintfStderr _ _), fun _ h => (by cases h)⟩
            | ok u => exact ⟨hinner _ (Call.inner_printDebug _ _), fun _ h => (by cases h)⟩
  · cases r with
    | ok u => exact ⟨fun _ => rfl, hret⟩
    | error e => exact ⟨fun h => h, fun _ => rfl⟩

/-- The exit releases the lock and closes the handles that are left.  It returns 0 only if
nothing failed before, and without a lock what was returned before. -/
theorem confined_exitClose {format : NvramFormat} (F : format.Frame) (done : AtExit format)
    {interface : Interface} {P : Call → Prop} {paths paths' : CString → Prop}
    (hinner : ∀ o, Call.Inner o → P o) (hclose : ∀ fd, P (.close fd))
    (hunlink : ∀ path, P (.unlink path)) (hreads : ∀ o, Call.Reads interface paths o → P o)
    (hreads' : ∀ o, Call.Reads interface paths' o → P o)
    (hsystem : ∀ n ∈ done.nvramSystem, F.On interface paths n)
    (huser : ∀ n ∈ done.nvramUser, F.On interface paths' n) (fdLock : Option Fd) :
    Confined P (fun r => (r = .ok () → done.r = .ok ()) ∧ (fdLock = none → r = done.r))
      (exitClose format fdLock done) := by
  refine confined_seq (confined_exitRelease hinner hclose hunlink done.r fdLock) fun r hr => ?_
  refine confined_seq (R := fun _ => True) ((F.close _ _ _ hsystem).mono hreads fun _ _ => trivial)
    fun _ _ => ?_
  exact confined_seq (R := fun _ => True) ((F.close _ _ _ huser).mono hreads' fun _ _ => trivial)
    fun _ _ => hr

/-! ### The interface and the format of an invocation -/

/-- The name of the interface an invocation uses. -/
def interfaceNameOf (cfg : BuildConfig) (env : Environ) (opts : Opts) : CString :=
  opts.interfaceOverride.getD (getEnvStr env "NVRAM_INTERFACE" cfg.interfaceDefault)

/-- The name of the format an invocation uses. -/
def formatNameOf (cfg : BuildConfig) (env : Environ) (opts : Opts) : CString :=
  opts.formatOverride.getD (getEnvStr env "NVRAM_FORMAT" cfg.formatDefault)

/-- What `main` logs of a session. -/
def printResolved (interfaceName formatName : CString) (mode : Mode) : NProg Unit := do
  prDbg "interface: %s\n" [.str interfaceName]
  prDbg "format: %s\n" [.str formatName]
  prDbg "system_write: %s\n" [yesNo mode.systemWrite]
  prDbg "system_read: %s\n" [yesNo mode.systemRead]
  prDbg "user_write: %s\n" [yesNo mode.userWrite]
  prDbg "user_read: %s\n" [yesNo mode.userRead]

theorem inner_printResolved (interfaceName formatName : CString) (mode : Mode) :
    Confined Call.Inner (fun _ => True) (printResolved interfaceName formatName mode) := by
  unfold printResolved
  iterate 5
    rw [prDbg_bind]
    refine ⟨Call.inner_printDebug _ _, fun _ => ?_⟩
  exact ⟨Call.inner_printDebug _ _, fun _ => trivial⟩

/-- The start of `main`. -/
def enableDebugOf (env : Environ) : NProg Unit :=
  if getEnvLong env "NVRAM_DEBUG" ≠ 0 then enableDebug else pure ()

theorem inner_enableDebugOf (env : Environ) :
    Confined Call.Inner (fun _ => True) (enableDebugOf env) := by
  unfold enableDebugOf
  split
  · exact ⟨Call.inner_enableDebug, fun _ => trivial⟩
  · trivial

section

variable {lib : Libnvram} {crc32 : Bytes → UInt32} {cfg : BuildConfig} {env : Environ}
  {M : Type} {mon : Monitor callSig M} {m : M} {Q : M → Prop}

theorem exitStatus_eq_zero_iff {r : Except Errno Unit} : exitStatus r = 0 ↔ r = .ok () := by
  cases r with
  | ok u => exact iff_of_true rfl rfl
  | error e => exact iff_of_false e.pos.ne' fun h => by cases h

theorem session_eq (format : NvramFormat) (interface : Interface)
    (interfaceName formatName : CString) (opts : Opts) :
    session lib cfg env format interface interfaceName formatName opts = (do
      printResolved interfaceName formatName opts.mode
      match ← validateOperations cfg env opts.mode opts.operations with
      | .error r => exitClose format none ⟨.error r, none, none⟩
      | .ok () =>
        match ← acquireLockfile NVRAM_LOCKFILE with
        | .error _ => exitClose format none ⟨.ok (), none, none⟩
        | .ok fdLock =>
          exitClose format (some fdLock)
            (← withLock lib cfg env format interface interfaceName opts)) := rfl

theorem main_eq (args : List CString) : main lib crc32 cfg env args = (do
    enableDebugOf env
    match ← parseArgs cfg env Opts.initial args with
    | .error r => return exitStatus (← exitRelease (.error r) none)
    | .ok opts =>
      match ← defaultOperation opts with
      | .error r => return exitStatus (← exitRelease (.error r) none)
      | .ok opts => return exitStatus (← resolveAndRun lib crc32 cfg env opts)) := by
  unfold main enableDebugOf
  split <;> rfl

/-- Before the options select an interface and a format nothing happens that a monitor which
overlooks the inner calls could notice. -/
theorem monitored_main_of_session {args : List CString}
    (hinner : ∀ o, Call.Inner o → mon.allows m o ∧ ∀ r, mon.next m o r = m) (hm : Q m)
    (hsession : ∀ items interface format, commandLine args = some items →
      nvramGetInterface cfg (interfaceNameOf cfg env (finalOpts items)) = some interface →
      nvramGetFormat lib crc32 cfg (formatNameOf cfg env (finalOpts items)) = some format →
      Monitored mon (fun m _ => Q m) (session lib cfg env format interface
        (interfaceNameOf cfg env (finalOpts items)) (formatNameOf cfg env (finalOpts items))
        (finalOpts items)) m) :
    Monitored mon (fun m _ => Q m) (main lib crc32 cfg env args) m := by
  have hquiet : ∀ {α : Type} {p : NProg α} {R : α → Prop}, Confined Call.Inner R p →
      Monitored mon (fun m' a => m' = m ∧ R a) p m := fun hp => hp.monitored hinner
  have hstatus : ∀ (e : Errno), Monitored mon (fun m _ => Q m)
      (do return exitStatus (← exitRelease (.error e) none)) m := by
    intro e
    exact (hquiet (inner_exitEarly e)).mono fun _ _ h => h.1 ▸ hm
  have hrefused : ∀ (fmt : String) (args : List Arg), Monitored mon (fun m _ => Q m) (do
      fprintfStderr fmt args
      exitRelease (.error einval) none) m := by
    intro fmt args
    exact (hquiet (inner_exitUnresolved fmt args)).mono fun _ _ h => h.1 ▸ hm
  rw [main_eq]
  refine monitored_seq (hquiet (inner_enableDebugOf env)) fun m' _ h => ?_
  obtain ⟨rfl, -⟩ := h
  refine monitored_seq (hquiet (confined_parseArgs cfg env _ args)) fun m' r h => ?_
  obtain ⟨rfl, hr⟩ := h
  cases r with
  | error e => exact hstatus e
  | ok opts =>
      obtain ⟨items, hitems, rfl⟩ := hr opts rfl
      refine monitored_seq (hquiet (confined_defaultOperation items)) fun m' r h => ?_
      obtain ⟨rfl, hr⟩ := h
      rcases hr with ⟨e, rfl⟩ | rfl
      · exact hstatus e
      · refine monitored_seq (R := fun m _ => Q m) ?_ fun _ _ h => h
        unfold resolveAndRun
        dsimp only
        split
        · exact hrefused _ _
        · rename_i interface hinterface
          split
          · exact hrefused _ _
          · rename_i format hformat
            exact hsession items interface format hitems hinterface hformat

end

end Nvram
