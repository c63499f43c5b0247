import Nvram.Program.Invocation
import Nvram.Program.Batch
import Nvram.Format.Handles
import Nvram.V2.Commit

/-!
# The section handles of an invocation

`main` opens at most the handles of two sides and passes them on to the format.  At the exit
it closes both sides, so that every handle is destroyed once.  The one way to a call without
a handle is a commit on a side that opened nothing: it takes the v2 format, a written side
with neither section configured, and a batch that sets something, since a delete from the
empty list changes nothing.
-/

namespace Nvram

open Effects Errno

/-! ### A batch without a set -/

section

variable {lib : Libnvram} {mode : Mode}

/-- Removing from an empty list leaves the state. -/
theorem local_removal_nil (hremove : ∀ key, lib.listRemove [] key = none) (listName : String)
    {list : List Entry} (key : CString) (st : ExecState) (put : List Entry → ExecState)
    (hlist : list = []) :
    Confined Call.Local (fun r => ∀ st', r = .ok st' → st' = st) (do
      match ← removeListEntry lib listName list key with
      | none => return .ok st
      | some list =>
        prDbg "deleted\n" []
        return (.ok (put list) : Except Errno ExecState)) := by
  subst hlist
  refine ⟨(Call.inner_printDebug _ _).local, fun _ => ?_⟩
  rw [hremove]
  intro st' h
  cases h
  rfl

/-- Without a set, nothing happens to an empty list. -/
theorem local_execute_of_no_set (hremove : ∀ key, lib.listRemove [] key = none)
    {it : Operation} (hset : ∀ key value, it ≠ .set key value) {st : ExecState}
    (hside : st.side mode = []) :
    Confined Call.Local (fun r => ∀ st', r = .ok st' → st' = st) (it.execute lib mode st) := by
  cases it with
  | set key value => exact absurd rfl (hset key value)
  | get key => exact local_execGet lib mode key st
  | list =>
      refine (local_execList mode st).mono (fun _ h => h) fun r hr st' h => ?_
      rw [hr] at h
      cases h
      rfl
  | del key =>
      show Confined _ _ (execDel lib mode key st)
      unfold execDel
      unfold ExecState.side at hside
      split
      · rename_i hsystem
        rw [if_pos hsystem] at hside
        exact local_removal_nil hremove _ key st _ hside
      · rename_i hsystem
        rw [if_neg hsystem] at hside
        split
        · exact local_removal_nil hremove _ key st _ hside
        · intro st' h
          cases h
          rfl

theorem local_executeEach_of_no_set (hremove : ∀ key, lib.listRemove [] key = none)
    {operations : List Operation} (hset : ∀ key value, .set key value ∉ operations)
    {st : ExecState} (hside : st.side mode = []) :
    Confined Call.Local (fun r => ∀ st', r = .ok st' → st' = st)
      (executeEach lib mode operations st) := by
  induction operations with
  | nil =>
      intro st' h
      cases h
      rfl
  | cons it ops ih =>
      have hit : ∀ key value, it ≠ .set key value := by
        intro key value h
        exact hset key value (h ▸ List.mem_cons_self)
      refine confined_seq (local_execute_of_no_set hremove hit hside) fun r hr => ?_
      cases r with
      | error e => exact fun _ h => by cases h
      | ok st₁ =>
          obtain rfl := hr st₁ rfl
          exact ih fun key value h => hset key value (List.mem_cons_of_mem _ h)

end

/-! ### Under the lock -/

section

variable {lib : Libnvram} {cfg : BuildConfig} {env : Environ} {interfaceName : CString}
  {opts : Opts} {interface : Interface} {format : NvramFormat} (C : format.Custody)
  {live : Multiset OpenHandle}

/-- The handles of a side. -/
def NvramFormat.Custody.side (nvram : Option format.StructNvram) : Multiset OpenHandle :=
  nvram.elim 0 C.handles

theorem monitored_commitList {nvram : Option format.StructNvram}
    (hopened : ∀ n ∈ nvram, C.Opened n) (hlive : C.side nvram ≤ live) (list : List Entry) :
    Monitored handleMonitor (fun live' _ => live' = live) (commitList format nvram list) live := by
  cases nvram with
  | none => exact rfl
  | some nvram =>
      refine monitored_seq (C.commit nvram list live (hopened nvram rfl) hlive)
        fun live' r h => ?_
      obtain ⟨r, nvram'⟩ := r
      subst h
      cases r with
      | error e => exact ⟨trivial, fun _ => rfl⟩
      | ok u => exact rfl

/-- What a side holds after its init: a side that may be written has a handle to write through,
or its sections are not configured and its list is empty. -/
structure SideHolds (sections : Option CString × Option CString)
    (nvram : Option format.StructNvram) (list : List Entry) : Prop where
  usable : ∀ n ∈ nvram, C.Opened n ∨
    (C.Lazy ∧ emptySection sections.1 = true ∧ emptySection sections.2 = true)
  empty : ∀ n ∈ nvram, ¬ C.Opened n → list = []

theorem monitored_initSide (wanted : Bool) (labelA labelB : String)
    (sections : Option CString × Option CString) :
    Monitored handleMonitor
      (fun live' r => (∀ e, r = .error e → live' = live) ∧
        ∀ nvram list, r = .ok (nvram, list) → live' = C.side nvram + live ∧
          SideHolds C sections nvram list)
      (initSide format interface wanted labelA labelB sections.1 sections.2) live := by
  cases wanted with
  | false =>
      refine ⟨fun _ h => (by cases h), fun nvram list h => ?_⟩
      cases h
      exact ⟨(zero_add live).symm, fun _ h => (by cases h), fun _ h => (by cases h)⟩
  | true =>
      rw [initSide, if_pos rfl, prDbg_bind]
      refine ⟨trivial, fun _ => ?_⟩
      rw [prDbg_bind]
      refine ⟨trivial, fun _ => ?_⟩
      refine monitored_seq (C.init interface sections.1 sections.2 _) fun live' r h => ?_
      obtain ⟨hkeeps, hlazy⟩ := h
      cases r with
      | error e => exact ⟨fun _ _ => hkeeps, fun _ _ h => by cases h⟩
      | ok both =>
          obtain ⟨nvram, list⟩ := both
          obtain ⟨hlive, hopened⟩ := hkeeps
          refine ⟨fun _ h => (by cases h), fun nvram' list' h => ?_⟩
          cases h
          refine ⟨hlive, fun n hn => ?_, fun n hn hno => ?_⟩
          · obtain rfl : nvram = n := Option.some.inj hn
            by_cases hisLazy : C.Lazy
            · exact hopened.imp_right fun h => ⟨hisLazy, h.1, h.2.1⟩
            · exact Or.inl (hlazy hisLazy nvram list rfl)
          · obtain rfl : nvram = n := Option.some.inj hn
            exact (hopened.resolve_left hno).2.2

/-- Something is set on a side that opened nothing. -/
def SetsUnopenedSide (opts : Opts) (sections : Option CString × Option CString) : Prop :=
  C.Lazy ∧ (∃ key value, .set key value ∈ opts.operations) ∧
    emptySection sections.1 = true ∧ emptySection sections.2 = true

/-- A side has a handle to write through, or its list is empty and nothing is set on it. -/
theorem SideHolds.opened_or_idle {sections : Option CString × Option CString}
    {nvram : Option format.StructNvram} {list : List Entry} (h : SideHolds C sections nvram list)
    (hno : ¬ SetsUnopenedSide C opts sections) :
    (∀ n ∈ nvram, C.Opened n) ∨ ((∀ key value, .set key value ∉ opts.operations) ∧ list = []) := by
  by_cases hall : ∀ n ∈ nvram, C.Opened n
  · exact Or.inl hall
  · right
    obtain ⟨n, hn, hclosed⟩ : ∃ n, n ∈ nvram ∧ ¬ C.Opened n := by
      by_contra hnone
      exact hall fun n hn => by_contra fun hclosed => hnone ⟨n, hn, hclosed⟩
    obtain ⟨hlazy, hA, hB⟩ := (h.usable n hn).resolve_left hclosed
    refine ⟨fun key value hset => hno ⟨hlazy, ⟨key, value, hset⟩, hA, hB⟩, ?_⟩
    exact h.empty n hn hclosed

theorem monitored_executeOperations (hremove : ∀ key, lib.listRemove [] key = none)
    {nvramSystem nvramUser : Option format.StructNvram} {listSystem listUser : List Entry}
    {sections : Option CString × Option CString}
    (hside : SideHolds C sections (if opts.mode.systemWrite then nvramSystem else nvramUser)
      (if opts.mode.systemWrite then listSystem else listUser))
    (hlive : C.side (if opts.mode.systemWrite then nvramSystem else nvramUser) ≤ live)
    (hno : ¬ SetsUnopenedSide C opts sections) :
    Monitored handleMonitor (fun live' _ => live' = live)
      (executeOperations lib opts.mode format opts.operations nvramSystem listSystem nvramUser
        listUser) live := by
  have hlocal : ∀ {Q : Except Errno ExecState → Prop},
      Confined Call.Local Q (executeEach lib opts.mode opts.operations
        ⟨listSystem, listUser, false⟩) →
      Monitored handleMonitor (fun live' r => live' = live ∧ Q r)
        (executeEach lib opts.mode opts.operations ⟨listSystem, listUser, false⟩) live :=
    fun h => monitored_steady (h.mono (fun _ ho => steady_of_no_interface ho.1) fun _ h => h)
  unfold executeOperations
  rcases hside.opened_or_idle C hno with hopened | ⟨hset, hempty⟩
  · refine monitored_seq (hlocal (local_executeEach lib opts.mode _ _)) fun live' r h => ?_
    obtain ⟨rfl, -⟩ := h
    cases r with
    | error e => exact rfl
    | ok st =>
        dsimp only
        split
        · refine ⟨trivial, fun _ => ?_⟩
          split
          · rename_i hsystem
            rw [if_pos hsystem] at hopened hlive
            exact monitored_commitList C hopened hlive _
          · rename_i hsystem
            rw [if_neg hsystem] at hopened hlive
            split
            · exact monitored_commitList C hopened hlive _
            · exact rfl
        · exact rfl
  · -- nothing is set on an empty list: nothing is written
    refine monitored_seq (hlocal (local_executeEach_of_no_set hremove hset hempty))
      fun live' r h => ?_
    obtain ⟨rfl, hst⟩ := h
    cases r with
    | error e => exact rfl
    | ok st =>
        rw [hst st rfl]
        exact rfl

/-- Under the lock the sides are opened, and what is opened is still held at the end. -/
theorem monitored_withLock (hremove : ∀ key, lib.listRemove [] key = none)
    (hno : ¬ SetsUnopenedSide C opts
      (sideSections cfg env interfaceName opts opts.mode.systemWrite)) :
    Monitored handleMonitor
      (fun live' done => live' = C.side done.nvramSystem + (C.side done.nvramUser + live))
      (withLock lib cfg env format interface interfaceName opts) live := by
  unfold withLock
  refine monitored_seq (monitored_initSide C _ _ _
    (sideSections cfg env interfaceName opts true)) fun live₁ r h => ?_
  obtain ⟨herror, hsystem⟩ := h
  cases r with
  | error e =>
      rw [herror e rfl]
      show live = 0 + (0 + live)
      rw [zero_add, zero_add]
  | ok system =>
      obtain ⟨nvramSystem, listSystem⟩ := system
      obtain ⟨hlive₁, hsystem⟩ := hsystem nvramSystem listSystem rfl
      refine monitored_seq (monitored_initSide C _ _ _
        (sideSections cfg env interfaceName opts false)) fun live₂ r h => ?_
      obtain ⟨herror, huser⟩ := h
      cases r with
      | error e =>
          rw [herror e rfl, hlive₁]
          show C.side nvramSystem + live = C.side nvramSystem + (0 + live)
          rw [zero_add]
      | ok user =>
          obtain ⟨nvramUser, listUser⟩ := user
          obtain ⟨hlive₂, huser⟩ := huser nvramUser listUser rfl
          have hlive : live₂ = C.side nvramSystem + (C.side nvramUser + live) := by
            rw [hlive₂, hlive₁, ← add_assoc, add_comm (C.side nvramUser), add_assoc]
          have hside : SideHolds C (sideSections cfg env interfaceName opts opts.mode.systemWrite)
              (if opts.mode.systemWrite then nvramSystem else nvramUser)
              (if opts.mode.systemWrite then listSystem else listUser) := by
            cases opts.mode.systemWrite
            · exact huser
            · exact hsystem
          have hle : C.side (if opts.mode.systemWrite then nvramSystem else nvramUser) ≤ live₂ := by
            rw [hlive]
            split
            · exact Multiset.le_add_right _ _
            · exact (Multiset.le_add_right _ _).trans (Multiset.le_add_left _ _)
          refine monitored_seq (monitored_executeOperations C hremove hside hle hno)
            fun live₃ r h => ?_
          subst h
          exact hlive

/-- The exit closes both sides. -/
theorem monitored_exitClose (fdLock : Option Fd) (done : AtExit format) :
    Monitored handleMonitor (fun live' _ => live' = live) (exitClose format fdLock done)
      (C.side done.nvramSystem + (C.side done.nvramUser + live)) := by
  have hrelease : ∀ live, Monitored handleMonitor (fun live' _ => live' = live)
      (exitRelease done.r fdLock) live := by
    intro live
    have hconfined := confined_exitRelease (P := Steady live) steady_inner
      (fun _ => steady_of_no_interface rfl) (fun _ => steady_of_no_interface rfl) done.r fdLock
    exact (monitored_steady hconfined).mono fun _ _ h => h.1
  unfold exitClose
  refine monitored_seq (hrelease _) fun live₁ r h => ?_
  subst h
  refine monitored_seq (C.close done.nvramSystem _) fun live₂ _ h => ?_
  subst h
  exact monitored_seq (C.close done.nvramUser live) fun _ _ h => h

/-- An accepted batch that does not set anything on a side without a handle leaves no handle
open, and uses the open ones only. -/
theorem monitored_session_handles (formatName : CString)
    (hremove : ∀ key, lib.listRemove [] key = none)
    (hno : Accepted cfg env opts.mode opts.operations → ¬ SetsUnopenedSide C opts
      (sideSections cfg env interfaceName opts opts.mode.systemWrite)) :
    Monitored handleMonitor (fun live' _ => live' = live)
      (session lib cfg env format interface interfaceName formatName opts) live := by
  have hnone : ∀ (r : Except Errno Unit) (live' : Multiset OpenHandle), live' = live →
      Monitored handleMonitor (fun live' _ => live' = live)
        (exitClose format none ⟨r, none, none⟩) live' := by
    intro r live' h
    have hexit : Monitored handleMonitor (fun live' _ => live' = live)
        (exitClose format none ⟨r, none, none⟩) (C.side none + (C.side none + live)) :=
      monitored_exitClose C none ⟨r, none, none⟩
    have hlive : C.side none + (C.side none + live) = live := (zero_add _).trans (zero_add _)
    rw [hlive] at hexit
    rw [h]
    exact hexit
  unfold session
  iterate 6
    rw [prDbg_bind]
    refine ⟨trivial, fun _ => ?_⟩
  refine monitored_seq (monitored_steady ((inner_validateOperations cfg env _ _).mono steady_inner
    fun _ h => h)) fun live₁ r h => ?_
  obtain ⟨hlive₁, hr⟩ := h
  cases r with
  | error e => exact hnone _ _ hlive₁
  | ok u =>
      have hlock : Confined (Steady live₁) (fun _ => True) (acquireLockfile NVRAM_LOCKFILE) := by
        rw [acquireLockfile, openLock_bind]
        refine ⟨steady_of_no_interface rfl, fun r => ?_⟩
        cases r with
        | error e => exact confined_logged steady_inner _ _ _
        | ok fd =>
            exact confined_acquireRetry steady_inner (steady_of_no_interface rfl)
              (steady_of_no_interface rfl) _ _
      refine monitored_seq (monitored_steady hlock) fun live₂ r h => ?_
      obtain ⟨hlive₂, -⟩ := h
      subst hlive₂
      cases r with
      | error e => exact hnone _ _ hlive₁
      | ok fd =>
          refine monitored_seq (monitored_withLock C hremove (hno (hr.mp rfl)))
            fun live₃ done h => ?_
          subst h
          exact (monitored_exitClose C (some fd) done).mono fun _ _ h => h.trans hlive₁

end

/-! ### Every invocation -/

section

variable (lib : Libnvram) (crc32 : Bytes → UInt32) (cfg : BuildConfig) (env : Environ)

/-- The operations are accepted, the format is v2, and the batch sets something while neither
section of the written side is configured. -/
def SetsUnopened (args : List CString) : Prop :=
  Proceeds lib crc32 cfg env args ∧ ∃ items, commandLine args = some items ∧
    formatNameOf cfg env (finalOpts items) = lit "v2" ∧
    (∃ key value, .set key value ∈ requested items) ∧
    emptySection (writtenSections cfg env (finalOpts items)).1 = true ∧
    emptySection (writtenSections cfg env (finalOpts items)).2 = true

variable {lib crc32 cfg env}

/-- In every run, however the calls are answered, section calls are made through handles that
were given out and not yet destroyed, and in the end none is left. -/
theorem main_handles_follow (hinactive : (lib.initTransaction [] []).active = ⟨false, false⟩)
    (hremove : ∀ key, lib.listRemove [] key = none) {args : List CString}
    (hno : ¬ SetsUnopened lib crc32 cfg env args) {evs : List CallEvent} {c : ℕ}
    (hrun : Runs (main lib crc32 cfg env args) evs c) :
    handleMonitor.Follows 0 evs ∧ handleMonitor.after 0 evs = 0 := by
  refine Monitored.runs (Q := fun live _ => live = 0) ?_ hrun
  have hinner : ∀ o, Call.Inner o → handleMonitor.allows 0 o ∧
      ∀ r, handleMonitor.next 0 o r = 0 := fun o ho => steady_inner o ho
  refine monitored_main_of_session (Q := fun live => live = 0) hinner rfl
    fun items interface format hitems hinterface hformat => ?_
  obtain ⟨C, hlazy⟩ := nvramGetFormat_custody lib crc32 hinactive hformat
  refine monitored_session_handles C _ hremove fun haccepted hsets => hno ?_
  obtain ⟨hisLazy, hset, hA, hB⟩ := hsets
  have hfound : (nvramGetInterface cfg (interfaceNameOf cfg env (finalOpts items))).isSome :=
    Option.isSome_of_eq_some hinterface
  refine ⟨⟨items, hitems, hfound, Option.isSome_of_eq_some hformat, ?_⟩, items, hitems,
    hlazy hisLazy, hset, hA, hB⟩
  rw [← finalOpts_mode]
  exact haccepted

end

/-! ### Evaluated -/

/-- With both user sections empty, `set` succeeds up to the commit, which asks for the section
name of no handle and writes through it. -/
theorem set_on_unopened_side :
    ∃ evs c, Runs (main plainLibnvram zlibCrc32 sampleConfig (fun _ => none)
        [lit "--user_a", lit "", lit "--user_b", lit "", lit "set", lit "key", lit "value"]) evs c ∧
      ¬ handleMonitor.Follows 0 evs := by
  refine ⟨_, _, runs_trace obliging _ (), ?_⟩
  decide +kernel

theorem main_handles_follow_sample :
    handleMonitor.Follows 0 (trace obliging (main plainLibnvram zlibCrc32 sampleConfig
        (fun _ => none) [lit "set", lit "key", lit "value"]) ()) ∧
      handleMonitor.after 0 (trace obliging (main plainLibnvram zlibCrc32 sampleConfig
        (fun _ => none) [lit "set", lit "key", lit "value"]) ()) = 0 := by
  refine main_handles_follow (by decide +kernel) (fun _ => rfl) (fun hsets => ?_)
    (runs_trace obliging _ ())
  obtain ⟨-, items, hitems, -, -, hA, -⟩ := hsets
  have hline : commandLine [lit "set", lit "key", lit "value"] =
      some [.operation (.set (lit "key") (lit "value"))] := rfl
  obtain rfl := Option.some.inj (hline.symm.trans hitems)
  revert hA
  decide +kernel

end Nvram
