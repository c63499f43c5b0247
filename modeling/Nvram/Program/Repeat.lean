import Nvram.Program.Changes
import Nvram.Program.AllOrNothing
import Nvram.Program.Status

/-!
# Repeating a batch

A batch that is run a second time leaves every key as the first run has left it.  Where no key
occurs twice in it the second run finds nothing to do and writes nothing.  And in every run a
list that has changed is written: without a write the lists are those that were loaded.
-/

namespace Nvram

open Effects Errno

/-! ### The second time -/

section

variable {lib : Libnvram} (hl : lib.ListLaws) {list : List Entry}
  (hlist : Keyed.Distinct Entry.key list)

include hl hlist

/-- The second time a batch leaves every key as the first time. -/
theorem get_editAll_editAll (batch : List (Keyed.Edit Entry Bytes)) (key : Bytes) :
    Keyed.get Entry.key (editAll lib (editAll lib list batch) batch) key =
      Keyed.get Entry.key (editAll lib list batch) key := by
  obtain ⟨hdistinct, hget⟩ := editAll_spec hl hlist batch
  rw [(editAll_spec hl hdistinct batch).2, hget, Keyed.lastOf_lastOf]

/-- Where no key occurs twice, the second time finds nothing to do. -/
theorem editList_editAll {batch : List (Keyed.Edit Entry Bytes)}
    (hbatch : (batch.map (Keyed.Edit.key? Entry.key)).Nodup) {e : Keyed.Edit Entry Bytes}
    (he : e ∈ batch) : editList lib (editAll lib list batch) e = none := by
  obtain ⟨hdistinct, hget⟩ := editAll_spec hl hlist batch
  rw [editList_eq_none_iff hl hdistinct, hget, Keyed.lastOf_of_mem Entry.key hbatch he]

end

theorem Operation.key_edit? {it : Operation} {e : Keyed.Edit Entry Bytes}
    (h : it.edit? = some e) : ∃ key, it.key? = some key ∧ e.key? Entry.key = key.bytesZ := by
  cases it with
  | set key value =>
      cases h
      exact ⟨key, rfl, rfl⟩
  | del key =>
      cases h
      exact ⟨key, rfl, rfl⟩
  | list => cases h
  | get key => cases h

/-- Operations with different keys are edits with different keys. -/
theorem nodup_edits {operations : List Operation} (hops : ∀ it ∈ operations, it.Changes)
    (h : (operations.map Operation.key?).Nodup) :
    ((edits operations).map (Keyed.Edit.key? Entry.key)).Nodup := by
  induction operations with
  | nil => exact List.nodup_nil
  | cons it ops ih =>
      obtain ⟨hnot, hrest⟩ := List.nodup_cons.mp h
      obtain ⟨e, he⟩ := (hops it List.mem_cons_self).exists_edit
      have hcons : edits (it :: ops) = e :: edits ops := by simp [edits, he]
      rw [hcons, List.map_cons]
      refine List.nodup_cons.mpr
        ⟨fun hmem => ?_, ih (fun it' hit' => hops it' (List.mem_cons_of_mem _ hit')) hrest⟩
      obtain ⟨e', he', heq⟩ := List.mem_map.mp hmem
      obtain ⟨it', hit', hedit'⟩ := List.mem_filterMap.mp he'
      obtain ⟨key, hkey, hbytes⟩ := Operation.key_edit? he
      obtain ⟨key', hkey', hbytes'⟩ := Operation.key_edit? hedit'
      rw [hbytes, hbytes'] at heq
      obtain rfl := CString.bytesZ_injective heq
      exact hnot (List.mem_map.mpr ⟨it', hit', hkey'.trans hkey.symm⟩)

/-! ### Without a write -/

section

variable {lib : Libnvram} {mode : Mode}

/-- Operations that perform no write leave the state as it was. -/
theorem runs_executeEach_idle {operations : List Operation} {st st' : ExecState}
    {evs : List CallEvent} (h : Runs (executeEach lib mode operations st) evs (.ok st'))
    (hidle : st'.writePerformed = false) : st' = st := by
  induction operations generalizing st evs with
  | nil =>
      obtain ⟨-, hst⟩ := runs_ret_iff.mp h
      exact Except.ok.inj hst
  | cons it ops ih =>
      obtain ⟨evs₁, evs₂, r, rfl, hit, hrest⟩ := runs_bind_iff.mp h
      cases r with
      | error e =>
          obtain ⟨-, hr⟩ := runs_ret_iff.mp hrest
          cases hr
      | ok st₁ =>
          obtain rfl := ih hrest
          rcases ((local_execute lib mode it st).runs hit).2 st' rfl with rfl | ⟨-, hwrote⟩
          · rfl
          · rw [hwrote.performed] at hidle
            cases hidle

/-- A commit of the v2 format that returns 0 has issued a write. -/
theorem write_of_committed {nvram : Option V2Nvram} {list : List Entry} {evs : List CallEvent}
    (hlist : Serialises lib list) (h : Committed (nvramV2Format lib) nvram list evs) :
    ∃ ev ∈ evs, IsWrite ev := by
  obtain ⟨n, n', before, commit, after, -, rfl, hruns⟩ := h
  have hcommit : Runs (v2Commit lib n list) commit (.ok (), n') := hruns
  rcases v2Commit_ok_stored_or_refused hcommit rfl with hstored | hrefused
  · obtain ⟨buf, -, hmem⟩ := hstored.1
    refine ⟨_, List.mem_append_left _ (List.mem_append_right _ hmem), rfl⟩
  · exact absurd hrefused.2 (hlist _)

variable {crc32 : Bytes → UInt32} {cfg : BuildConfig} {env : Environ} {args : List CString}
  {evs : List CallEvent}

/-- The exit returns 0 only where nothing has failed before. -/
theorem runs_exitClose_ok {format : NvramFormat} {fdLock : Option Fd} {done : AtExit format}
    (h : Runs (exitClose format fdLock done) evs (.ok ())) : done.r = .ok () := by
  obtain ⟨release, evs₁, r, -, hrelease, h₁⟩ := runs_bind_iff.mp h
  obtain ⟨closeSystem, evs₂, _, -, -, h₂⟩ := runs_bind_iff.mp h₁
  obtain ⟨closeUser, evs₃, _, -, -, h₃⟩ := runs_bind_iff.mp h₂
  obtain ⟨-, rfl⟩ := runs_ret_iff.mp h₃
  have hconfined : Confined (fun _ : Call => True)
      (fun r' => (r' = .ok () → done.r = .ok ()) ∧ (fdLock = none → r' = done.r))
      (exitRelease done.r fdLock) :=
    confined_exitRelease (fun _ _ => trivial) (fun _ => trivial) (fun _ => trivial) _ _
  exact (hconfined.runs hrelease).2.1 rfl

/-- A v2 batch that ends with 0 and has issued no write has left the lists as they were loaded. -/
theorem BatchRun.executed_of_no_write (b : BatchRun lib crc32 cfg env args evs)
    (hv2 : nvramGetFormat lib crc32 cfg (formatNameOf cfg env (finalOpts b.items)) =
      some (nvramV2Format lib)) (hok : b.result = .ok ())
    (hlist : ∀ st, b.work.executed = .ok st → Serialises lib (st.side (lastMode b.items)))
    (hsilent : Call.writesIn evs = []) :
    b.work.executed = .ok ⟨b.work.listSystem, b.work.listUser, false⟩ := by
  obtain ⟨items, interface, format, hitems, hinterface, hformat, front, work, after, result,
    hafter, hevs⟩ := b
  dsimp only at hv2 hok hlist ⊢
  obtain rfl := Option.some.inj (hformat.symm.trans hv2)
  subst hok
  have hcommit := work.runs_commit
  have hresult : work.result = .ok () := runs_exitClose_ok hafter
  rw [hresult] at hcommit
  cases hexecuted : work.executed with
  | error e =>
      rw [hexecuted] at hcommit
      obtain ⟨-, hr⟩ := runs_ret_iff.mp hcommit
      cases hr
  | ok st =>
      have hexecute := work.runs_execute
      rw [hexecuted] at hexecute hcommit
      have hidle : st.writePerformed = false := by
        by_contra hperformed
        rw [Bool.not_eq_false] at hperformed
        obtain ⟨-, -, -, hwhy⟩ := runs_executeEach hexecute
        have hmode := (hwhy hperformed).resolve_left Bool.false_ne_true
        have hserial := hlist st hexecuted
        have hcommitted := runs_commitExecuted hperformed hmode hcommit
        rw [finalOpts_mode] at hcommitted
        -- the commit of the written side
        obtain ⟨nvram, hcommitted⟩ : ∃ nvram, Committed (nvramV2Format lib) nvram
            (st.side (lastMode items)) work.commit := by
          unfold ExecState.side
          by_cases hsw : (lastMode items).systemWrite = true
          · rw [if_pos hsw] at hcommitted ⊢
            exact ⟨_, hcommitted⟩
          · rw [if_neg hsw] at hcommitted ⊢
            exact ⟨_, hcommitted⟩
        obtain ⟨ev, hev, hwrite⟩ := write_of_committed hserial hcommitted
        have hmem : ev ∈ evs := by
          rw [hevs, Work.events]
          exact List.mem_append_left _ (List.mem_append_right _ (List.mem_append_right _ hev))
        have hfound : ev.op ∈ Call.writesIn evs :=
          List.mem_filter.mpr ⟨List.mem_map_of_mem hmem, hwrite⟩
        rw [hsilent] at hfound
        cases hfound
      rw [runs_executeEach_idle hexecute hidle]

end

/-! ### Two runs -/

section

variable {lib : Libnvram} {crc32 : Bytes → UInt32} {cfg : BuildConfig} {env : Environ} {σ : Type}
  {i : Interface} {h : Handler callSig σ} (H : Healthy lib i h) {args : List CString}
  {items : List Item} {s t u : σ}

/-- What a batch that ends with 0 has loaded and what it leaves. -/
theorem Healthy.BatchOutcome.of_ok {H : Healthy lib i h} {writes : List Call}
    (houtcome : H.BatchOutcome cfg env items s t writes 0) :
    ∃ list, Loads lib (H.contents s) (writtenOf cfg env items) list ∧
      Loads lib (H.contents t) (writtenOf cfg env items)
        (editAll lib list (edits (requested items))) ∧
      (∀ path, ¬ Configured (writtenOf cfg env items) path →
        H.contents t path = H.contents s path) ∧
      ((∀ e ∈ edits (requested items), editList lib list e = none) →
        writes = [] ∧ H.contents t = H.contents s) := by
  cases houtcome with
  | unloaded _ _ _ _ _ hstatus => exact absurd rfl hstatus
  | full _ _ _ hstatus => exact absurd rfl hstatus
  | idle list hloads hidle hsame hwrites _ =>
      refine ⟨list, hloads, ?_, fun path _ => congrFun hsame.1 path, fun _ => ⟨hwrites, hsame.1⟩⟩
      rw [editAll_of_idle hidle, hsame.1]
      exact hloads
  | committed list hloads hbusy hloads' hkept _ _ =>
      exact ⟨list, hloads, hloads', hkept, fun hidle => absurd hidle hbusy⟩

/-- An accepted batch run twice on a healthy v2 store, both times without a failure, leaves the
map that it leaves when it is run once; where no key occurs twice in it, the second run writes
nothing and every byte stays.  And a run of the batch that writes nothing leaves the lists in
memory as they were loaded. -/
theorem repeated_batch_idempotent (hi : lib.ImageLaws) (ht : lib.TransactionLaws)
    (hl : lib.ListLaws) (hchanges : V2Changes lib crc32 cfg env i args items)
    (hhealthy : ∀ system path, Configured (sectionsOf cfg env items system) path → H.Section path)
    (hsection : ∃ path, Configured (writtenOf cfg env items) path)
    (hmap : ∀ list, Loads lib (H.contents s) (writtenOf cfg env items) list →
      Keyed.Distinct Entry.key list ∧
        Serialises lib (editAll lib list (edits (requested items))) ∧
        Serialises lib (editAll lib (editAll lib list (edits (requested items)))
          (edits (requested items))))
    (hfirst : run h (main lib crc32 cfg env args) s = (0, t))
    (hsecond : run h (main lib crc32 cfg env args) t = (0, u)) :
    (∃ list list', Loads lib (H.contents t) (writtenOf cfg env items) list ∧
      Loads lib (H.contents u) (writtenOf cfg env items) list' ∧
      ∀ key, Keyed.get Entry.key list' key = Keyed.get Entry.key list key) ∧
    (∀ path, ¬ Configured (writtenOf cfg env items) path →
      H.contents u path = H.contents s path) ∧
    (((requested items).map Operation.key?).Nodup →
      Call.writesIn (trace h (main lib crc32 cfg env args) t) = [] ∧
        H.contents u = H.contents t) ∧
    ∀ evs (b : BatchRun lib crc32 cfg env args evs), b.result = .ok () →
      (∀ st, b.work.executed = .ok st → Serialises lib (st.side (lastMode items))) →
      Call.writesIn evs = [] →
      b.work.executed = .ok ⟨b.work.listSystem, b.work.listUser, false⟩ := by
  have houtcome := H.run_main_batch hi ht hchanges hhealthy hsection
    fun list hlist => (hmap list hlist).2.1
  rw [hfirst] at houtcome
  obtain ⟨list, hloads, hloads₁, hkept₁, -⟩ := houtcome.of_ok
  obtain ⟨hdistinct, -, hserial⟩ := hmap list hloads
  have houtcome' := H.run_main_batch (s := t) hi ht hchanges hhealthy hsection
    fun list' hlist' => by
      rw [hlist'.unique hloads₁]
      exact hserial
  rw [hsecond] at houtcome'
  obtain ⟨list₁, hloads₁', hloads₂, hkept₂, hidle⟩ := houtcome'.of_ok
  obtain rfl := hloads₁'.unique hloads₁
  refine ⟨⟨_, _, hloads₁, hloads₂, get_editAll_editAll hl hdistinct _⟩,
    fun path hpath => (hkept₂ path hpath).trans (hkept₁ path hpath), fun hnodup => ?_, ?_⟩
  · exact hidle fun e he =>
      editList_editAll hl hdistinct (nodup_edits hchanges.changes hnodup) he
  · intro evs b hok hlist hsilent
    obtain rfl := Option.some.inj (b.arguments.symm.trans hchanges.arguments)
    exact b.executed_of_no_write hchanges.format hok hlist hsilent

end

/-! ### Evaluated -/

/-- An invocation on the files of `sampleConfig`. -/
abbrev plainMain (args : List CString) (m : Machine FileSystem) : ℕ × Machine FileSystem :=
  run (fileMachine plainLibnvram none zeros)
    (main plainLibnvram zlibCrc32 sampleConfig (fun _ => none) args) m

theorem v2Changes_setter : V2Changes plainLibnvram zlibCrc32 sampleConfig (fun _ => none) .file
    setterArgs [.operation (.set (lit "key") (lit "value"))] where
  arguments := rfl
  interface := rfl
  format := rfl
  accepted := by
    have hrequested : requested [.operation (.set (lit "key") (lit "value"))] =
        [.set (lit "key") (lit "value")] := rfl
    rw [hrequested]
    refine ⟨fun it hit => ?_, by simp [Operation.Shows], by simp⟩
    obtain rfl := List.mem_singleton.mp hit
    exact ⟨by decide, by decide⟩
  changes it hit := by
    obtain rfl := List.mem_singleton.mp hit
    trivial

/-- The second `set key value` writes nothing. -/
theorem repeated_batch_idempotent_sample :
    Call.writesIn (trace (fileMachine plainLibnvram none zeros)
        (main plainLibnvram zlibCrc32 sampleConfig (fun _ => none) setterArgs)
        (plainMain setterArgs noFiles).2) = [] ∧
      (plainMain setterArgs (plainMain setterArgs noFiles).2).2.sys.content =
        (plainMain setterArgs noFiles).2.sys.content := by
  have hfirst : (plainMain setterArgs noFiles).1 = 0 := by decide +kernel
  have hsecond : (plainMain setterArgs (plainMain setterArgs noFiles).2).1 = 0 := by
    decide +kernel
  have hblank : Loads plainLibnvram (fileMachine.healthy plainLibnvram none zeros |>.contents noFiles)
      (writtenOf sampleConfig (fun _ => none) [.operation (.set (lit "key") (lit "value"))]) [] :=
    ⟨_, by rfl⟩
  refine (repeated_batch_idempotent (fileMachine.healthy plainLibnvram none zeros)
    Plain.imageLaws Plain.transactionLaws Plain.listLaws v2Changes_setter
    (fun _ _ _ => trivial) ⟨lit "ua", Or.inl rfl⟩ (fun list hlist => ?_)
    (Prod.ext hfirst rfl) (Prod.ext hsecond rfl)).2.2.1 (by decide)
  rw [hlist.unique hblank]
  exact ⟨Keyed.distinct_nil, Plain.image_ne_nil (by decide), Plain.image_ne_nil (by decide)⟩

end Nvram
