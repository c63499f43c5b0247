import Nvram.V2.Store

/-!
# A batch of changes on a healthy v2 store

An accepted batch of sets and deletes either finds a side that does not load, or has nothing
to do and issues no write, or commits the edited list of the side that the mode writes.  The
commit returns 0 where there is room, and then the side loads the edited list.
-/

namespace Nvram

open Effects Errno

/-! ### What the inits have opened -/

section

variable {lib : Libnvram} {v : View} {i : Interface} {sections : Option CString × Option CString}

theorem loads_of_sideOpened {side : Option V2Nvram × List Entry}
    (h : (nvramV2Format.initSpec lib).SideOpened v i true sections side) :
    ∃ nvram trans, side.1 = some nvram ∧
      v2Load lib v.contents sections.1 sections.2 = some (trans, side.2) ∧
      nvram.OpenOn v i sections.1 sections.2 trans := by
  obtain ⟨handle, list⟩ := side
  cases handle with
  | none => cases h.1
  | some nvram =>
      have hresult : InitResult v i sections.1 sections.2 (.ok (nvram, list))
          (v2Load lib v.contents sections.1 sections.2) := h.2
      obtain ⟨trans, hload, hopen⟩ := hresult.of_ok
      exact ⟨nvram, trans, rfl, hload, hopen⟩

theorem not_loads_of_sideFails {wanted : Bool}
    (h : (nvramV2Format.initSpec lib).SideFails v i wanted sections) :
    wanted = true ∧ ∀ list, ¬ Loads lib v.contents sections list := by
  obtain ⟨hwanted, e, hopens⟩ := h
  refine ⟨hwanted, fun list hloads => ?_⟩
  obtain ⟨trans, hload⟩ := hloads
  have hresult : InitResult v i sections.1 sections.2 (.error e)
      (v2Load lib v.contents sections.1 sections.2) := hopens
  rw [hresult.of_error] at hload
  cases hload

end

namespace Healthy

variable {lib : Libnvram} {crc32 : Bytes → UInt32} {cfg : BuildConfig} {env : Environ} {σ : Type}
  {i : Interface} {h : Handler callSig σ} (H : Healthy lib i h)

/-- The commit of `execute_operations`: its result is that of `v2_commit`. -/
theorem run_commitList {nvram : V2Nvram} {list : List Entry} {s : σ} {r : Except Errno Unit}
    {nvram' : V2Nvram} {t : σ} (hcommit : run h (v2Commit lib nvram list) s = ((r, nvram'), t)) :
    ∃ u, run h (commitList (nvramV2Format lib) (some nvram) list) s = (r, u) ∧ H.Same t u := by
  have hcommit' : run h ((nvramV2Format lib).commit nvram list) s = ((r, nvram'), t) := hcommit
  unfold commitList
  dsimp only
  rw [run_bind, hcommit']
  cases r with
  | error e =>
      simp only [prErr_bind, run_op]
      exact ⟨_, rfl, H.same_of_inner (Call.inner_fprintfStderr _ _) t⟩
  | ok u => exact ⟨t, rfl, rfl, rfl⟩

/-- The handler that notes the writes is observed as the handler is. -/
def logged : Observed lib (World.ofHandler (logging Call.isWrite h)) i False where
  Section := H.Section
  Handle := H.Handle
  contents s := H.contents s.1
  Same s t := H.Same s.1 t.1 ∧ t.2 = s.2
  refl _ := ⟨⟨rfl, rfl⟩, rfl⟩
  trans hst htu := ⟨hst.1.trans htu.1, htu.2.trans hst.2⟩
  contents_eq hst := hst.1.1
  Answer := Answers lib
  truthful := truthful_answers lib
  step s o r t ho hstep := by
    have hstep : logging Call.isWrite h o s = (r, t) := hstep
    simp only [logging, ho.2.1, Bool.false_eq_true, if_false] at hstep
    cases hstep
    exact ⟨H.answers o s.1 ho.1 ho.2.1, (H.observed.step s.1 o _ _ ho rfl).2, rfl⟩
  halt _ _ _ _ hstop := hstop.elim

end Healthy

/-! ### The batch -/

/-- The arguments are an accepted batch of operations for the v2 format. -/
structure V2Batch (lib : Libnvram) (crc32 : Bytes → UInt32) (cfg : BuildConfig) (env : Environ)
    (i : Interface) (args : List CString) (items : List Item) : Prop where
  arguments : commandLine args = some items
  interface : nvramGetInterface cfg (interfaceNameOf cfg env (finalOpts items)) = some i
  format : nvramGetFormat lib crc32 cfg (formatNameOf cfg env (finalOpts items)) =
    some (nvramV2Format lib)
  accepted : Accepted cfg env (lastMode items) (requested items)

/-- A batch of sets and deletes. -/
structure V2Changes (lib : Libnvram) (crc32 : Bytes → UInt32) (cfg : BuildConfig) (env : Environ)
    (i : Interface) (args : List CString) (items : List Item) : Prop
    extends V2Batch lib crc32 cfg env i args items where
  changes : ∀ it ∈ requested items, it.Changes

/-- The sections of a side, as the items select them. -/
def sectionsOf (cfg : BuildConfig) (env : Environ) (items : List Item) (system : Bool) :
    Option CString × Option CString :=
  sideSections cfg env (interfaceNameOf cfg env (finalOpts items)) (finalOpts items) system

/-- The sections of the side that the items write. -/
def writtenOf (cfg : BuildConfig) (env : Environ) (items : List Item) :
    Option CString × Option CString :=
  sectionsOf cfg env items (lastMode items).systemWrite

/-- What `main` holds of a side that its mode reaches: its handle and what was loaded. -/
def Reaches (lib : Libnvram) (v : View) (i : Interface)
    (sections : Option CString × Option CString) (nvram : V2Nvram) (list : List Entry) : Prop :=
  ∃ trans, v2Load lib v.contents sections.1 sections.2 = some (trans, list) ∧
    nvram.OpenOn v i sections.1 sections.2 trans

theorem Reaches.loads {lib : Libnvram} {v : View} {i : Interface}
    {sections : Option CString × Option CString} {nvram : V2Nvram} {list : List Entry}
    (h : Reaches lib v i sections nvram list) : Loads lib v.contents sections list := by
  obtain ⟨trans, hload, -⟩ := h
  exact ⟨trans, hload⟩

/-- An accepted batch comes down to the execution of its operations on what the sides that the
mode reaches have loaded. -/
theorem Observed.wp_batch {lib : Libnvram} {crc32 : Bytes → UInt32} {cfg : BuildConfig}
    {env : Environ} {σ : Type} {W : World callSig σ} {i : Interface} (O : Observed lib W i False)
    {args : List CString} {items : List Item} {s : σ} {Q : ℕ → σ → Prop}
    (hbatch : V2Batch lib crc32 cfg env i args items)
    (hhealthy : ∀ system path, Configured (sectionsOf cfg env items system) path → O.Section path)
    (hunloaded : ∀ system, (lastMode items).reaches system = true →
      (∀ list, ¬ Loads lib (O.contents s) (sectionsOf cfg env items system) list) →
      ∀ c t, O.Same s t → c ≠ 0 → Q c t)
    (hexec : ∀ system user : Option (nvramV2Format lib).StructNvram × List Entry,
      (∀ b, (lastMode items).reaches b = true →
        ∃ nvram : (nvramV2Format lib).StructNvram, (if b then system.1 else user.1) = some nvram ∧
          Reaches lib (O.view s) i (sectionsOf cfg env items b) nvram
            (if b then system.2 else user.2)) →
      ∀ t, O.Same s t → wp W (fun r u => ∀ v, O.Same u v → Q (exitStatus r) v) (fun _ => True)
        (executeOperations lib (lastMode items) (nvramV2Format lib) (requested items) system.1
          system.2 user.1 user.2) t) :
    wp W Q (fun _ => True) (main lib crc32 cfg env args) s := by
  obtain ⟨F⟩ := nvramGetFormat_frame lib crc32 hbatch.format
  refine O.wp_invocation F (nvramV2Format.initSpec lib) hbatch.arguments (fun j hj => ?_)
    (fun found hfound => ?_) (fun system => ⟨fun p hp => hhealthy system p (Or.inl hp),
      fun p hp => hhealthy system p (Or.inr hp)⟩) (fun hno => ?_)
    (fun system hfails => ?_) fun system user t hst hsystem huser => ?_
  · exact Option.some.inj (hj.symm.trans hbatch.interface)
  · exact Option.some.inj (hfound.symm.trans hbatch.format)
  · refine absurd ⟨items, hbatch.arguments, ?_, ?_, hbatch.accepted⟩ hno
    · rw [hbatch.interface]
      rfl
    · rw [hbatch.format]
      rfl
  · obtain ⟨hreaches, hloads⟩ := not_loads_of_sideFails hfails
    exact hunloaded system hreaches hloads
  · refine hexec system user (fun b hreaches => ?_) t hst
    cases b with
    | true =>
        rw [hreaches] at hsystem
        obtain ⟨nvram, trans, hsome, hload, hopen⟩ := loads_of_sideOpened hsystem
        exact ⟨nvram, hsome, trans, hload, hopen⟩
    | false =>
        rw [hreaches] at huser
        obtain ⟨nvram, trans, hsome, hload, hopen⟩ := loads_of_sideOpened huser
        exact ⟨nvram, hsome, trans, hload, hopen⟩

namespace Healthy

variable {lib : Libnvram} {crc32 : Bytes → UInt32} {cfg : BuildConfig} {env : Environ} {σ : Type}
  {i : Interface} {h : Handler callSig σ} (H : Healthy lib i h)

/-- How a batch ends, from the state and to the state, with the writes it issues and the exit
status. -/
inductive BatchOutcome (cfg : BuildConfig) (env : Environ) (items : List Item) (s t : σ)
    (writes : List Call) (status : ℕ) : Prop where
  /-- A side that the mode reaches does not load. -/
  | unloaded (system : Bool) : (lastMode items).reaches system = true →
      (∀ list, ¬ Loads lib (H.contents s) (sectionsOf cfg env items system) list) →
      H.Same s t → writes = [] → status ≠ 0 → BatchOutcome cfg env items s t writes status
  /-- No edit finds anything to do. -/
  | idle (list : List Entry) : Loads lib (H.contents s) (writtenOf cfg env items) list →
      (∀ e ∈ edits (requested items), editList lib list e = none) →
      H.Same s t → writes = [] → status = 0 → BatchOutcome cfg env items s t writes status
  /-- The edited list is committed. -/
  | committed (list : List Entry) : Loads lib (H.contents s) (writtenOf cfg env items) list →
      ¬ (∀ e ∈ edits (requested items), editList lib list e = none) →
      Loads lib (H.contents t) (writtenOf cfg env items)
        (editAll lib list (edits (requested items))) →
      (∀ path, ¬ Configured (writtenOf cfg env items) path →
        H.contents t path = H.contents s path) →
      H.stdout t = H.stdout s → status = 0 → BatchOutcome cfg env items s t writes status
  /-- The edited list has no room. -/
  | full (list : List Entry) : Loads lib (H.contents s) (writtenOf cfg env items) list →
      ¬ H.Room (writtenOf cfg env items) (editAll lib list (edits (requested items))) →
      status ≠ 0 → BatchOutcome cfg env items s t writes status

variable {args : List CString} {items : List Item} {s : σ}
  (hi : lib.ImageLaws) (ht : lib.TransactionLaws)
  (hchanges : V2Changes lib crc32 cfg env i args items)
  (hhealthy : ∀ system path, Configured (sectionsOf cfg env items system) path → H.Section path)
  (hsection : ∃ path, Configured (writtenOf cfg env items) path)
  (hlist : ∀ list, Loads lib (H.contents s) (writtenOf cfg env items) list →
    Serialises lib (editAll lib list (edits (requested items))))

include hi ht hsection hlist in
/-- The commit of the edited list ends the batch. -/
theorem wp_commit_outcome {nvram : V2Nvram} {trans : LibnvramTransaction} {list : List Entry}
    (hopen : nvram.OpenOn (H.view s) i (writtenOf cfg env items).1 (writtenOf cfg env items).2 trans)
    (hload : v2Load lib (H.contents s) (writtenOf cfg env items).1 (writtenOf cfg env items).2 =
      some (trans, list))
    (hbusy : ¬ ∀ e ∈ edits (requested items), editList lib list e = none)
    {t : σ × List Call} (hst : H.Same s t.1) :
    wp (World.ofHandler (logging Call.isWrite h))
      (fun r u => ∀ v, H.logged.Same u v →
        H.BatchOutcome cfg env items s v.1 v.2 (exitStatus r)) (fun _ => True)
      (commitList (nvramV2Format lib) (some nvram)
        (editAll lib list (edits (requested items)))) t := by
  obtain ⟨t, log⟩ := t
  have hopen' : nvram.OpenOn (H.view t) i (writtenOf cfg env items).1
      (writtenOf cfg env items).2 trans := by
    have hview : H.view t = H.view s := by rw [view, view, hst.1]
    rw [hview]
    exact hopen
  have hload' : v2Load lib (H.contents t) (writtenOf cfg env items).1
      (writtenOf cfg env items).2 = some (trans, list) := by
    rw [hst.1]
    exact hload
  obtain ⟨r, nvram', u, hcommit, hstdout, hroom, hdone⟩ :=
    H.run_v2Commit hi ht hsection hopen' hload' (hlist list ⟨trans, hload⟩)
  obtain ⟨w, hrun, hsame⟩ := H.run_commitList hcommit
  rw [wp_ofHandler, run_logging, hrun]
  intro v hv
  have hend : H.Same u v.1 := hsame.trans hv.1
  cases r with
  | error e =>
      refine .full list ⟨trans, hload⟩ (fun hfits => ?_) e.pos.ne'
      cases hroom hfits
  | ok _ =>
      obtain ⟨hloads, hkept⟩ := hdone rfl
      refine .committed list ⟨trans, hload⟩ hbusy ?_ (fun path hpath => ?_) ?_ rfl
      · rw [hend.1]
        exact hloads
      · rw [hend.1, hkept path hpath, hst.1]
      · rw [hend.2, hstdout, hst.2]

include hi ht hchanges hhealthy hsection hlist in
/-- Every run of an accepted batch ends in one of the ways. -/
theorem run_main_batch :
    H.BatchOutcome cfg env items s (run h (main lib crc32 cfg env args) s).2
      (Call.writesIn (trace h (main lib crc32 cfg env args) s))
      (run h (main lib crc32 cfg env args) s).1 := by
  have hwp : wp (World.ofHandler (logging Call.isWrite h))
      (fun c t => H.BatchOutcome cfg env items s t.1 t.2 c) (fun _ => True)
      (main lib crc32 cfg env args) (s, []) := by
    refine H.logged.wp_batch hchanges.toV2Batch hhealthy
      (fun system hreaches hloads c t hst hc => .unloaded system hreaches hloads hst.1 hst.2 hc)
      fun system user hsides t hst => ?_
    -- the side that the mode writes
    obtain ⟨nvram, hsome, hside⟩ := hsides _ (lastMode_reaches items)
    have hloads := hside.loads
    obtain ⟨trans, hload, hopen⟩ := hside
    refine H.logged.wp_executeOperations_edits (fun _ _ => trivial) (lastMode_writes items)
      hchanges.changes (fun hfails => hfails.elim) (fun v hv hidle w hw => ?_) fun v hv hbusy => ?_
    · have hend := H.logged.trans hst (H.logged.trans hv hw)
      exact .idle _ hloads hidle hend.1 hend.2 rfl
    · rw [hsome]
      exact H.wp_commit_outcome hi ht hsection hlist hopen hload hbusy (hst.1.trans hv.1)
  rw [wp_ofHandler, run_logging, List.nil_append] at hwp
  exact hwp

end Healthy

end Nvram
