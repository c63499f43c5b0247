import Nvram.Program.Batch
import Nvram.Program.Confinement

/-!
# One invocation, seen from outside

In an observed world the calls that neither write nor print are answered truthfully and leave
everything as it was.  All of `main` outside the lock consists of such calls, so an invocation
comes down to the execution of its operations on what the inits of its sides have loaded; the
rest only decides whether it gets that far.
-/

namespace Nvram

open Effects Errno

/-! ### Quiet calls -/

/-- A call that writes no section and prints nothing. -/
def Call.Quiet (i : Interface) (o : Call) : Prop :=
  (∀ j, o.interface? = some j → j = i) ∧ o.isWrite = false ∧ o.printed = []

theorem Call.Reads.quiet {i : Interface} {paths : CString → Prop} {o : Call}
    (h : o.Reads i paths) : o.Quiet i :=
  ⟨h.1.1, h.2, h.1.2.2.2⟩

theorem Call.Inner.quiet {i : Interface} {o : Call} (h : o.Inner) : o.Quiet i :=
  ⟨by simp [h.1], h.2.2.2.2, h.2.2.2.1⟩

theorem Call.quiet_of_isLock {i : Interface} {o : Call} (h : o.isLock = true) : o.Quiet i := by
  cases o <;> first | (cases h; done) | exact ⟨by simp [Call.interface?], rfl, rfl⟩

/-- A world in which quiet calls are answered truthfully and keep everything that is seen of
the state; `fails` is whether they may be errors. -/
structure Observed (lib : Libnvram) {σ : Type} (W : World callSig σ) (i : Interface)
    (fails : Prop) where
  Section : CString → Prop
  Handle : NvramPriv → Prop
  contents : σ → Contents
  Same : σ → σ → Prop
  refl : ∀ s, Same s s
  trans : ∀ {s t u}, Same s t → Same t u → Same s u
  contents_eq : ∀ {s t}, Same s t → contents t = contents s
  Answer : View → (o : Call) → Call.Res o → Prop
  truthful : ∀ v, Truthful lib v fails (Answer v)
  step : ∀ s o r t, o.Quiet i → W.step s o r t →
    Answer ⟨Section, Handle, contents s⟩ o r ∧ Same s t
  halt : ∀ s o t, o.Quiet i → W.halt s o t → Same s t

namespace Observed

variable {lib : Libnvram} {σ : Type} {W : World callSig σ} {i : Interface} {fails : Prop}
  {α β : Type} {Q : α → σ → Prop} {C : σ → Prop} {s : σ}

/-- What the world shows in state `s`. -/
def view (O : Observed lib W i fails) (s : σ) : View := ⟨O.Section, O.Handle, O.contents s⟩

theorem view_eq (O : Observed lib W i fails) {s t : σ} (h : O.Same s t) : O.view t = O.view s := by
  rw [view, view, O.contents_eq h]

theorem wp_quiet (O : Observed lib W i fails) {p : NProg α} {Q' R : α → Prop}
    (hp : Confined (Call.Quiet i) Q' p) (hu : Under (O.Answer (O.view s)) R p) :
    wp W (fun a t => R a ∧ O.Same s t) (O.Same s) p s := by
  refine wp_of_under (I := O.Same s) (fun t o r u ht ho hr => ?_) (fun t o u ht ho hu => ?_)
    hp hu (O.refl s)
  · obtain ⟨hA, hsame⟩ := O.step t o r u ho hr
    have hview : (⟨O.Section, O.Handle, O.contents t⟩ : View) = O.view s := O.view_eq ht
    rw [hview] at hA
    exact ⟨hA, O.trans ht hsame⟩
  · exact O.trans ht (O.halt t o u ho hu)

section

variable (O : Observed lib W i fails) {t : σ} (ht : O.Same s t) (hC : ∀ u, O.Same s u → C u)

include ht hC

/-- A quiet program in front of another, in a state that looks like `s`. -/
theorem wp_quiet_seq {p : NProg β} {f : β → NProg α} {Q' R : β → Prop}
    (hp : Confined (Call.Quiet i) Q' p) (hu : Under (O.Answer (O.view s)) R p)
    (hf : ∀ b u, R b → O.Same s u → wp W Q C (f b) u) : wp W Q C (p >>= f) t := by
  rw [← O.view_eq ht] at hu
  refine wp_seq (wp_mono (fun _ _ h => h) (fun u h => hC u (O.trans ht h)) (O.wp_quiet hp hu))
    fun b u h => ?_
  exact hf b u h.1 (O.trans ht h.2)

theorem wp_inner_seq {p : NProg β} {f : β → NProg α} {R : β → Prop}
    (hp : Confined Call.Inner R p)
    (hf : ∀ b u, R b → O.Same s u → wp W Q C (f b) u) : wp W Q C (p >>= f) t :=
  O.wp_quiet_seq ht hC (hp.mono (fun _ h => h.quiet) fun _ h => h) hp.under hf

theorem wp_inner {p : NProg α} {R : α → Prop} (hp : Confined Call.Inner R p)
    (hQ : ∀ a u, R a → O.Same s u → Q a u) : wp W Q C p t := by
  refine wp_mono (fun a u h => ?_) (fun u h => hC u (O.trans ht h))
    (O.wp_quiet (hp.mono (fun _ h => h.quiet (i := i)) fun _ h => h) hp.under)
  exact hQ a u h.1 (O.trans ht h.2)

theorem wp_quiet_op {o : Call} {k : Call.Res o → NProg α} (ho : o.Quiet i)
    (hk : ∀ r u, O.Same s u → wp W Q C (k r) u) : wp W Q C (Prog.op (S := callSig) o k) t :=
  ⟨fun u hu => hC u (O.trans ht (O.halt t o u ho hu)),
    fun r u hu => hk r u (O.trans ht (O.step t o r u ho hu).2)⟩

end

end Observed

/-- A healthy outside is observed, and nothing fails on it. -/
def Healthy.observed {lib : Libnvram} {σ : Type} {i : Interface} {h : Handler callSig σ}
    (H : Healthy lib i h) : Observed lib (World.ofHandler h) i False where
  Section := H.Section
  Handle := H.Handle
  contents := H.contents
  Same := H.Same
  refl _ := ⟨rfl, rfl⟩
  trans := Same.trans
  contents_eq h := h.1
  Answer := Answers lib
  truthful := truthful_answers lib
  step s o r t ho hstep := by
    have hr : h o s = (r, t) := hstep
    have hanswer := H.answers o s ho.1 ho.2.1
    have hkeeps := H.keeps o s ho.1 ho.2.1
    have hprinted := H.printed o s ho.1
    rw [hr] at hanswer hkeeps hprinted
    rw [ho.2.2, List.append_nil] at hprinted
    exact ⟨hanswer, hkeeps, hprinted⟩
  halt _ _ _ _ h := h.elim

/-! ### The parts of `main` under truthful answers -/

section

variable {lib : Libnvram} {v : View} {fails : Prop} {A : (o : Call) → Call.Res o → Prop}
  (hA : Truthful lib v fails A)

include hA

theorem under_addOperation (opts : Opts) (it : Operation) :
    Under A (fun r => r = .ok { opts with operations := opts.operations ++ [it] } ∨
        Failed fails r) (addOperation opts it) := by
  simp only [addOperation, mallocStruct_bind]
  intro ok hok
  cases ok with
  | false =>
      have hfails : fails := (hA.mallocStruct _ hok).resolve_left (by simp)
      exact fun _ _ => Or.inr ⟨hfails, _, rfl⟩
  | true => exact Or.inl rfl

theorem under_applyItems (items : List Item) (opts : Opts) :
    Under A (fun r => r = .ok (items.foldl Item.apply opts) ∨ Failed fails r)
      (applyItems items opts) := by
  induction items generalizing opts with
  | nil => exact Or.inl rfl
  | cons it items ih =>
      cases it with
      | operation op =>
          refine under_seq (under_addOperation hA opts op) fun r hr => ?_
          rcases hr with rfl | hfailed
          · exact ih _
          · obtain ⟨e, rfl⟩ := hfailed.2
            exact Or.inr (hfailed.error e)
      | flag f => exact ih _
      | store opt str => exact ih _

/-- The argument loop returns the options of the items, or an error if there are none. -/
theorem under_parseArgs (cfg : BuildConfig) (env : Environ) (args : List CString) :
    Under A (fun r => Yields r ((commandLine args).map (·.foldl Item.apply Opts.initial)) ∨
        Failed fails r)
      (parseArgs cfg env Opts.initial args) := by
  cases h : commandLine args with
  | none => exact (parseArgs_error cfg env h _).under.mono fun r hr => Or.inl hr
  | some items =>
      rw [parseArgs_eq_applyItems cfg env h]
      exact under_applyItems hA items _

theorem under_defaultOperation (items : List Item) :
    Under A (fun r => r = .ok (finalOpts items) ∨ Failed fails r)
      (defaultOperation (items.foldl Item.apply Opts.initial)) := by
  rcases defaultOperation_cases items with h | ⟨h, hopts⟩
  · rw [h]
    exact Or.inl rfl
  · rw [h, ← hopts]
    exact under_addOperation hA _ .list

theorem under_acquireRetry (path : CString) (fd : Fd) (retries : ℕ) :
    Under A (fun r => (∃ fd, r = .ok fd) ∨ Failed fails r) (acquireRetry path fd retries) := by
  induction retries with
  | zero => exact fun _ _ => Or.inl ⟨fd, rfl⟩
  | succ n ih =>
      rw [acquireRetry, flock_bind]
      intro r hr
      rcases hA.flock fd r hr with rfl | hfailed
      · exact fun _ _ => Or.inl ⟨fd, rfl⟩
      · obtain ⟨e, rfl⟩ := hfailed.2
        dsimp only
        split
        · exact fun _ _ _ _ => Or.inr (hfailed.error e)
        · split
          · exact fun _ _ _ _ => Or.inr (hfailed.error _)
          · exact fun _ _ => ih

theorem under_acquireLockfile (path : CString) :
    Under A (fun r => (∃ fd, r = .ok fd) ∨ Failed fails r) (acquireLockfile path) := by
  rw [acquireLockfile, openLock_bind]
  intro r hr
  rcases hA.openLock path r hr with ⟨fd, rfl⟩ | hfailed
  · exact under_acquireRetry hA path fd allowedRetries
  · obtain ⟨e, rfl⟩ := hfailed.2
    exact fun _ _ => Or.inr (hfailed.error e)

/-- The exit returns what was returned before, where releasing the lock cannot fail. -/
theorem under_exitClose {format : NvramFormat} (fdLock : Option Fd) (done : AtExit format) :
    Under A (fun r => r = done.r ∨ fails) (exitClose format fdLock done) := by
  have hrelease : Under A (fun r => r = .ok () ∨ fails)
      (releaseLockfile NVRAM_LOCKFILE fdLock) := by
    cases fdLock with
    | none => exact fun _ _ => Or.inl rfl
    | some fd =>
        rw [releaseLockfile, close_bind]
        intro r hr
        rcases hA.close fd r hr with rfl | hfailed
        · rw [unlink_bind]
          intro r hr
          rcases hA.unlink _ r hr with rfl | hfailed
          · exact fun _ _ => Or.inl rfl
          · obtain ⟨e, rfl⟩ := hfailed.2
            exact fun _ _ => Or.inr hfailed.1
        · obtain ⟨e, rfl⟩ := hfailed.2
          exact fun _ _ => Or.inr hfailed.1
  have hexit : Under A (fun r => r = done.r ∨ fails) (exitRelease done.r fdLock) := by
    refine under_seq hrelease fun r hr => ?_
    cases hdone : done.r with
    | ok u => exact hr
    | error e => exact Or.inl rfl
  refine under_seq hexit fun r hr => ?_
  exact under_seq (under_true _) fun _ _ => under_seq (under_true _) fun _ _ => hr

end

/-! ### Down to the lock -/

section

variable (lib : Libnvram) (crc32 : Bytes → UInt32) (cfg : BuildConfig) (env : Environ)

/-- The invocation gets to the lock: its arguments split, its interface and its format are
compiled in, and its operations are accepted. -/
def Proceeds (args : List CString) : Prop :=
  ∃ items, commandLine args = some items ∧
    (nvramGetInterface cfg (interfaceNameOf cfg env (finalOpts items))).isSome ∧
    (nvramGetFormat lib crc32 cfg (formatNameOf cfg env (finalOpts items))).isSome ∧
    Accepted cfg env (lastMode items) (requested items)

/-- The same of options that were read. -/
def OptsProceed (opts : Opts) : Prop :=
  (nvramGetInterface cfg (interfaceNameOf cfg env opts)).isSome ∧
    (nvramGetFormat lib crc32 cfg (formatNameOf cfg env opts)).isSome ∧
    Accepted cfg env opts.mode opts.operations

variable {lib crc32 cfg env}

theorem Proceeds.opts {args : List CString} (h : Proceeds lib crc32 cfg env args)
    {items : List Item} (hitems : commandLine args = some items) :
    OptsProceed lib crc32 cfg env (finalOpts items) := by
  obtain ⟨items', hitems', hinterface, hformat, haccepted⟩ := h
  obtain rfl : items = items' := Option.some.inj (hitems.symm.trans hitems')
  refine ⟨hinterface, hformat, ?_⟩
  rw [finalOpts_mode, finalOpts_operations]
  exact haccepted

end

namespace Observed

variable {lib : Libnvram} {crc32 : Bytes → UInt32} {cfg : BuildConfig} {env : Environ} {σ : Type}
  {W : World callSig σ} {i : Interface} {fails : Prop} {C : σ → Prop} {s : σ}
  (O : Observed lib W i fails) (hstop : ∀ t, O.Same s t → C t)

theorem quiet_exitClose {format : NvramFormat} (F : format.Frame) (done : AtExit format)
    {paths paths' : CString → Prop} (hsystem : ∀ n ∈ done.nvramSystem, F.On i paths n)
    (huser : ∀ n ∈ done.nvramUser, F.On i paths' n) (fdLock : Option Fd) :
    Confined (Call.Quiet i) (fun _ => True) (exitClose format fdLock done) :=
  (confined_exitClose F done (fun _ h => h.quiet) (fun _ => Call.quiet_of_isLock rfl)
    (fun _ => Call.quiet_of_isLock rfl) (fun _ h => h.quiet) (fun _ h => h.quiet) hsystem huser
    fdLock).mono (fun _ h => h) fun _ _ => trivial

theorem quiet_acquireLockfile :
    Confined (Call.Quiet i) (fun _ => True) (acquireLockfile NVRAM_LOCKFILE) := by
  rw [acquireLockfile, openLock_bind]
  refine ⟨Call.quiet_of_isLock rfl, fun r => ?_⟩
  cases r with
  | error e => exact ⟨(Call.inner_fprintfStderr _ _).quiet, fun _ => trivial⟩
  | ok fd =>
      exact confined_acquireRetry (fun _ h => h.quiet) (Call.quiet_of_isLock rfl)
        (Call.quiet_of_isLock rfl) _ _

include hstop

theorem wp_session {format : NvramFormat} (F : format.Frame) (interfaceName formatName : CString)
    (opts : Opts) {Q : Except Errno Unit → σ → Prop}
    (hrefused : ∀ r t, O.Same s t →
      fails ∨ (¬ Accepted cfg env opts.mode opts.operations ∧ ∃ e, r = .error e) → Q r t)
    (hwork : Accepted cfg env opts.mode opts.operations → ∀ t, O.Same s t →
      wp W (fun done u => ∀ v, O.Same u v → C v ∧ ∀ r, r = done.r ∨ fails → Q r v) C
        (withLock lib cfg env format i interfaceName opts) t) :
    wp W Q C (session lib cfg env format i interfaceName formatName opts) s := by
  -- the exit without a lock
  have hnone : ∀ r t, O.Same s t →
      fails ∨ (¬ Accepted cfg env opts.mode opts.operations ∧ ∃ e, r = .error e) →
      wp W Q C (exitClose format none ⟨r, none, none⟩) t := by
    intro r t ht hr
    have hhandles : ∀ n ∈ (none : Option format.StructNvram), F.On i (fun _ => False) n :=
      fun _ h => by cases h
    refine wp_mono (fun r' u h => ?_) (fun u h => hstop u (O.trans ht h))
      (O.wp_quiet (quiet_exitClose F ⟨r, none, none⟩ hhandles hhandles none)
        (under_exitClose (O.truthful _) none ⟨r, none, none⟩))
    obtain ⟨hr', hsame⟩ := h
    refine hrefused r' u (O.trans ht hsame) ?_
    rcases hr' with rfl | hfails
    · exact hr
    · exact Or.inl hfails
  rw [session_eq]
  refine O.wp_inner_seq (O.refl s) hstop (inner_printResolved interfaceName formatName opts.mode)
    fun _ t _ ht => ?_
  refine O.wp_inner_seq ht hstop (inner_validateOperations cfg env opts.mode opts.operations)
    fun r u hr hu => ?_
  cases r with
  | error e =>
      have hno : ¬ Accepted cfg env opts.mode opts.operations := fun h => by cases hr.mpr h
      exact hnone _ u hu (Or.inr ⟨hno, e, rfl⟩)
  | ok _ =>
      refine O.wp_quiet_seq hu hstop quiet_acquireLockfile
        (under_acquireLockfile (O.truthful _) _) fun lock w hlock hw => ?_
      cases lock with
      | error e =>
          have hfails : fails := (hlock.resolve_left fun h => by
            obtain ⟨fd, h⟩ := h
            cases h).1
          exact hnone _ w hw (Or.inl hfails)
      | ok fd =>
          have hhandles := admits_withLock lib cfg env interfaceName opts i F
          refine wp_seq (wp_confined hhandles (hwork (hr.mp rfl) w hw)) fun done x hdone => ?_
          obtain ⟨⟨hsystem, huser⟩, hQ⟩ := hdone
          exact wp_mono (fun r v h => (hQ v h.2).2 r h.1) (fun v h => (hQ v h).1)
            (O.wp_quiet (quiet_exitClose F done hsystem huser (some fd))
              (under_exitClose (O.truthful _) (some fd) done))

/-- What follows the options is the part under the lock where the invocation proceeds, and
otherwise it changes nothing. -/
theorem wp_resolveAndRun {opts : Opts} {Q : Except Errno Unit → σ → Prop}
    (hinterface : ∀ j, nvramGetInterface cfg (interfaceNameOf cfg env opts) = some j → j = i)
    (hrefused : ∀ r t, O.Same s t →
      fails ∨ (¬ OptsProceed lib crc32 cfg env opts ∧ ∃ e, r = .error e) → Q r t)
    (hwork : ∀ format, nvramGetInterface cfg (interfaceNameOf cfg env opts) = some i →
      nvramGetFormat lib crc32 cfg (formatNameOf cfg env opts) = some format →
      Accepted cfg env opts.mode opts.operations → ∀ t, O.Same s t →
        wp W (fun done u => ∀ v, O.Same u v → C v ∧ ∀ r, r = done.r ∨ fails → Q r v) C
          (withLock lib cfg env format i (interfaceNameOf cfg env opts) opts) t) :
    wp W Q C (resolveAndRun lib crc32 cfg env opts) s := by
  have hunresolved : ∀ (fmt : String) (args : List Arg), ¬ OptsProceed lib crc32 cfg env opts →
      wp W Q C (do
        fprintfStderr fmt args
        exitRelease (.error einval) none) s := by
    intro fmt args hno
    refine O.wp_inner (O.refl s) hstop (inner_exitUnresolved fmt args) fun r u hr hu => ?_
    exact hrefused r u hu (Or.inr ⟨hno, einval, hr⟩)
  unfold resolveAndRun
  dsimp only
  split
  · rename_i hnone
    refine hunresolved _ _ fun hproceed => ?_
    have hsome := hproceed.1
    rw [interfaceNameOf, hnone] at hsome
    cases hsome
  · rename_i j hj
    obtain rfl : j = i := hinterface j hj
    split
    · rename_i hnone
      refine hunresolved _ _ fun hproceed => ?_
      have hsome := hproceed.2.1
      rw [formatNameOf, hnone] at hsome
      cases hsome
    · rename_i format hformat
      obtain ⟨F⟩ := nvramGetFormat_frame lib crc32 hformat
      refine O.wp_session hstop F _ _ _ (fun r u hu hr => hrefused r u hu ?_)
        (hwork format hj hformat)
      exact hr.imp_right fun h => ⟨fun hproceed => h.1 hproceed.2.2, h.2⟩

/-- `main` is the part under the lock where the invocation proceeds, and otherwise it changes
nothing. -/
theorem wp_main {args : List CString} {Q : ℕ → σ → Prop}
    (hinterface : ∀ items j, commandLine args = some items →
      nvramGetInterface cfg (interfaceNameOf cfg env (finalOpts items)) = some j → j = i)
    (hrefused : ∀ c t, O.Same s t → fails ∨ (¬ Proceeds lib crc32 cfg env args ∧ c ≠ 0) → Q c t)
    (hwork : ∀ items format, commandLine args = some items →
      nvramGetInterface cfg (interfaceNameOf cfg env (finalOpts items)) = some i →
      nvramGetFormat lib crc32 cfg (formatNameOf cfg env (finalOpts items)) = some format →
      Accepted cfg env (lastMode items) (requested items) → ∀ t, O.Same s t →
        wp W (fun done u => ∀ v, O.Same u v → C v ∧
            ∀ c, c = exitStatus done.r ∨ fails → Q c v) C
          (withLock lib cfg env format i (interfaceNameOf cfg env (finalOpts items))
            (finalOpts items)) t) :
    wp W Q C (main lib crc32 cfg env args) s := by
  have hexit : ∀ (e : Errno) t, O.Same s t → fails ∨ ¬ Proceeds lib crc32 cfg env args →
      wp W Q C (do return exitStatus (← exitRelease (.error e) none)) t := by
    intro e t ht hwhy
    refine O.wp_inner ht hstop (inner_exitEarly e) fun c u hc hu => ?_
    exact hrefused c u hu (hwhy.imp_right fun hno => ⟨hno, hc ▸ e.pos.ne'⟩)
  have hresolve : ∀ items, commandLine args = some items → ∀ t, O.Same s t →
      wp W (fun r u => Q (exitStatus r) u) C
        (resolveAndRun lib crc32 cfg env (finalOpts items)) t := by
    intro items hitems t ht
    refine O.wp_resolveAndRun (fun u h => hstop u (O.trans ht h))
      (fun j => hinterface items j hitems) (fun r u hu hr => ?_)
      fun format hj hformat haccepted u hu => ?_
    · refine hrefused _ u (O.trans ht hu) (hr.imp_right fun h => ?_)
      obtain ⟨hno, e, rfl⟩ := h
      exact ⟨fun hproceeds => hno (hproceeds.opts hitems), e.pos.ne'⟩
    · refine wp_mono (fun done w h v hv => ⟨(h v hv).1, fun r hr => ?_⟩) (fun _ h => h)
        (hwork items format hitems hj hformat (by simpa using haccepted) u (O.trans ht hu))
      exact (h v hv).2 _ (hr.imp_left (congrArg exitStatus))
  rw [main_eq]
  refine O.wp_inner_seq (O.refl s) hstop (inner_enableDebugOf env) fun _ t _ ht => ?_
  have hparse := (confined_parseArgs cfg env Opts.initial args).mono
    (fun _ h => h.quiet (i := i)) fun _ h => h
  refine O.wp_quiet_seq ht hstop hparse (under_parseArgs (O.truthful _) cfg env args)
    fun r u hr hu => ?_
  cases hitems : commandLine args with
  | none =>
      have hno : ¬ Proceeds lib crc32 cfg env args := fun h => by
        obtain ⟨items, hsome, _⟩ := h
        rw [hitems] at hsome
        cases hsome
      rw [hitems] at hr
      rcases hr with ⟨e, rfl⟩ | hfailed
      · exact hexit e u hu (Or.inr hno)
      · obtain ⟨e, rfl⟩ := hfailed.2
        exact hexit e u hu (Or.inl hfailed.1)
  | some items =>
      rw [hitems] at hr
      rcases hr with hok | hfailed
      · obtain rfl : r = .ok (items.foldl Item.apply Opts.initial) := hok
        have hdefault := (confined_defaultOperation items).mono
          (fun _ h => h.quiet (i := i)) fun _ h => h
        refine O.wp_quiet_seq hu hstop hdefault (under_defaultOperation (O.truthful _) items)
          fun r w hr hw => ?_
        rcases hr with rfl | hfailed
        · exact wp_seq (hresolve items hitems w hw) fun _ _ h => h
        · obtain ⟨e, rfl⟩ := hfailed.2
          exact hexit e w hw (Or.inl hfailed.1)
      · obtain ⟨e, rfl⟩ := hfailed.2
        exact hexit e u hu (Or.inl hfailed.1)

end Observed

/-- An invocation that does not consist of changes leaves the contents as they were. -/
theorem Healthy.run_main_contents {lib : Libnvram} (crc32 : Bytes → UInt32) {cfg : BuildConfig}
    {env : Environ} {σ : Type} {i : Interface} {h : Handler callSig σ} (H : Healthy lib i h)
    {args : List CString}
    (hinterface : ∀ items j, commandLine args = some items →
      nvramGetInterface cfg (interfaceNameOf cfg env (finalOpts items)) = some j → j = i)
    (hshows : ∀ items, commandLine args = some items → ¬ ∀ it ∈ requested items, it.Changes)
    (s : σ) : H.contents (run h (main lib crc32 cfg env args) s).2 = H.contents s := by
  have hconfined : Confined (fun o : Call => (∀ j, o.interface? = some j → j = i) ∧
      o.isWrite = false) (fun _ => True) (main lib crc32 cfg env args) := by
    refine (confined_main lib crc32 cfg env (fun o h => ⟨by simp [h.1], h.2.2.2.2⟩)
      fun items hitems j hj o ho => ?_).mono (fun _ h => h) fun _ _ => trivial
    obtain rfl := hinterface items j hitems hj
    rcases ho with ⟨_, hwrite, hi⟩ | ⟨haccepted, hadmits⟩
    · exact ⟨hi, hwrite⟩
    · refine ⟨hadmits.1, Bool.eq_false_iff.mpr fun hwrite => hshows items hitems ?_⟩
      exact haccepted.all_change (hadmits.2.2.1 hwrite).1
  exact run_preserves (I := fun t => H.contents t = H.contents s)
    (fun o t ho ht => (H.keeps o t ho.1 ho.2).trans ht) hconfined rfl

/-! ### Under the lock -/

/-- The mode has the system side, or the user side. -/
def Mode.reaches (mode : Mode) (system : Bool) : Bool :=
  if system then mode.systemWrite || mode.systemRead else mode.userWrite || mode.userRead

/-- The sections of the system side or of the user side, after overrides and environment. -/
def sideSections (cfg : BuildConfig) (env : Environ) (interfaceName : CString) (opts : Opts)
    (system : Bool) : Option CString × Option CString :=
  let sect := resolveSection cfg env interfaceName
  if system then (sect opts.systemAOverride .systemA, sect opts.systemBOverride .systemB)
  else (sect opts.userAOverride .userA, sect opts.userBOverride .userB)

/-- The sections of the side that the options write. -/
def writtenSections (cfg : BuildConfig) (env : Environ) (opts : Opts) :
    Option CString × Option CString :=
  sideSections cfg env (interfaceNameOf cfg env opts) opts opts.mode.systemWrite

/-- A mode reaches the side that it writes. -/
theorem lastMode_reaches (items : List Item) :
    (lastMode items).reaches (lastMode items).systemWrite = true := by
  rcases lastMode_cases items with h | h | h <;> rw [h] <;> rfl

/-- What an init of the format returns, from what the sections show. -/
structure NvramFormat.InitSpec (format : NvramFormat) (lib : Libnvram) where
  Opens : View → Interface → Option CString × Option CString →
    Except Errno (format.StructNvram × List Entry) → Prop
  init : ∀ {v : View} {fails : Prop} {A : (o : Call) → Call.Res o → Prop},
    Truthful lib v fails A → ∀ (i : Interface) (sections : Option CString × Option CString),
    (∀ p, configured sections.1 = some p → v.Section p) →
    (∀ p, configured sections.2 = some p → v.Section p) →
    Under A (fun r => Opens v i sections r ∨ Failed fails r)
      (format.init i sections.1 sections.2)

namespace NvramFormat.InitSpec

variable {format : NvramFormat} {lib : Libnvram} (S : format.InitSpec lib)

/-- What `main` holds of a side after its init returned 0. -/
def SideOpened (v : View) (i : Interface) (wanted : Bool)
    (sections : Option CString × Option CString)
    (side : Option format.StructNvram × List Entry) : Prop :=
  match side.1 with
  | some nvram => wanted = true ∧ S.Opens v i sections (.ok (nvram, side.2))
  | none => wanted = false ∧ side.2 = []

/-- The init of a side can fail. -/
def SideFails (v : View) (i : Interface) (wanted : Bool)
    (sections : Option CString × Option CString) : Prop :=
  wanted = true ∧ ∃ e, S.Opens v i sections (.error e)

theorem under_initSide {v : View} {fails : Prop} {A : (o : Call) → Call.Res o → Prop}
    (hA : Truthful lib v fails A) (i : Interface) (wanted : Bool) (labelA labelB : String)
    {sections : Option CString × Option CString}
    (hsecA : ∀ p, configured sections.1 = some p → v.Section p)
    (hsecB : ∀ p, configured sections.2 = some p → v.Section p) :
    Under A (fun r => (∃ side, r = .ok side ∧ S.SideOpened v i wanted sections side) ∨
        (fails ∨ S.SideFails v i wanted sections) ∧ ∃ e, r = .error e)
      (initSide format i wanted labelA labelB sections.1 sections.2) := by
  cases wanted with
  | false => exact Or.inl ⟨_, rfl, rfl, rfl⟩
  | true =>
      rw [initSide, if_pos rfl, prDbg_bind]
      intro _ _
      rw [prDbg_bind]
      intro _ _
      refine under_seq (S.init hA i sections hsecA hsecB) fun r hr => ?_
      cases r with
      | error e =>
          refine Or.inr ⟨?_, e, rfl⟩
          rcases hr with hopens | hfailed
          · exact Or.inr ⟨rfl, e, hopens⟩
          · exact Or.inl hfailed.1
      | ok opened =>
          have hopens := hr.resolve_right fun hfailed => by
            obtain ⟨_, e, h⟩ := hfailed
            cases h
          exact Or.inl ⟨_, rfl, rfl, hopens⟩

end NvramFormat.InitSpec

namespace Observed

variable {lib : Libnvram} {cfg : BuildConfig} {env : Environ} {σ : Type} {W : World callSig σ}
  {i : Interface} {fails : Prop} {C : σ → Prop} {s : σ} (O : Observed lib W i fails)
  (hstop : ∀ t, O.Same s t → C t)

theorem quiet_initSide {format : NvramFormat} (F : format.Frame) (wanted : Bool)
    (labelA labelB : String) (sectionA sectionB : Option CString) :
    Confined (Call.Quiet i) (fun _ => True)
      (initSide format i wanted labelA labelB sectionA sectionB) :=
  (reads_initSide F wanted labelA labelB).mono (fun _ h => h.quiet) fun _ _ => trivial

include hstop

/-- The part under the lock is the execution of the operations on what was loaded. -/
theorem wp_withLock {format : NvramFormat} (F : format.Frame) (S : format.InitSpec lib)
    (interfaceName : CString) (opts : Opts) {Q : AtExit format → σ → Prop}
    (hsections : ∀ system,
      (∀ p, configured (sideSections cfg env interfaceName opts system).1 = some p → O.Section p) ∧
        ∀ p, configured (sideSections cfg env interfaceName opts system).2 = some p → O.Section p)
    (hfailed : ∀ done t, O.Same s t → (∃ e, done.r = .error e) → fails ∨
        (∃ system, S.SideFails (O.view s) i (opts.mode.reaches system)
          (sideSections cfg env interfaceName opts system)) → Q done t)
    (hexec : ∀ system user t, O.Same s t →
      S.SideOpened (O.view s) i (opts.mode.reaches true)
        (sideSections cfg env interfaceName opts true) system →
      S.SideOpened (O.view s) i (opts.mode.reaches false)
        (sideSections cfg env interfaceName opts false) user →
      wp W (fun r u => Q ⟨r, system.1, user.1⟩ u) C
        (executeOperations lib opts.mode format opts.operations system.1 system.2 user.1 user.2)
        t) :
    wp W Q C (withLock lib cfg env format i interfaceName opts) s := by
  have hside := fun system labelA labelB => S.under_initSide (O.truthful (O.view s)) i
    (opts.mode.reaches system) labelA labelB (hsections system).1 (hsections system).2
  unfold withLock
  refine O.wp_quiet_seq (O.refl s) hstop (quiet_initSide F _ _ _ _ _) (hside true _ _)
    fun r t hr ht => ?_
  rcases hr with ⟨system, rfl, hsystem⟩ | ⟨hwhy, e, rfl⟩
  swap
  · exact hfailed _ t ht ⟨e, rfl⟩ (hwhy.imp_right fun h => ⟨true, h⟩)
  refine O.wp_quiet_seq ht hstop (quiet_initSide F _ _ _ _ _) (hside false _ _)
    fun r u hr hu => ?_
  rcases hr with ⟨user, rfl, huser⟩ | ⟨hwhy, e, rfl⟩
  · exact wp_seq (hexec system user u hu hsystem huser) fun _ _ h => h
  · exact hfailed _ u hu ⟨e, rfl⟩ (hwhy.imp_right fun h => ⟨false, h⟩)

/-- A batch of changes: either it finds nothing to do, or the changed list is committed. -/
theorem wp_executeOperations_edits {format : NvramFormat} {mode : Mode}
    (hmode : mode.systemWrite = true ∨ mode.userWrite = true) {operations : List Operation}
    (hops : ∀ it ∈ operations, it.Changes) {nvramSystem nvramUser : Option format.StructNvram}
    {listSystem listUser : List Entry} {Q : Except Errno Unit → σ → Prop}
    (hfailed : fails → ∀ e t, O.Same s t → Q (.error e) t)
    (hidle : ∀ t, O.Same s t → (∀ e ∈ edits operations,
      editList lib (if mode.systemWrite then listSystem else listUser) e = none) → Q (.ok ()) t)
    (hcommit : ∀ t, O.Same s t → ¬ (∀ e ∈ edits operations,
      editList lib (if mode.systemWrite then listSystem else listUser) e = none) →
      wp W Q C (commitList format (if mode.systemWrite then nvramSystem else nvramUser)
        (editAll lib (if mode.systemWrite then listSystem else listUser) (edits operations))) t) :
    wp W Q C (executeOperations lib mode format operations nvramSystem listSystem nvramUser
      listUser) s := by
  have hquiet : Confined (Call.Quiet i) (fun _ => True)
      (executeEach lib mode operations ⟨listSystem, listUser, false⟩) :=
    (inner_executeEach lib mode hops _).mono (fun _ h => h.quiet) fun _ h => h
  -- the state at the start, and its side
  generalize hst : (⟨listSystem, listUser, false⟩ : ExecState) = st at hquiet ⊢
  have hside : (if mode.systemWrite then listSystem else listUser) = st.side mode := by
    rw [← hst]
    rfl
  have hclean : st.writePerformed = false := by rw [← hst]
  have hperformed := ExecState.not_performed_iff lib mode hclean (edits operations)
  have hafter := ExecState.side_foldl_edit lib mode st (edits operations)
  rw [hside] at hidle hcommit
  unfold executeOperations
  rw [hst]
  refine O.wp_quiet_seq (O.refl s) hstop hquiet
    (under_executeEach_edits (O.truthful _) hmode hops _) fun r t hr ht => ?_
  rcases hr with rfl | hfail
  swap
  · obtain ⟨e, rfl⟩ := hfail.2
    exact hfailed hfail.1 e t ht
  dsimp only
  cases hwritten : ((edits operations).foldl (ExecState.edit lib mode) st).writePerformed with
  | false => exact hidle t ht (hperformed.mp hwritten)
  | true =>
      rw [if_pos rfl, prDbg_bind]
      refine O.wp_quiet_op ht hstop (Call.inner_printDebug _ _).quiet fun _ u hu => ?_
      have hbusy : ¬ ∀ e ∈ edits operations, editList lib (st.side mode) e = none := fun h => by
        rw [hperformed.mpr h] at hwritten
        cases hwritten
      have hrun := hcommit u hu hbusy
      rw [← hafter] at hrun
      cases hsw : mode.systemWrite with
      | true =>
          rw [ExecState.side, if_pos hsw, if_pos hsw] at hrun
          rw [if_pos rfl]
          exact hrun
      | false =>
          have huw : mode.userWrite = true := hmode.resolve_left (by simp [hsw])
          rw [ExecState.side, if_neg (by simp [hsw]), if_neg (by simp [hsw])] at hrun
          rw [if_neg Bool.false_ne_true, if_pos huw]
          exact hrun

omit hstop in
/-- Where nothing fails, an invocation with a format comes down to the execution of its operations
on what the sides that its mode reaches have opened. -/
theorem wp_invocation (O : Observed lib W i False) {crc32 : Bytes → UInt32} {format : NvramFormat}
    (F : format.Frame) (S : format.InitSpec lib) {args : List CString} {items : List Item}
    {Q : ℕ → σ → Prop} (hitems : commandLine args = some items)
    (hinterface : ∀ j,
      nvramGetInterface cfg (interfaceNameOf cfg env (finalOpts items)) = some j → j = i)
    (hformat : ∀ found,
      nvramGetFormat lib crc32 cfg (formatNameOf cfg env (finalOpts items)) = some found →
        found = format)
    (hsections : ∀ system,
      (∀ p, configured (sideSections cfg env (interfaceNameOf cfg env (finalOpts items))
        (finalOpts items) system).1 = some p → O.Section p) ∧
      ∀ p, configured (sideSections cfg env (interfaceNameOf cfg env (finalOpts items))
        (finalOpts items) system).2 = some p → O.Section p)
    (hrefused : ¬ Proceeds lib crc32 cfg env args → ∀ c t, O.Same s t → c ≠ 0 → Q c t)
    (hunloaded : ∀ system, S.SideFails (O.view s) i ((lastMode items).reaches system)
      (sideSections cfg env (interfaceNameOf cfg env (finalOpts items)) (finalOpts items) system) →
      ∀ c t, O.Same s t → c ≠ 0 → Q c t)
    (hexec : ∀ system user t, O.Same s t →
      S.SideOpened (O.view s) i ((lastMode items).reaches true) (sideSections cfg env
        (interfaceNameOf cfg env (finalOpts items)) (finalOpts items) true) system →
      S.SideOpened (O.view s) i ((lastMode items).reaches false) (sideSections cfg env
        (interfaceNameOf cfg env (finalOpts items)) (finalOpts items) false) user →
      wp W (fun r u => ∀ v, O.Same u v → Q (exitStatus r) v) (fun _ => True)
        (executeOperations lib (lastMode items) format (requested items) system.1 system.2 user.1
          user.2) t) :
    wp W Q (fun _ => True) (main lib crc32 cfg env args) s := by
  refine O.wp_main (fun _ _ => trivial) (fun items' j hitems' hj => ?_) (fun c t hst hwhy => ?_)
    fun items' found hitems' _ hfound _ t hst => ?_
  · obtain rfl := Option.some.inj (hitems.symm.trans hitems')
    exact hinterface j hj
  · obtain ⟨hno, hc⟩ := hwhy.resolve_left id
    exact hrefused hno c t hst hc
  · obtain rfl := Option.some.inj (hitems.symm.trans hitems')
    obtain rfl := hformat found hfound
    have hview := O.view_eq hst
    refine O.wp_withLock (fun _ _ => trivial) F S _ _ hsections
      (fun done u hu herror hwhy v hv => ⟨trivial, fun c hc => ?_⟩)
      fun system user u hu hsystem huser => ?_
    · obtain ⟨system, hfails⟩ := hwhy.resolve_left id
      rw [hview, finalOpts_mode] at hfails
      obtain ⟨e, he⟩ := herror
      refine hunloaded system hfails c v (O.trans hst (O.trans hu hv)) ?_
      rw [hc.resolve_right id, he]
      exact e.pos.ne'
    · rw [hview, finalOpts_mode] at hsystem huser
      rw [finalOpts_mode, finalOpts_operations]
      refine wp_mono (fun r w hw v hv => ⟨trivial, fun c hc => ?_⟩) (fun _ _ => trivial)
        (hexec system user u (O.trans hst hu) hsystem huser)
      rw [hc.resolve_right id]
      exact hw v hv

end Observed

end Nvram
