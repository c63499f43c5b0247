import Nvram.Program.Recovery

/-!
# Any number of processes, boot after boot

In every boot any number of processes run invocations for the v2 format on the same sections,
in any interleaving in which none removes the name of the lockfile under another one, on sections
on which every call can fail, until the power goes.  After any number of boots both sides hold the
maps that come from carrying out invocations one after the other: in each boot those that got the
lock, in the order in which they got it, each as a whole or not at all, and each that returned 0.
-/

namespace Nvram

open Effects Errno

/-- What becomes of the maps by an invocation with the lock: it is carried out, or it is left out
and has not returned 0. -/
inductive Settles (inv : Invocation) (value : Option ℕ) (maps : Maps) : Maps → Prop where
  | carriedOut : Settles inv value maps (inv.carriedOut maps)
  | leftOut : value ≠ some 0 → Settles inv value maps maps

/-- The processes of a boot, how far they have come, and those that have got the lock, in the
order in which they got it. -/
structure Boot (S : Sig) (I σ : Type) where
  invs : I → Invocation
  reached : Pool S ℕ I (LockPhase × LockTurn) (LockFs I × σ)
  order : List I

/-- The processes of the boot that have got the lock settle in the order in which they got it, each
of them once. -/
structure Boot.Settles {S : Sig} {I σ : Type} (b : Boot S I σ) (maps maps' : Maps) : Prop where
  nodup : b.order.Nodup
  mem_iff : ∀ i, i ∈ b.order ↔ (b.reached.mon i).2 ≠ .before
  steps : Steps (fun i => Nvram.Settles (b.invs i) (b.reached.prog i).value?) b.order maps maps'

/-- The processes start on the contents `s`, with a lockfile that nobody has open and whose name
none of them removes under another one, and when the power goes the contents are `t`. -/
def Boot.Runs {I : Type} [DecidableEq I] (lib : Libnvram) (crc32 : Bytes → UInt32)
    (cfg : BuildConfig) (b : Boot callSig I Contents) (s t : Contents) : Prop :=
  ∃ fs : LockFs I, fs.opened = [] ∧
    StoreLocks (powerStore lib) (storePool lib crc32 cfg
      (fun i => ((b.invs i).env, (b.invs i).args)) fs s) b.reached b.order ∧
    b.reached.Stopped (powerStore lib) t

/-- The maps that come from carrying out invocations. -/
inductive ReachesMaps (invs : Invocation → Prop) (maps : Maps) : Maps → Prop where
  | start : ReachesMaps invs maps maps
  | carriedOut {inv : Invocation} {maps' : Maps} : invs inv → ReachesMaps invs maps maps' →
      ReachesMaps invs maps (inv.carriedOut maps')

/-- An execution of an invocation that had the lock settles it. -/
theorem settles_of_wp {lib : Libnvram} {paths : SectionPaths} {invs : Invocation → Prop}
    {S : Sig} {σ : Type} {W : World S (σ × LockTurn)} (contents : σ → Contents) {start maps : Maps}
    {inv : Invocation} (hinv : invs inv) (hmaps : ReachesMaps invs start maps) {p : Prog S ℕ}
    {s t : σ × LockTurn}
    (hwp : wp W
      (fun code t => MapsAfter lib paths inv maps (t.2 = .before ∨ code ≠ 0) (contents t.1))
      (fun t => MapsAfter lib paths inv maps True (contents t.1)) p s)
    {value : Option ℕ} (hexec : Exec W p s value t) (hturn : t.2 ≠ .before) :
    ∃ maps', Settles inv value maps maps' ∧ HoldsMaps lib paths (contents t.1) maps' ∧
      ReachesMaps invs start maps' := by
  have hends := wp_iff_exec.mp hwp
  cases value with
  | none =>
      rcases hends.2 t hexec with hnew | ⟨-, hold⟩
      · exact ⟨_, .carriedOut, hnew, .carriedOut hinv hmaps⟩
      · exact ⟨maps, .leftOut (by simp), hold, hmaps⟩
  | some code =>
      rcases hends.1 code t hexec with hnew | ⟨hfailed, hold⟩
      · exact ⟨_, .carriedOut, hnew, .carriedOut hinv hmaps⟩
      · have hcode : some code ≠ some 0 := fun h => hfailed.resolve_left hturn (Option.some.inj h)
        exact ⟨maps, .leftOut hcode, hold, hmaps⟩

section

variable {lib : Libnvram} {crc32 : Bytes → UInt32} {cfg : BuildConfig} {i : Interface}
  {paths : SectionPaths} (hi : lib.ImageLaws) (ht : lib.TransactionLaws) (hl : lib.ListLaws)
  {invs : Invocation → Prop}
  (hkeeps : ∀ inv, invs inv → inv.KeepsTo lib crc32 cfg i paths.sections) {start : Maps}
  (hserial : ∀ maps, ReachesMaps invs start maps → ∀ system list, Represents list (maps system) →
    Serialises lib list)

include hi ht hl hkeeps hserial

variable {I : Type} [DecidableEq I]

/-- One boot settles the invocations of the processes that got the lock. -/
theorem Boot.Runs.settles {b : Boot callSig I Contents} (hinvs : ∀ j, invs (b.invs j))
    {s t : Contents} (h : b.Runs lib crc32 cfg s t) {maps : Maps}
    (hholds : HoldsMaps lib paths s maps) (hmaps : ReachesMaps invs start maps) :
    ∃ maps', b.Settles maps maps' ∧ HoldsMaps lib paths t maps' ∧
      ReachesMaps invs start maps' := by
  obtain ⟨fs, hfs, hlocks, hstop⟩ := h
  obtain ⟨maps', hnodup, hmem, hsteps, hend⟩ := Pool.Enters.simulates
    (R := turnRegion (powerStore_private lib))
    (J := fun maps u => HoldsMaps lib paths u maps ∧ ReachesMaps invs start maps)
    (monitored_storePool lib crc32 cfg _ fs s) (fun _ hentered => hentered rfl)
    (fun c hc i j hi hj => turn_unique hfs hc hi hj) (powerStore_halt_self lib) hlocks hstop
    (fun j hj maps u v hu hexec => settles_of_wp id (hinvs j) hu.2
      (wp_main_carriedOut lib crc32 cfg hi ht hl (hkeeps _ (hinvs j)) hu.1
        (hserial _ (.carriedOut (hinvs j) hu.2)))
      (hexec.watch_map Prod.snd fun _ _ _ => rfl) hj) ⟨hholds, hmaps⟩
  exact ⟨maps', ⟨hnodup, hmem, hsteps⟩, hend⟩

end

/-- After any number of boots, each of any number of processes in any interleaving until the power
goes, in which no process removes the name of the lockfile under another one, both sides hold maps
that come from settling the invocations that got the lock, boot after boot and in the order in which
they got it; and what a side loads stands for its map. -/
theorem boots_settle {lib : Libnvram} {crc32 : Bytes → UInt32} {cfg : BuildConfig} {i : Interface}
    {paths : SectionPaths} (hi : lib.ImageLaws) (ht : lib.TransactionLaws) (hl : lib.ListLaws)
    {I : Type} [DecidableEq I] {boots : List (Boot callSig I Contents)} {s t : Contents}
    (hruns : Steps (fun b : Boot callSig I Contents => b.Runs lib crc32 cfg) boots s t)
    (hkeeps : ∀ b ∈ boots, ∀ j, (b.invs j).KeepsTo lib crc32 cfg i paths.sections) {maps : Maps}
    (hholds : HoldsMaps lib paths s maps)
    (hserial : ∀ maps', ReachesMaps (fun inv => ∃ b ∈ boots, ∃ j, b.invs j = inv) maps maps' →
      ∀ system list, Represents list (maps' system) → Serialises lib list) :
    ∃ maps', Steps Boot.Settles boots maps maps' ∧ HoldsMaps lib paths t maps' ∧
      ∀ system list, Loads lib t (paths.sections system) list →
        Represents list (maps' system) := by
  have hall : ∀ inv, (∃ b ∈ boots, ∃ j, b.invs j = inv) →
      inv.KeepsTo lib crc32 cfg i paths.sections := by
    rintro inv ⟨b, hb, j, rfl⟩
    exact hkeeps b hb j
  have hstep : ∀ b ∈ boots, ∀ maps₁ s t,
      HoldsMaps lib paths s maps₁ ∧
        ReachesMaps (fun inv => ∃ b ∈ boots, ∃ j, b.invs j = inv) maps maps₁ →
      b.Runs lib crc32 cfg s t →
      ∃ maps₂, b.Settles maps₁ maps₂ ∧ HoldsMaps lib paths t maps₂ ∧
        ReachesMaps (fun inv => ∃ b ∈ boots, ∃ j, b.invs j = inv) maps maps₂ := by
    intro b hb maps₁ s t hs hrun
    exact hrun.settles hi ht hl hall hserial (fun j => ⟨b, hb, j, rfl⟩) hs.1 hs.2
  obtain ⟨maps', hsteps, hend, -⟩ := hruns.simulates hstep ⟨hholds, .start⟩
  refine ⟨maps', hsteps, hend, fun system list hloads => ?_⟩
  exact ((hend system).of_load ht (if_pos (paths.configuredA system))
    (if_pos (paths.configuredB system)) hloads).1

/-! ### Evaluated -/

theorem setKey_short : ∀ arg ∈ [lit "set", lit "key", lit "value"], arg.strlen < intMax := by
  decide

theorem getKey_short : ∀ arg ∈ [lit "get", lit "key"], arg.strlen < intMax := by
  decide

/-- A process that sets a key and one that gets it. -/
def setterAndGetter (getter : Bool) : Invocation :=
  if getter then ⟨fun _ => none, [lit "get", lit "key"], getKey_short⟩
  else ⟨fun _ => none, [lit "set", lit "key", lit "value"], setKey_short⟩

theorem setterAndGetter_mem (getter : Bool) : setterAndGetter getter ∈ setAndGet := by
  cases getter with
  | false => exact List.mem_cons_self
  | true => exact List.mem_cons_of_mem _ List.mem_cons_self

/-- The four sections of the sample configuration. -/
def samplePaths : SectionPaths where
  a system := if system then lit "sa" else lit "ua"
  b system := if system then lit "sb" else lit "ub"
  configuredA := by decide
  configuredB := by decide
  distinct := by decide
  disjoint := by decide

theorem samplePaths_sections :
    samplePaths.sections = sectionsOf sampleConfig (fun _ => none) [] := by
  funext system
  cases system with
  | true => rfl
  | false => rfl

/-- The two processes on blank sections, along a schedule. -/
def setterAndGetterRun (schedule : List Bool) :
    Pool callSig ℕ Bool (LockPhase × LockTurn) (LockFs Bool × Contents) :=
  schedule.foldl (Pool.advance storeMonitor plainOutside)
    (storePool plainLibnvram zlibCrc32 sampleConfig
      (fun i => ((setterAndGetter i).env, (setterAndGetter i).args)) (emptyLockFs Bool)
      fun _ => List.replicate 80 255)

def setterAndGetterBoot (schedule : List Bool) : Boot callSig Bool Contents where
  invs := setterAndGetter
  reached := setterAndGetterRun schedule
  order := Pool.entries storeMonitor plainOutside (fun m => m.2 ≠ .before) schedule
    (setterAndGetterRun [])

/-- The processes stop after the schedule. -/
theorem setterAndGetterBoot_runs (schedule : List Bool)
    (h : Pool.Meets storeMonitor plainOutside (fun s i o => Undisturbed s.1 i o) schedule
      (setterAndGetterRun [])) :
    (setterAndGetterBoot schedule).Runs plainLibnvram zlibCrc32 sampleConfig
      (fun _ => List.replicate 80 255) (setterAndGetterRun schedule).shared.2 :=
  ⟨emptyLockFs Bool, rfl, Pool.enters_foldl_advance plainOutside_step schedule h, Or.inl rfl⟩

/-- The getter gets as far as the lockfile, and goes on when the setter has returned. -/
def setThenGet : List Bool :=
  List.replicate 5 true ++ List.replicate 80 false ++ List.replicate 80 true

/-- The processes set one key. -/
theorem only_key_settled {invs : Invocation → Prop} (hinvs : ∀ inv, invs inv → inv ∈ setAndGet)
    {maps' : Maps} (h : ReachesMaps invs (fun _ _ => none) maps') (system : Bool)
    (key value : CString) (hvalue : maps' system key = some value) :
    (key, value) = (lit "key", lit "value") := by
  induction h generalizing system key value with
  | start => cases hvalue
  | @carriedOut inv maps₁ hinv _ ih =>
      have hmem := hinvs inv hinv
      rcases inv.carriedOut_eq_or maps₁ with hsame | ⟨items, hitems, hafter⟩
      · rw [hsame] at hvalue
        exact ih system key value hvalue
      · rw [hafter] at hvalue
        refine (Maps.eq_or_mem_of_after hvalue).elim (ih system key value) fun hset => ?_
        simp only [setAndGet, List.mem_cons, List.not_mem_nil, or_false] at hmem
        rcases hmem with rfl | rfl
        · obtain rfl : items = [.operation (.set (lit "key") (lit "value"))] :=
            Option.some.inj (hitems.symm.trans rfl)
          cases List.mem_singleton.mp hset
          rfl
        · obtain rfl : items = [.operation (.get (lit "key"))] :=
            Option.some.inj (hitems.symm.trans rfl)
          cases List.mem_singleton.mp hset

/-- Their maps are serialised. -/
theorem serialises_settled {invs : Invocation → Prop} (hinvs : ∀ inv, invs inv → inv ∈ setAndGet)
    {maps' : Maps} (h : ReachesMaps invs (fun _ _ => none) maps') (system : Bool)
    (list : List Entry) (hlist : Represents list (maps' system)) :
    Serialises plainLibnvram list := by
  rcases represents_single hlist (only_key_settled hinvs h system) with rfl | rfl
  · exact Plain.image_ne_nil (by decide)
  · exact Plain.image_ne_nil (by decide)

theorem boots_settle_sample :
    ((setterAndGetterRun setThenGet).prog false).value? = some 0 ∧
      ((setterAndGetterRun setThenGet).prog true).value? = some 0 ∧
      (setterAndGetterBoot setThenGet).order = [false, true] ∧
      ∃ maps', Steps Boot.Settles [setterAndGetterBoot setThenGet] (fun _ _ => none) maps' ∧
        HoldsMaps plainLibnvram samplePaths (setterAndGetterRun setThenGet).shared.2 maps' ∧
        ∀ system list, Loads plainLibnvram (setterAndGetterRun setThenGet).shared.2
          (samplePaths.sections system) list → Represents list (maps' system) := by
  have hblank : ¬ Verifies plainLibnvram (List.replicate 80 255) := by
    unfold Verifies
    decide
  refine ⟨by decide +kernel, by decide +kernel, by decide +kernel, boots_settle
    Plain.imageLaws Plain.transactionLaws Plain.listLaws
    (.snoc (.nil _) (setterAndGetterBoot_runs _ (by decide +kernel))) (i := .file)
    (fun b hb j => ?_) (fun system => .of_blank hblank hblank)
    fun maps' hmaps => serialises_settled (fun inv hinv => ?_) hmaps⟩
  · obtain rfl := List.mem_singleton.mp hb
    rw [samplePaths_sections]
    exact keepsTo_sample (setterAndGetter_mem j)
  · obtain ⟨b, hb, j, rfl⟩ := hinv
    obtain rfl := List.mem_singleton.mp hb
    exact setterAndGetter_mem j

end Nvram
