import Nvram.Program.Kept
import Nvram.Program.Refinement

/-!
# The program with a format that may refuse

A `Keeper` says what the results about whole runs use of a format on a healthy machine: what a
side loads, and how a commit ends.  With a keeper every run of invocations is one of the machine
of `KeepStep`.
-/

namespace Nvram

open Effects Errno

/-- How a commit of a list that stands for the settings `m` ends. -/
inductive CommitEnds {lib : Libnvram} {σ : Type} {i : Interface} {h : Handler callSig σ}
    (H : Healthy lib i h)
    (loads : Contents → Option CString × Option CString → List Entry → Prop) (keeps : Keeps)
    (sections : Option CString × Option CString) (m : Settings) (s : σ) (r : Except Errno Unit)
    (t : σ) : Prop where
  | kept (o : Option Settings) : keeps m o → r = .ok () →
      Holds (loads (H.contents t) sections) o →
      (∀ path, ¬ Configured sections path → H.contents t path = H.contents s path) →
      H.stdout t = H.stdout s → CommitEnds H loads keeps sections m s r t
  | refused : (∀ o, ¬ keeps m o) → (∃ e, r = .error e) → H.Same s t →
      CommitEnds H loads keeps sections m s r t

theorem CommitEnds.of_same {lib : Libnvram} {σ : Type} {i : Interface} {h : Handler callSig σ}
    {H : Healthy lib i h} {loads : Contents → Option CString × Option CString → List Entry → Prop}
    {keeps : Keeps} {sections : Option CString × Option CString} {m : Settings} {s t u v : σ}
    {r : Except Errno Unit} (hends : CommitEnds H loads keeps sections m t r u) (hst : H.Same s t)
    (huv : H.Same u v) : CommitEnds H loads keeps sections m s r v := by
  cases hends with
  | kept o hkeeps hok hholds hothers hstdout =>
      refine .kept o hkeeps hok ?_ (fun path hpath => ?_) ?_
      · rw [huv.1]
        exact hholds
      · rw [huv.1, hothers path hpath, hst.1]
      · rw [huv.2, hstdout, hst.2]
  | refused hno herror hsame => exact .refused hno herror (hst.trans (hsame.trans huv))

/-- What a format makes of settings on a healthy machine. -/
structure Keeper {lib : Libnvram} {σ : Type} {i : Interface} {h : Handler callSig σ}
    (H : Healthy lib i h) (format : NvramFormat) where
  frame : format.Frame
  spec : format.InitSpec lib
  /-- What an init of the sections loads. -/
  loads : Contents → Option CString × Option CString → List Entry → Prop
  keeps : Keeps
  loads_congr : ∀ {c c' : Contents} {sections : Option CString × Option CString}
    {list : List Entry}, (∀ path, Configured sections path → c' path = c path) →
    loads c sections list → loads c' sections list
  loads_unique : ∀ {c : Contents} {sections : Option CString × Option CString}
    {list list' : List Entry}, loads c sections list → loads c sections list' → list' = list
  loads_of_opens : ∀ {v : View} {sections : Option CString × Option CString}
    {nvram : format.StructNvram} {list : List Entry},
    spec.Opens v i sections (.ok (nvram, list)) → loads v.contents sections list
  not_loads_of_fails : ∀ {v : View} {sections : Option CString × Option CString} {e : Errno},
    spec.Opens v i sections (.error e) → ∀ list, ¬ loads v.contents sections list
  short : ∀ {m m' : Settings}, keeps m (some m') → m.Short → m'.Short
  commit : ∀ {sections : Option CString × Option CString} {nvram : format.StructNvram}
    {loaded list : List Entry} {m : Settings} {s t : σ},
    spec.Opens (H.view s) i sections (.ok (nvram, loaded)) → H.Same s t → Represents list m →
    CommitEnds H loads keeps sections m t (run h (format.commit nvram list) t).1.1
      (run h (format.commit nvram list) t).2

/-- The invocation keeps to the interface, to the format and to the sections. -/
structure Invocation.UsesFormat (lib : Libnvram) (crc32 : Bytes → UInt32) (cfg : BuildConfig)
    (i : Interface) (format : NvramFormat) (sections : Bool → Option CString × Option CString)
    (inv : Invocation) : Prop where
  interface : ∀ items j, commandLine inv.args = some items →
    nvramGetInterface cfg (interfaceNameOf cfg inv.env (finalOpts items)) = some j → j = i
  format : ∀ items found, commandLine inv.args = some items →
    nvramGetFormat lib crc32 cfg (formatNameOf cfg inv.env (finalOpts items)) = some found →
    found = format
  sections : ∀ items system, commandLine inv.args = some items →
    nvramGetInterface cfg (interfaceNameOf cfg inv.env (finalOpts items)) = some i →
    sectionsOf cfg inv.env items system = sections system

/-- A step keeps the settings short. -/
theorem KeepStep.short {lib : Libnvram} {crc32 : Bytes → UInt32} {cfg : BuildConfig}
    {keeps : Keeps} {kept kept' : Kept} {inv : Invocation} {seen : Observation}
    (hstep : KeepStep lib crc32 cfg keeps kept inv seen kept')
    (hkeeps : ∀ {m m' : Settings}, keeps m (some m') → m.Short → m'.Short)
    (hshort : ∀ system, (kept.maps system).Short) (system : Bool) : (kept'.maps system).Short := by
  cases hstep with
  | rejected _ => exact hshort system
  | unloaded _ _ _ _ => exact hshort system
  | idle _ _ _ _ => exact hshort system
  | refused _ _ _ _ _ => exact hshort system
  | shows _ _ _ => exact hshort system
  | @committed items m o hstarts _ hm _ hkept =>
      have hafter : (m.after (requested items)).Short := by
        intro key value hvalue
        rcases Settings.eq_or_mem_of_after hvalue with hold | hset
        · rw [← Kept.maps_of_some hm] at hold
          exact hshort _ key value hold
        · obtain ⟨hkey, hvalue⟩ := (sentence_iff.mpr hstarts.arguments).mem_of_set
            (mem_of_set_requested hset)
          exact ⟨inv.short key hkey, inv.short value hvalue⟩
      by_cases hwritten : system = (lastMode items).systemWrite
      swap
      · rw [Kept.maps, Function.update_of_ne hwritten]
        exact hshort system
      subst hwritten
      cases o with
      | none =>
          rw [Kept.maps_of_none (Function.update_self ..)]
          intro key value hnone
          cases hnone
      | some m' =>
          rw [Kept.maps_of_some (Function.update_self ..)]
          exact hkeeps hkept hafter

/-- Where settings are kept as they are, a step is one of the machine that never refuses. -/
theorem KeepStep.refStep {lib : Libnvram} {crc32 : Bytes → UInt32} {cfg : BuildConfig}
    {keeps : Keeps} {maps : Maps} {kept' : Kept} {inv : Invocation} {seen : Observation}
    (hstep : KeepStep lib crc32 cfg keeps (fun system => some (maps system)) inv seen kept')
    (hkeeps : ∀ items, commandLine inv.args = some items → ∀ o,
      keeps ((maps (lastMode items).systemWrite).after (requested items)) o ↔
        o = some ((maps (lastMode items).systemWrite).after (requested items))) :
    ∃ maps', kept' = (fun system => some (maps' system)) ∧
      RefStep lib crc32 cfg maps inv seen maps' := by
  cases hstep with
  | rejected hno => exact ⟨maps, rfl, .rejected hno⟩
  | unloaded _ _ _ hnone => cases hnone
  | @idle items m hstarts hchanges hm hidle =>
      obtain rfl := Option.some.inj hm
      have hsame : maps.after (lastMode items) (requested items) = maps := by
        rw [Maps.after, hidle.after_eq, Function.update_eq_self]
      have href : RefStep lib crc32 cfg maps inv ⟨true, []⟩
          (maps.after (lastMode items) (requested items)) :=
        .changes hstarts.proceeds hstarts.arguments hchanges
      rw [hsame] at href
      exact ⟨maps, rfl, href⟩
  | @committed items m o hstarts hchanges hm _ hkept =>
      obtain rfl := Option.some.inj hm
      obtain rfl := (hkeeps items hstarts.arguments o).mp hkept
      refine ⟨_, ?_, .changes hstarts.proceeds hstarts.arguments hchanges⟩
      funext system
      by_cases hwritten : system = (lastMode items).systemWrite
      · subst hwritten
        rw [Function.update_self, Maps.after, Function.update_self]
      · rw [Function.update_of_ne hwritten, Maps.after, Function.update_of_ne hwritten]
  | @refused items m hstarts _ hm _ hno =>
      obtain rfl := Option.some.inj hm
      exact absurd ((hkeeps items hstarts.arguments _).mpr rfl) (hno _)
  | shows hstarts hshows henumerates =>
      exact ⟨maps, rfl, .shows hstarts.proceeds hstarts.arguments hshows henumerates⟩

/-- The operations of the invocation for a side. -/
def Invocation.writes (inv : Invocation) (system : Bool) : List Operation :=
  (commandLine inv.args).elim [] fun items =>
    if (lastMode items).systemWrite = system then requested items else []

theorem Invocation.writes_eq {inv : Invocation} {items : List Item}
    (h : commandLine inv.args = some items) (system : Bool) :
    inv.writes system = if (lastMode items).systemWrite = system then requested items else [] := by
  rw [writes, h, Option.elim_some]

/-- Where settings are committed as their normal form, a successful step leaves the normal form of
what the operations say. -/
theorem KeepStep.eq_after {lib : Libnvram} {crc32 : Bytes → UInt32} {cfg : BuildConfig}
    {keeps : Keeps} {normal : Settings → Settings} {maps : Maps} {kept' : Kept} {inv : Invocation}
    {seen : Observation}
    (hstep : KeepStep lib crc32 cfg keeps (fun system => some (maps system)) inv seen kept')
    (hkeeps : ∀ m o, keeps m o → o = some (normal m))
    (hnormal : ∀ system, normal (maps system) = maps system) (hok : seen.success = true) :
    kept' = fun system => some (normal ((maps system).after (inv.writes system))) := by
  have hnone : ∀ m : Settings, m.after [] = m := fun m => rfl
  -- a step that changes nothing
  have hsame : (∀ system, (maps system).after (inv.writes system) = maps system) →
      (fun system => some (maps system)) =
        fun system => some (normal ((maps system).after (inv.writes system))) := by
    intro hafter
    funext system
    rw [hafter, hnormal]
  cases hstep with
  | rejected _ => cases hok
  | unloaded _ _ _ _ => cases hok
  | refused _ _ _ _ _ => cases hok
  | @idle items m hstarts _ hm hidle =>
      obtain rfl := Option.some.inj hm
      refine hsame fun system => ?_
      rw [inv.writes_eq hstarts.arguments]
      split_ifs with hwritten
      · subst hwritten
        exact hidle.after_eq
      · exact hnone _
  | @shows items texts hstarts hshows _ =>
      refine hsame fun system => Settings.Idle.after_eq ?_
      rw [inv.writes_eq hstarts.arguments]
      split_ifs
      · intro it hit key o hsetting
        have hshow := hshows it hit
        cases it with
        | set k value => exact hshow.elim
        | del k => exact hshow.elim
        | list => cases hsetting
        | get k => cases hsetting
      · intro it hit
        cases hit
  | @committed items m o hstarts _ hm _ hkept =>
      obtain rfl := Option.some.inj hm
      obtain rfl := hkeeps _ _ hkept
      funext system
      rw [inv.writes_eq hstarts.arguments]
      by_cases hwritten : (lastMode items).systemWrite = system
      · subst hwritten
        rw [if_pos rfl, Function.update_self]
      · rw [if_neg hwritten, hnone, hnormal, Function.update_of_ne (Ne.symm hwritten)]

/-- What every batch of the invocation keeps, a step keeps. -/
theorem RefStep.keeps_property {lib : Libnvram} {crc32 : Bytes → UInt32} {cfg : BuildConfig}
    {P : Settings → Prop} {maps maps' : Maps} {inv : Invocation} {seen : Observation}
    (hstep : RefStep lib crc32 cfg maps inv seen maps')
    (hclosed : ∀ items, commandLine inv.args = some items → ∀ m, P m →
      P (m.after (requested items)))
    (hmaps : ∀ system, P (maps system)) (system : Bool) : P (maps' system) := by
  cases hstep with
  | rejected _ => exact hmaps system
  | shows _ _ _ _ => exact hmaps system
  | @changes items _ hitems _ =>
      unfold Maps.after
      by_cases hwritten : system = (lastMode items).systemWrite
      · subst hwritten
        rw [Function.update_self]
        exact hclosed items hitems _ (hmaps _)
      · rw [Function.update_of_ne hwritten]
        exact hmaps system

/-- One operation, without an option and without a variable set, uses what the build has as its
defaults. -/
theorem Invocation.usesFormat_of_defaults {lib : Libnvram} {crc32 : Bytes → UInt32}
    {cfg : BuildConfig} {i : Interface} {format : NvramFormat}
    (hinterface : nvramGetInterface cfg cfg.interfaceDefault = some i)
    (hformat : nvramGetFormat lib crc32 cfg cfg.formatDefault = some format) {inv : Invocation}
    (it : Operation) (henv : inv.env = fun _ => none)
    (hitems : commandLine inv.args = some [.operation it]) :
    inv.UsesFormat lib crc32 cfg i format (sectionsOf cfg (fun _ => none) []) := by
  refine ⟨fun items j hitems' hj => ?_, fun items found hitems' hfound => ?_,
    fun items system hitems' _ => ?_⟩
  · obtain rfl := Option.some.inj (hitems.symm.trans hitems')
    rw [henv] at hj
    exact Option.some.inj (hj.symm.trans hinterface)
  · obtain rfl := Option.some.inj (hitems.symm.trans hitems')
    rw [henv] at hfound
    exact Option.some.inj (hfound.symm.trans hformat)
  · obtain rfl := Option.some.inj (hitems.symm.trans hitems')
    rw [henv]
    rfl

namespace Keeper

variable {lib : Libnvram} {crc32 : Bytes → UInt32} {cfg : BuildConfig} {σ : Type} {i : Interface}
  {h : Handler callSig σ} {H : Healthy lib i h} {format : NvramFormat} (K : Keeper H format)

/-! ### What the stores stand for -/

/-- The sides load lists that stand for what they hold. -/
def Stands (sections : Bool → Option CString × Option CString) (kept : Kept) (s : σ) : Prop :=
  ∀ system, Holds (K.loads (H.contents s) (sections system)) (kept system)

theorem loads_congr_iff {c c' : Contents} {sections : Option CString × Option CString}
    (hsame : ∀ path, Configured sections path → c' path = c path) (list : List Entry) :
    K.loads c' sections list ↔ K.loads c sections list := by
  constructor
  · exact K.loads_congr fun path hpath => (hsame path hpath).symm
  · exact K.loads_congr hsame

variable {K} {sections : Bool → Option CString × Option CString} {kept : Kept} {s t : σ}

theorem Stands.of_contents (hstands : K.Stands sections kept s) (ht : H.contents t = H.contents s) :
    K.Stands sections kept t := by
  intro system
  rw [ht]
  exact hstands system

/-- A side is given other settings, and the other side is left as it was. -/
theorem Stands.update (hstands : K.Stands sections kept s)
    (hdisjoint : ∀ path, ¬ (Configured (sections true) path ∧ Configured (sections false) path))
    {system : Bool} {o : Option Settings}
    (hholds : Holds (K.loads (H.contents t) (sections system)) o)
    (hkept : ∀ path, ¬ Configured (sections system) path →
      H.contents t path = H.contents s path) :
    K.Stands sections (Function.update kept system o) t := by
  intro other
  by_cases hother : other = system
  · subst hother
    rw [Function.update_self]
    exact hholds
  · rw [Function.update_of_ne hother]
    refine (hstands other).congr (K.loads_congr_iff fun path hpath => hkept path fun hpath' => ?_)
    apply hdisjoint path
    cases other with
    | true =>
        obtain rfl : system = false := by simpa using Ne.symm hother
        exact ⟨hpath, hpath'⟩
    | false =>
        obtain rfl : system = true := by simpa using Ne.symm hother
        exact ⟨hpath', hpath⟩

/-- Where a side loads a list, the list stands for what the side holds. -/
theorem Stands.of_loads (hstands : K.Stands sections kept s) {system : Bool} {list : List Entry}
    (hloads : K.loads (H.contents s) (sections system) list) :
    ∃ m, kept system = some m ∧ Represents list m := by
  have hholds := hstands system
  cases hkept : kept system with
  | none =>
      rw [hkept] at hholds
      exact absurd hloads (hholds list)
  | some m =>
      rw [hkept] at hholds
      obtain ⟨list', hloads', hrepresents⟩ := hholds
      obtain rfl := K.loads_unique hloads' hloads
      exact ⟨m, rfl, hrepresents⟩

/-- A side that can be loaded loads a list. -/
theorem Stands.exists_loads (hstands : K.Stands sections kept s) {system : Bool}
    (hsome : (kept system).isSome = true) :
    ∃ list, K.loads (H.contents s) (sections system) list := by
  obtain ⟨m, hm⟩ := Option.isSome_iff_exists.mp hsome
  have hholds := hstands system
  rw [hm] at hholds
  obtain ⟨list, hloads, -⟩ := hholds
  exact ⟨list, hloads⟩

/-! ### One invocation -/

/-- What is seen of an invocation that fails and does nothing else. -/
theorem observe_of_failed {inv : Invocation}
    (hwp : wp (World.ofHandler h) (fun c t => c ≠ 0 ∧ H.Same s t) (fun _ => True)
      (main lib crc32 cfg inv.env inv.args) s) :
    ∃ t, H.observe crc32 cfg inv s = (⟨false, []⟩, t) ∧ H.contents t = H.contents s := by
  rw [wp_ofHandler] at hwp
  obtain ⟨hstatus, hcontents, hstdout⟩ := hwp
  refine ⟨_, ?_, hcontents⟩
  rw [H.observe_silent rfl hstdout, decide_eq_false hstatus]

/-- The commit of `execute_operations` ends as that of the format. -/
theorem commitEnds_commitList {secs : Option CString × Option CString} {nvram : format.StructNvram}
    {loaded list : List Entry} {m : Settings}
    (hopens : K.spec.Opens (H.view s) i secs (.ok (nvram, loaded))) (hst : H.Same s t)
    (hlist : Represents list m) :
    CommitEnds H K.loads K.keeps secs m t (run h (commitList format (some nvram) list) t).1
      (run h (commitList format (some nvram) list) t).2 := by
  have hends := K.commit hopens hst hlist
  simp only [commitList, run_bind]
  generalize run h (format.commit nvram list) t = done at hends ⊢
  obtain ⟨⟨r, nvram'⟩, u⟩ := done
  cases r with
  | ok _ => exact hends
  | error e =>
      cases hends with
      | kept o _ hok _ _ _ => cases hok
      | refused hno _ hsame =>
          simp only [prErr_bind, run_op]
          refine .refused hno ⟨e, rfl⟩ ?_
          exact hsame.trans (H.same_of_inner (Call.inner_fprintfStderr _ _) u)

section

variable {inv : Invocation} (huses : inv.UsesFormat lib crc32 cfg i format sections)

include huses

/-- An invocation that gets to the lock comes down to the execution of its operations on what the
sides that its mode reaches have loaded. -/
theorem wp_main (hproceeds : Proceeds lib crc32 cfg inv.env inv.args)
    (hhealthy : ∀ system path, Configured (sections system) path → H.Section path)
    {items : List Item} (hitems : commandLine inv.args = some items) {Q : ℕ → σ → Prop}
    (hunloaded : ∀ system, (lastMode items).reaches system = true →
      (∀ list, ¬ K.loads (H.contents s) (sections system) list) →
      ∀ c t, H.Same s t → c ≠ 0 → Q c t)
    (hexec : ∀ system user : Option format.StructNvram × List Entry,
      (∀ b, (lastMode items).reaches b = true → ∃ nvram,
        (if b then system.1 else user.1) = some nvram ∧
          K.spec.Opens (H.view s) i (sections b) (.ok (nvram, if b then system.2 else user.2))) →
      ∀ t, H.Same s t → wp (World.ofHandler h) (fun r u => ∀ v, H.Same u v → Q (exitStatus r) v)
        (fun _ => True)
        (executeOperations lib (lastMode items) format (requested items) system.1 system.2 user.1
          user.2) t) :
    wp (World.ofHandler h) Q (fun _ => True) (main lib crc32 cfg inv.env inv.args) s := by
  have hfound := hproceeds
  obtain ⟨items', hitems', hinterface, -, -⟩ := hfound
  obtain rfl := Option.some.inj (hitems.symm.trans hitems')
  obtain ⟨j, hj⟩ := Option.isSome_iff_exists.mp hinterface
  obtain rfl := huses.interface items j hitems hj
  have hsections : ∀ system, sideSections cfg inv.env
      (interfaceNameOf cfg inv.env (finalOpts items)) (finalOpts items) system = sections system :=
    fun system => huses.sections items system hitems hj
  have hopened : ∀ {system : Bool} {side : Option format.StructNvram × List Entry},
      K.spec.SideOpened (H.view s) j ((lastMode items).reaches system) (sections system) side →
      (lastMode items).reaches system = true →
      ∃ nvram, side.1 = some nvram ∧
        K.spec.Opens (H.view s) j (sections system) (.ok (nvram, side.2)) := by
    intro system side hside hreaches
    obtain ⟨handle, list⟩ := side
    cases handle with
    | none =>
        rw [hreaches] at hside
        cases hside.1
    | some nvram => exact ⟨nvram, rfl, hside.2⟩
  refine H.observed.wp_invocation K.frame K.spec hitems (huses.interface items · hitems)
    (fun found hfound => huses.format items found hitems hfound) (fun system => ?_)
    (fun hno => absurd hproceeds hno) (fun system hfails => ?_)
    fun system user t hst hsystem huser => ?_
  · rw [hsections]
    exact ⟨fun p hp => hhealthy system p (Or.inl hp), fun p hp => hhealthy system p (Or.inr hp)⟩
  · rw [hsections] at hfails
    obtain ⟨hreaches, e, hopens⟩ := hfails
    exact hunloaded system hreaches (K.not_loads_of_fails hopens)
  · rw [hsections] at hsystem huser
    refine hexec system user (fun b hreaches => ?_) t hst
    cases b with
    | true => exact hopened hsystem hreaches
    | false => exact hopened huser hreaches

/-- A rejected invocation fails, prints nothing and changes nothing. -/
theorem observe_of_rejected (hno : ¬ Proceeds lib crc32 cfg inv.env inv.args) :
    ∃ t, H.observe crc32 cfg inv s = (⟨false, []⟩, t) ∧ H.contents t = H.contents s := by
  apply observe_of_failed
  refine H.observed.wp_main (fun _ _ => trivial) huses.interface (fun c t hst hwhy => ?_)
    fun items format hitems hinterface hformat haccepted _ _ => ?_
  · exact ⟨(hwhy.resolve_left id).2, hst⟩
  · refine absurd ⟨items, hitems, ?_, ?_, haccepted⟩ hno
    · rw [hinterface]
      rfl
    · rw [hformat]
      rfl

variable (hstands : K.Stands sections kept s)
  (hhealthy : ∀ system path, Configured (sections system) path → H.Section path)

include hstands hhealthy

/-- So does one that reaches a side that cannot be loaded. -/
theorem observe_of_unloaded (hproceeds : Proceeds lib crc32 cfg inv.env inv.args)
    {items : List Item} (hitems : commandLine inv.args = some items) {side : Bool}
    (hreaches : (lastMode items).reaches side = true) (hnone : kept side = none) :
    ∃ t, H.observe crc32 cfg inv s = (⟨false, []⟩, t) ∧ H.contents t = H.contents s := by
  have hno := hstands side
  rw [hnone] at hno
  apply observe_of_failed
  refine K.wp_main huses hproceeds hhealthy hitems (fun _ _ _ c t hst hc => ⟨hc, hst⟩)
    fun system user hsides t hst => ?_
  obtain ⟨nvram, -, hopens⟩ := hsides side hreaches
  exact absurd (K.loads_of_opens hopens) (hno _)

variable {items : List Item} (hstarts : Starts lib crc32 cfg kept inv items)

include hstarts

/-- A batch of queries is answered from what the sides hold. -/
theorem observe_of_shows (hl : lib.ListLaws) (hshows : ∀ it ∈ requested items, it.Shows)
    (hshort : ∀ system, (kept.maps system).Short) :
    ∃ texts t, (∀ system, Enumerates (texts system) (kept.maps system)) ∧
      H.observe crc32 cfg inv s =
        (⟨(answer kept.maps (lastMode items) texts (requested items)).2,
          (answer kept.maps (lastMode items) texts (requested items)).1⟩, t) ∧
      H.contents t = H.contents s := by
  -- the texts of both sides, none for a side that cannot be loaded
  have hside : ∀ system, ∃ texts, Enumerates texts (kept.maps system) ∧
      ∀ list, K.loads (H.contents s) (sections system) list →
        list = texts.map textEntry ∧ Represents list (kept.maps system) := by
    intro system
    have hholds := hstands system
    cases hkept : kept system with
    | none =>
        rw [hkept] at hholds
        refine ⟨[], ?_, fun list hlist => absurd hlist (hholds list)⟩
        rw [Kept.maps_of_none hkept]
        exact ⟨List.nodup_nil, by simp⟩
    | some m =>
        rw [hkept] at hholds
        obtain ⟨list, hloads, hrepresents⟩ := hholds
        obtain ⟨texts, htexts, henumerates⟩ := hrepresents.exists_texts
        rw [Kept.maps_of_some hkept]
        refine ⟨texts, henumerates, fun list' hlist' => ?_⟩
        obtain rfl := K.loads_unique hloads hlist'
        exact ⟨htexts, hrepresents⟩
  choose texts henumerates hloaded using hside
  have hwp : wp (World.ofHandler h) (fun c t => H.contents t = H.contents s ∧
        H.stdout t = H.stdout s ++
          (answer kept.maps (lastMode items) texts (requested items)).1 ∧
        (c = 0 ↔ (answer kept.maps (lastMode items) texts (requested items)).2 = true))
      (fun _ => True) (main lib crc32 cfg inv.env inv.args) s := by
    refine K.wp_main huses hstarts.proceeds hhealthy hstarts.arguments
      (fun system hreaches hno => ?_) fun system user hsides t hst => ?_
    · obtain ⟨list, hloads⟩ := hstands.exists_loads (hstarts.loaded system hreaches)
      exact absurd hloads (hno list)
    · have hread : ∀ b, (lastMode items).reaches b = true →
          (if b then system.2 else user.2) = (texts b).map textEntry ∧
            Represents (if b then system.2 else user.2) (kept.maps b) := by
        intro b hreaches
        obtain ⟨nvram, -, hopens⟩ := hsides b hreaches
        exact hloaded b _ (K.loads_of_opens hopens)
      have hsystem : (lastMode items).systemRead = true → _ := fun hmode =>
        hread true (by simp [Mode.reaches, hmode])
      have huser : (lastMode items).userRead = true → _ := fun hmode =>
        hread false (by simp [Mode.reaches, hmode])
      have hshown : Healthy.Shown (lastMode items) kept.maps texts ⟨system.2, user.2, false⟩ :=
        ⟨hshort, henumerates, fun hmode => (hsystem hmode).1, fun hmode => (hsystem hmode).2,
          fun hmode => (huser hmode).1, fun hmode => (huser hmode).2⟩
      obtain ⟨u, hrun, hcontents, hstdout⟩ :=
        H.prints_executeOperations hl hshows format system.1 user.1 hshown t
      rw [wp_ofHandler, hrun]
      intro v hv
      refine ⟨hv.1.trans (hcontents.trans hst.1), ?_, ?_⟩
      · rw [hv.2, hstdout, hst.2]
      · cases hok : (answer kept.maps (lastMode items) texts (requested items)).2 with
        | true => exact iff_of_true rfl rfl
        | false => exact iff_of_false Errno.enoent.pos.ne' Bool.false_ne_true
  rw [wp_ofHandler] at hwp
  obtain ⟨hcontents, hstdout, hstatus⟩ := hwp
  refine ⟨texts, _, henumerates, ?_, hcontents⟩
  rw [H.observe_eq rfl hstdout]
  simp only [hstatus, Bool.decide_eq_true]

/-- A batch of sets and deletes is a step of the machine. -/
theorem observe_of_changes (hl : lib.ListLaws) (hchanges : ∀ it ∈ requested items, it.Changes)
    (hdisjoint : ∀ path, ¬ (Configured (sections true) path ∧ Configured (sections false) path)) :
    ∃ seen kept' t, KeepStep lib crc32 cfg K.keeps kept inv seen kept' ∧
      H.observe crc32 cfg inv s = (seen, t) ∧ K.Stands sections kept' t := by
  -- the settings of the written side
  obtain ⟨m, hm⟩ := Option.isSome_iff_exists.mp (hstarts.loaded _ (lastMode_reaches items))
  have hrepresents : ∀ {list}, K.loads (H.contents s) (sections (lastMode items).systemWrite) list →
      Represents list m := by
    intro list hloads
    obtain ⟨m', hm', hlist⟩ := hstands.of_loads hloads
    obtain rfl := Option.some.inj (hm.symm.trans hm')
    exact hlist
  have hwp : wp (World.ofHandler h)
      (fun c t => (m.Idle (requested items) ∧ c = 0 ∧ H.Same s t) ∨
        (¬ m.Idle (requested items) ∧ ∃ r, c = exitStatus r ∧ CommitEnds H K.loads K.keeps
          (sections (lastMode items).systemWrite) (m.after (requested items)) s r t))
      (fun _ => True) (main lib crc32 cfg inv.env inv.args) s := by
    refine K.wp_main huses hstarts.proceeds hhealthy hstarts.arguments
      (fun system hreaches hno => ?_) fun system user hsides t hst => ?_
    · obtain ⟨list, hloads⟩ := hstands.exists_loads (hstarts.loaded system hreaches)
      exact absurd hloads (hno list)
    · obtain ⟨nvram, hnvram, hopens⟩ := hsides _ (lastMode_reaches items)
      have hlist := hrepresents (K.loads_of_opens hopens)
      refine H.observed.wp_executeOperations_edits (fun _ _ => trivial) (lastMode_writes items)
        hchanges (fun hfalse => hfalse.elim) (fun w hw hidle v hv => ?_) fun w hw hbusy => ?_
      · exact Or.inl ⟨(hlist.idle_iff hl hchanges).mp hidle, rfl, (hst.trans hw).trans hv⟩
      · rw [hnvram, wp_ofHandler]
        intro v hv
        refine Or.inr ⟨fun hidle => hbusy ((hlist.idle_iff hl hchanges).mpr hidle), _, rfl, ?_⟩
        exact (commitEnds_commitList hopens (hst.trans hw)
          (hlist.editAll hl (requested items))).of_same (hst.trans hw) hv
  rw [wp_ofHandler] at hwp
  rcases hwp with ⟨hidle, hstatus, hsame⟩ | ⟨hbusy, r, hstatus, hends⟩
  · refine ⟨_, kept, _, .idle hstarts hchanges hm hidle, ?_, hstands.of_contents hsame.1⟩
    rw [H.observe_silent rfl hsame.2, decide_eq_true hstatus]
  · cases hends with
    | kept o hkeeps hok hholds hothers hstdout =>
        have hzero := hstatus.trans (exitStatus_eq_zero_iff.mpr hok)
        refine ⟨_, _, _, .committed hstarts hchanges hm hbusy hkeeps, ?_,
          hstands.update hdisjoint hholds hothers⟩
        rw [H.observe_silent rfl hstdout, decide_eq_true hzero]
    | refused hno herror hsame =>
        obtain ⟨e, rfl⟩ := herror
        have hne : ¬ _ = 0 := fun hzero => e.pos.ne' (hstatus.symm.trans hzero)
        refine ⟨_, kept, _, .refused hstarts hchanges hm hbusy hno, ?_,
          hstands.of_contents hsame.1⟩
        rw [H.observe_silent rfl hsame.2, decide_eq_false hne]

end

/-! ### Runs -/

/-- The stores stand for what the sides hold, and an `int` can say every length in it. -/
structure Related (sections : Bool → Option CString × Option CString) (kept : Kept) (s : σ) :
    Prop where
  stands : K.Stands sections kept s
  short : ∀ system, (kept.maps system).Short

/-- Every invocation does what a step of the machine does. -/
theorem matches_keepStep {inv : Invocation}
    (huses : inv.UsesFormat lib crc32 cfg i format sections) (hl : lib.ListLaws)
    (hhealthy : ∀ system path, Configured (sections system) path → H.Section path)
    (hdisjoint : ∀ path, ¬ (Configured (sections true) path ∧ Configured (sections false) path)) :
    Matches (H.observe crc32 cfg) (KeepStep lib crc32 cfg K.keeps) (K.Related sections) inv := by
  intro kept s hrelated
  obtain ⟨seen, kept', t, hstep, hseen, hstands⟩ : ∃ seen kept' t,
      KeepStep lib crc32 cfg K.keeps kept inv seen kept' ∧
        H.observe crc32 cfg inv s = (seen, t) ∧ K.Stands sections kept' t := by
    by_cases hproceeds : Proceeds lib crc32 cfg inv.env inv.args
    swap
    · obtain ⟨t, hseen, hcontents⟩ := observe_of_rejected huses (s := s) hproceeds
      exact ⟨_, kept, t, .rejected hproceeds, hseen, hrelated.stands.of_contents hcontents⟩
    have hfound := hproceeds
    obtain ⟨items, hitems, -, -, haccepted⟩ := hfound
    by_cases hloaded : ∀ system, (lastMode items).reaches system = true →
        (kept system).isSome = true
    swap
    · obtain ⟨system, hside⟩ := not_forall.mp hloaded
      obtain ⟨hreaches, hnone⟩ := Classical.not_imp.mp hside
      rw [Option.not_isSome_iff_eq_none] at hnone
      obtain ⟨t, hseen, hcontents⟩ := observe_of_unloaded huses hrelated.stands hhealthy hproceeds
        hitems hreaches hnone
      exact ⟨_, kept, t, .unloaded hproceeds hitems hreaches hnone, hseen,
        hrelated.stands.of_contents hcontents⟩
    have hstarts : Starts lib crc32 cfg kept inv items := ⟨hproceeds, hitems, hloaded⟩
    by_cases hchanges : ∀ it ∈ requested items, it.Changes
    · exact observe_of_changes huses hrelated.stands hhealthy hstarts hl hchanges hdisjoint
    · have hshows := haccepted.shows_of_not_changes hchanges
      obtain ⟨texts, t, henumerates, hseen, hcontents⟩ := observe_of_shows huses hrelated.stands
        hhealthy hstarts hl hshows hrelated.short
      exact ⟨_, kept, t, .shows hstarts hshows henumerates, hseen,
        hrelated.stands.of_contents hcontents⟩
  rw [hseen]
  exact ⟨kept', hstep, hstands, hstep.short K.short hrelated.short⟩

/-- Every run of invocations is one of the machine. -/
theorem exists_keepRun (K : Keeper H format) {invs : List Invocation}
    (huses : ∀ inv ∈ invs, inv.UsesFormat lib crc32 cfg i format sections) (hl : lib.ListLaws)
    (hhealthy : ∀ system path, Configured (sections system) path → H.Section path)
    (hdisjoint : ∀ path, ¬ (Configured (sections true) path ∧ Configured (sections false) path))
    (hrelated : K.Related sections kept s) :
    ∃ outs, SpecRun (KeepStep lib crc32 cfg K.keeps) kept invs outs ∧
      List.Forall₂ (fun (p : Observation × σ) (out : Observation × Kept) =>
        p.1 = out.1 ∧ K.Related sections out.2 p.2)
        (observations (H.observe crc32 cfg) invs s) outs :=
  Matches.exists_run (fun inv hinv => matches_keepStep (huses inv hinv) hl hhealthy hdisjoint)
    hrelated

/-- The stores stand for the maps, which have the property. -/
structure RelatedMaps (sections : Bool → Option CString × Option CString) (P : Settings → Prop)
    (maps : Maps) (s : σ) : Prop where
  related : K.Related sections (fun system => some (maps system)) s
  property : ∀ system, P (maps system)

/-- Where settings with a property are kept as they are, and the invocation keeps the property, it
does what a step of the machine does that never refuses. -/
theorem matches_refStep {inv : Invocation}
    (huses : inv.UsesFormat lib crc32 cfg i format sections) (hl : lib.ListLaws)
    (hhealthy : ∀ system path, Configured (sections system) path → H.Section path)
    (hdisjoint : ∀ path, ¬ (Configured (sections true) path ∧ Configured (sections false) path))
    {P : Settings → Prop}
    (hkept : ∀ m texts, P m → Enumerates texts m → ∀ o, K.keeps m o ↔ o = some m)
    (hclosed : ∀ items, commandLine inv.args = some items → ∀ m, P m →
      P (m.after (requested items))) :
    Matches (H.observe crc32 cfg) (RefStep lib crc32 cfg) (K.RelatedMaps sections P) inv := by
  intro maps s h
  obtain ⟨kept', hstep, hrelated⟩ :=
    matches_keepStep huses hl hhealthy hdisjoint _ s h.related
  have hkeeps : ∀ items, commandLine inv.args = some items → ∀ o,
      K.keeps ((maps (lastMode items).systemWrite).after (requested items)) o ↔
        o = some ((maps (lastMode items).systemWrite).after (requested items)) := by
    intro items hitems
    obtain ⟨list, -, hlist⟩ := h.related.stands (lastMode items).systemWrite
    obtain ⟨texts, -, htexts⟩ := (hlist.editAll hl (requested items)).exists_texts
    exact hkept _ texts (hclosed items hitems _ (h.property _)) htexts
  obtain ⟨maps', rfl, href⟩ := hstep.refStep hkeeps
  exact ⟨maps', href, hrelated, href.keeps_property hclosed h.property⟩

theorem refRun_of_specRun {maps : Maps} {invs : List Invocation} {outs : List (Observation × Maps)}
    (hrun : SpecRun (RefStep lib crc32 cfg) maps invs outs) :
    RefRun lib crc32 cfg maps invs outs := by
  induction hrun with
  | nil maps => exact .nil maps
  | cons hstep _ ih => exact .cons hstep ih

/-- Where settings are committed as their normal form, a run in which every invocation succeeds
leaves the normal form of what all its operations say, however they are split into batches. -/
theorem related_finalState (K : Keeper H format) {normal : Settings → Settings}
    (hkeeps : ∀ m o, K.keeps m o → o = some (normal m))
    (hnormal : ∀ m operations, normal ((normal m).after operations) = normal (m.after operations))
    {invs : List Invocation}
    (huses : ∀ inv ∈ invs, inv.UsesFormat lib crc32 cfg i format sections) (hl : lib.ListLaws)
    (hhealthy : ∀ system path, Configured (sections system) path → H.Section path)
    (hdisjoint : ∀ path, ¬ (Configured (sections true) path ∧ Configured (sections false) path))
    {maps : Maps} (hmaps : ∀ system, normal (maps system) = maps system)
    (hrelated : K.Related sections (fun system => some (maps system)) s)
    (hok : ∀ p ∈ observations (H.observe crc32 cfg) invs s, p.1.success = true) :
    K.Related sections
      (fun system =>
        some (normal ((maps system).after (invs.flatMap (Invocation.writes · system)))))
      (finalState (H.observe crc32 cfg) invs s) := by
  induction invs generalizing maps s with
  | nil =>
      have hsame : (fun system => some (normal ((maps system).after []))) =
          fun system => some (maps system) := by
        funext system
        exact congrArg some (hmaps system)
      rw [← hsame] at hrelated
      exact hrelated
  | cons inv invs ih =>
      obtain ⟨kept', hstep, hrelated'⟩ :=
        matches_keepStep (huses inv List.mem_cons_self) hl hhealthy hdisjoint _ s hrelated
      obtain rfl := hstep.eq_after hkeeps hmaps (hok _ List.mem_cons_self)
      have hidempotent : ∀ system, normal (normal ((maps system).after (inv.writes system))) =
          normal ((maps system).after (inv.writes system)) := fun system =>
        hnormal ((maps system).after (inv.writes system)) []
      have hrest := ih (fun inv' hinv' => huses inv' (List.mem_cons_of_mem _ hinv')) hidempotent
        hrelated' fun p hp => hok p (List.mem_cons_of_mem _ hp)
      simp only [hnormal, ← Settings.after_append] at hrest
      exact hrest

end Keeper

end Nvram
