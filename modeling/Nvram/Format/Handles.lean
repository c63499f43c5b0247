import Nvram.Format.Frame
import Nvram.Library.Interleave
import Mathlib.Algebra.Order.Group.Multiset

/-!
# What the formats do with section handles

A handle is given out by a successful init of the interface and goes with `destroy`.  Each
format keeps the handles it was given in its `struct nvram`, reads and writes through these
only, gives them all back when an init fails, and destroys them on close.  An init of the
v2 format with neither section configured returns 0 without a handle.
-/

namespace Nvram

open Effects

/-! ### Live handles -/

/-- A handle belongs to the interface that gave it out. -/
abbrev OpenHandle := Interface × NvramPriv

/-- The handle that a call of an interface function is given. -/
def Call.through? : Call → Option (Interface × Option NvramPriv)
  | size i priv => some (i, priv)
  | read i priv _ => some (i, priv)
  | write i priv _ => some (i, priv)
  | sectionOf i priv => some (i, priv)
  | destroy i priv => some (i, priv)
  | _ => none

/-- Calls are made through live handles only. -/
def handleAllows (live : Multiset OpenHandle) (o : Call) : Prop :=
  match o.through? with
  | none => True
  | some (_, none) => False
  | some (i, some p) => (i, p) ∈ live

instance (live : Multiset OpenHandle) (o : Call) : Decidable (handleAllows live o) := by
  unfold handleAllows
  split <;> infer_instance

/-- A successful init gives a handle out, a destroy takes it back. -/
def handleNext : Multiset OpenHandle → (o : Call) → Call.Res o → Multiset OpenHandle
  | live, .init i path, .ok data => (i, ⟨path, data⟩) ::ₘ live
  | live, .destroy i (some p), _ => live.erase (i, p)
  | live, _, _ => live

def handleMonitor : Monitor callSig (Multiset OpenHandle) where
  allows := handleAllows
  next := handleNext

instance (live : Multiset OpenHandle) (o : Call) : Decidable (handleMonitor.allows live o) :=
  inferInstanceAs (Decidable (handleAllows live o))

/-- A call that is allowed and leaves the live handles as they are. -/
def Steady (live : Multiset OpenHandle) (o : Call) : Prop :=
  handleMonitor.allows live o ∧ ∀ r, handleMonitor.next live o r = live

variable {live : Multiset OpenHandle}

theorem steady_of_no_interface {o : Call} (h : o.interface? = none) : Steady live o := by
  cases o <;> first | exact ⟨trivial, fun _ => rfl⟩ | cases h

theorem steady_inner (o : Call) (h : o.Inner) : Steady live o := steady_of_no_interface h.1

theorem steady_through {i : Interface} {p : NvramPriv} (h : (i, p) ∈ live) :
    WritesThrough (Steady live) (fun _ => True) i (some p) where
  inner := steady_inner
  size := ⟨h, fun _ => rfl⟩
  read _ := ⟨h, fun _ => rfl⟩
  sectionOf := ⟨h, fun _ => rfl⟩
  write _ _ := ⟨h, fun _ => rfl⟩

theorem monitored_steady {α : Type} {Q : α → Prop} {p : NProg α}
    (h : Confined (Steady live) Q p) :
    Monitored handleMonitor (fun live' a => live' = live ∧ Q a) p live :=
  h.monitored fun _ ho => ho

/-- The handle that an optional `nvram_priv` holds. -/
def held (i : Interface) : Option NvramPriv → Multiset OpenHandle
  | none => 0
  | some p => {(i, p)}

theorem mem_held_add {i : Interface} {p : NvramPriv} : (i, p) ∈ held i (some p) + live :=
  Multiset.mem_add.mpr (Or.inl (Multiset.mem_singleton_self _))

theorem monitored_destroy (i : Interface) (p : NvramPriv) :
    Monitored handleMonitor (fun live' _ => live' = live) (i.destroy (some p))
      (held i (some p) + live) := by
  refine ⟨mem_held_add, fun _ => ?_⟩
  show (held i (some p) + live).erase (i, p) = live
  rw [held, Multiset.singleton_add, Multiset.erase_cons_head]

/-! ### The v2 format -/

/-- The handles of a `struct nvram` of the v2 format. -/
def V2Nvram.handles (nvram : V2Nvram) : Multiset OpenHandle :=
  held nvram.interface nvram.privA + held nvram.interface nvram.privB

theorem monitored_v2Close (nvram : Option V2Nvram) :
    Monitored handleMonitor (fun live' _ => live' = live) (v2Close nvram)
      (nvram.elim 0 V2Nvram.handles + live) := by
  cases nvram with
  | none => exact zero_add live
  | some nvram =>
      obtain ⟨i, trans, privA, privB⟩ := nvram
      show Monitored _ _ _ (held i privA + held i privB + live)
      cases privA with
      | none =>
          cases privB with
          | none => exact zero_add live
          | some b =>
              rw [show held i none + held i (some b) = held i (some b) from zero_add _]
              exact monitored_destroy i b
      | some a =>
          rw [add_assoc]
          refine monitored_seq (monitored_destroy i a) fun live' _ h => ?_
          subst h
          cases privB with
          | none => exact zero_add live
          | some b => exact monitored_destroy i b

section

variable (lib : Libnvram)

/-- A section that is configured is opened; one that is not gives no data. -/
theorem monitored_initSection (i : Interface) (path : Option CString) (name : LibnvramActive) :
    Monitored handleMonitor
      (fun live' r => live' = held i r.1 + live ∧
        (r.1 = none → ∀ buf, r.2 = .ok buf → emptySection path = true ∧ buf = []))
      (initSection lib i path name) live := by
  have hnone : ∀ path : Option CString, emptySection path = true →
      (0 + live : Multiset OpenHandle) = live ∧
        ∀ buf, (.ok [] : Except Errno Bytes) = .ok buf → emptySection path = true ∧ buf = [] := by
    intro path hpath
    refine ⟨zero_add live, fun buf h => ?_⟩
    cases h
    exact ⟨hpath, rfl⟩
  cases path with
  | none => exact ⟨(zero_add live).symm, fun _ => (hnone none rfl).2⟩
  | some path =>
      unfold initSection
      dsimp only
      split
      · rw [initAndRead, prDbg_bind, Interface.init_bind]
        refine ⟨trivial, fun _ => ⟨trivial, fun r => ?_⟩⟩
        cases r with
        | error e => exact ⟨trivial, fun _ => ⟨(zero_add live).symm, fun _ _ h => by cases h⟩⟩
        | ok data =>
            have hmem : (i, NvramPriv.mk path data) ∈ (i, NvramPriv.mk path data) ::ₘ live :=
              Multiset.mem_cons_self _ _
            refine monitored_seq
              (monitored_steady (confined_readSection lib (steady_through hmem).toReadsThrough))
              fun live' r h => ?_
            obtain ⟨hlive, -⟩ := h
            have hheld : live' = held i (some ⟨path, data⟩) + live :=
              hlive.trans (Multiset.singleton_add _ _).symm
            cases r with
            | error e => exact ⟨hheld, fun h => by cases h⟩
            | ok buf => exact ⟨trivial, fun _ => ⟨hheld, fun h => by cases h⟩⟩
      · rename_i hempty
        have hempty' : emptySection (some path) = true := by
          simp only [emptySection, decide_eq_true_eq]
          omega
        exact ⟨(zero_add live).symm, fun _ => (hnone _ hempty').2⟩

/-- What an init of a format does to the live handles: nothing if it fails; else it adds those
of the `struct nvram`, and that has one to write through, or nothing is configured. -/
def InitKeeps {α : Type} (handles : α → Multiset OpenHandle) (Opened : α → Prop)
    (sectionA sectionB : Option CString) (live live' : Multiset OpenHandle) :
    Except Errno (α × List Entry) → Prop
  | .error _ => live' = live
  | .ok (nvram, list) => live' = handles nvram + live ∧ (Opened nvram ∨
      (emptySection sectionA = true ∧ emptySection sectionB = true ∧ list = []))

/-- There is a handle to write through. -/
def V2Nvram.Opened (nvram : V2Nvram) : Prop := nvram.privA ≠ none ∨ nvram.privB ≠ none

theorem monitored_v2Init (hinactive : (lib.initTransaction [] []).active = ⟨false, false⟩)
    (i : Interface) (sectionA sectionB : Option CString) :
    Monitored handleMonitor (InitKeeps V2Nvram.handles V2Nvram.Opened sectionA sectionB live)
      (v2Init lib i sectionA sectionB) live := by
  have hclose : ∀ (trans : LibnvramTransaction) (privA privB : Option NvramPriv)
      (live' : Multiset OpenHandle) (e : Errno), live' = held i privB + (held i privA + live) →
      Monitored handleMonitor
        (InitKeeps V2Nvram.handles V2Nvram.Opened sectionA sectionB live) (do
          v2Close (some ⟨i, trans, privA, privB⟩)
          return .error e) live' := by
    intro trans privA privB live' e h
    have hlive : live' = (some (V2Nvram.mk i trans privA privB)).elim 0 V2Nvram.handles + live := by
      show live' = held i privA + held i privB + live
      rw [h, ← add_assoc, add_comm (held i privB)]
    rw [hlive]
    exact monitored_seq (monitored_v2Close _) fun _ _ h => h
  unfold v2Init
  rw [mallocStruct_bind]
  refine ⟨trivial, fun ok => ?_⟩
  dsimp only
  split
  · exact rfl
  refine monitored_seq (monitored_initSection lib i sectionA _) fun live₁ ra ha => ?_
  obtain ⟨privA, resA⟩ := ra
  obtain ⟨rfl, ha⟩ := ha
  cases resA with
  | error e => exact hclose _ privA none _ e (zero_add _).symm
  | ok bufA =>
      refine monitored_seq (monitored_initSection lib i sectionB _) fun live₂ rb hb => ?_
      obtain ⟨privB, resB⟩ := rb
      obtain ⟨rfl, hb⟩ := hb
      cases resB with
      | error e => exact hclose _ privA privB _ e rfl
      | ok bufB =>
          dsimp only
          iterate 3
            rw [prDbg_bind]
            refine ⟨trivial, fun _ => ?_⟩
          refine monitored_seq (monitored_steady
            ((inner_deserializeActive lib _ _ _).mono steady_inner fun _ h => h)) fun live' r h => ?_
          obtain ⟨hlive, hlist⟩ := h
          cases r with
          | error e => exact ⟨trivial, fun _ => hclose _ privA privB _ e hlive⟩
          | ok list =>
              constructor
              · rw [V2Nvram.handles, add_assoc, ← add_assoc, add_comm (held i privA), add_assoc]
                exact hlive
              · by_cases hA : privA = none
                · by_cases hB : privB = none
                  · obtain ⟨hemptyA, rfl⟩ := ha hA _ rfl
                    obtain ⟨hemptyB, rfl⟩ := hb hB _ rfl
                    exact Or.inr ⟨hemptyA, hemptyB, Except.ok.inj (hlist hinactive)⟩
                  · exact Or.inl (Or.inr hB)
                · exact Or.inl (Or.inl hA)

theorem monitored_v2Commit {nvram : V2Nvram} (hopened : nvram.Opened)
    (hlive : nvram.handles ≤ live) (list : List Entry) :
    Monitored handleMonitor (fun live' _ => live' = live) (v2Commit lib nvram list) live := by
  have hmem : ∀ priv, priv = nvram.privA ∨ priv = nvram.privB → priv ≠ none →
      WritesThrough (Steady live) (fun _ => True) nvram.interface priv := by
    intro priv hpriv hsome
    obtain ⟨p, rfl⟩ := Option.ne_none_iff_exists'.mp hsome
    refine steady_through (Multiset.mem_of_le hlive (Multiset.mem_add.mpr ?_))
    rcases hpriv with h | h
    · left
      rw [← h]
      exact Multiset.mem_singleton_self _
    · right
      rw [← h]
      exact Multiset.mem_singleton_self _
  refine (monitored_steady (confined_v2Commit (B := fun _ => True) lib steady_inner
    (fun priv htarget => ?_) list fun _ _ => trivial)).mono fun _ _ h => h.1
  unfold V2Nvram.Target at htarget
  split at htarget
  · subst htarget
    split
    · rename_i hA
      exact hmem _ (Or.inl rfl) (Option.isSome_iff_ne_none.mp hA)
    · rename_i hA
      refine hmem _ (Or.inr rfl) (hopened.resolve_left fun hno => hA ?_)
      exact Option.isSome_iff_ne_none.mpr hno
  · rename_i hboth
    obtain ⟨hA, hB⟩ := not_or.mp hboth
    rcases htarget with rfl | rfl
    · exact hmem _ (Or.inl rfl) fun h => hA (Option.isNone_iff_eq_none.mpr h)
    · exact hmem _ (Or.inr rfl) fun h => hB (Option.isNone_iff_eq_none.mpr h)

end

/-! ### The legacy and the platform format -/

def SingleNvram.handles (nvram : SingleNvram) : Multiset OpenHandle :=
  held nvram.interface nvram.interfacePriv

def SingleNvram.Opened (nvram : SingleNvram) : Prop := nvram.interfacePriv ≠ none

theorem monitored_legacyClose (nvram : Option SingleNvram) :
    Monitored handleMonitor (fun live' _ => live' = live) (legacyClose nvram)
      (nvram.elim 0 SingleNvram.handles + live) := by
  cases nvram with
  | none => exact zero_add live
  | some nvram =>
      obtain ⟨i, priv⟩ := nvram
      cases priv with
      | none => exact zero_add live
      | some p => exact monitored_destroy i p

/-- An init of a format with one section leaves a handle to write through. -/
theorem monitored_singleInit (msg : String)
    {load : CString → NvramPriv → NProg (Except Errno (List Entry))} {i : Interface}
    (hload : ∀ P path priv, ReadsThrough P i (some priv) →
      Confined P (fun _ => True) (load path priv)) (sectionA sectionB : Option CString) :
    Monitored handleMonitor
      (fun live' r => InitKeeps SingleNvram.handles SingleNvram.Opened sectionA sectionB live live' r ∧
        ∀ nvram list, r = .ok (nvram, list) → nvram.Opened)
      (singleInit msg load i sectionA sectionB) live := by
  have herr : ∀ e : Errno, InitKeeps SingleNvram.handles SingleNvram.Opened sectionA sectionB
      live live (.error e) ∧ ∀ nvram list,
        (.error e : Except Errno (SingleNvram × List Entry)) = .ok (nvram, list) → nvram.Opened :=
    fun e => ⟨rfl, fun _ _ h => by cases h⟩
  cases sectionA with
  | none => exact herr _
  | some path =>
      unfold singleInit
      dsimp only
      split
      · exact herr _
      split
      · exact ⟨trivial, fun _ => herr _⟩
      rw [mallocStruct_bind]
      refine ⟨trivial, fun ok => ?_⟩
      dsimp only
      split
      · exact herr _
      rw [Interface.init_bind]
      refine ⟨trivial, fun r => ?_⟩
      cases r with
      | error e => exact ⟨trivial, fun _ => herr e⟩
      | ok data =>
          have hmem : (i, NvramPriv.mk path data) ∈ (i, NvramPriv.mk path data) ::ₘ live :=
            Multiset.mem_cons_self _ _
          refine monitored_seq (monitored_steady
            (hload _ path _ (steady_through hmem).toReadsThrough)) fun live' r h => ?_
          obtain ⟨hlive, -⟩ := h
          have hheld : live' = held i (some ⟨path, data⟩) + live :=
            hlive.trans (Multiset.singleton_add _ _).symm
          cases r with
          | error e =>
              rw [hheld]
              refine monitored_seq (monitored_legacyClose (some ⟨i, some ⟨path, data⟩⟩))
                fun live' _ h => ?_
              subst h
              exact herr e
          | ok list =>
              have hopened : SingleNvram.Opened ⟨i, some ⟨path, data⟩⟩ := Option.some_ne_none _
              refine ⟨⟨hheld, Or.inl hopened⟩, fun nvram list' h => ?_⟩
              cases h
              exact hopened

theorem SingleNvram.Opened.writesThrough {nvram : SingleNvram} (h : nvram.Opened)
    (hlive : nvram.handles ≤ live) :
    WritesThrough (Steady live) (fun _ => True) nvram.interface nvram.interfacePriv := by
  obtain ⟨i, priv⟩ := nvram
  obtain ⟨p, rfl⟩ := Option.ne_none_iff_exists'.mp h
  exact steady_through (Multiset.mem_of_le hlive (Multiset.mem_singleton_self _))

/-! ### Every format -/

/-- How a format looks after its handles.  `Lazy` formats have inits that open nothing. -/
structure NvramFormat.Custody (format : NvramFormat) where
  handles : format.StructNvram → Multiset OpenHandle
  Opened : format.StructNvram → Prop
  Lazy : Prop
  init : ∀ i sectionA sectionB live, Monitored handleMonitor
    (fun live' r => InitKeeps handles Opened sectionA sectionB live live' r ∧
      (¬ Lazy → ∀ nvram list, r = .ok (nvram, list) → Opened nvram))
    (format.init i sectionA sectionB) live
  commit : ∀ nvram list live, Opened nvram → handles nvram ≤ live →
    Monitored handleMonitor (fun live' _ => live' = live) (format.commit nvram list) live
  close : ∀ nvram live, Monitored handleMonitor (fun live' _ => live' = live)
    (format.close nvram) (nvram.elim 0 handles + live)

section

variable (lib : Libnvram) (crc32 : Bytes → UInt32)

def nvramV2Format.custody (hinactive : (lib.initTransaction [] []).active = ⟨false, false⟩) :
    (nvramV2Format lib).Custody where
  handles := V2Nvram.handles
  Opened := V2Nvram.Opened
  Lazy := True
  init i sectionA sectionB _ :=
    (monitored_v2Init lib hinactive i sectionA sectionB).mono fun _ _ h =>
      ⟨h, fun hno => absurd trivial hno⟩
  commit _ list _ hopened hlive := monitored_v2Commit lib hopened hlive list
  close nvram _ := monitored_v2Close nvram

def nvramLegacyFormat.custody : nvramLegacyFormat.Custody where
  handles := SingleNvram.handles
  Opened := SingleNvram.Opened
  Lazy := False
  init i sectionA sectionB live := by
    show Monitored handleMonitor _ (legacyInit i sectionA sectionB) live
    rw [legacyInit_eq]
    exact (monitored_singleInit _ (fun _ _ _ h => confined_legacyLoad h) _ _).mono
      fun _ _ h => ⟨h.1, fun _ => h.2⟩
  commit _ list _ hopened hlive := monitored_seq
    (monitored_steady (confined_legacyCommit (hopened.writesThrough hlive) (inner_sizePass 0 list)
      fun _ _ _ _ _ => trivial)) fun _ _ h => h.1
  close nvram _ := monitored_legacyClose nvram

def nvramPlatformFormat.custody (build : PlatformBuild) :
    (nvramPlatformFormat crc32 build).Custody where
  handles := SingleNvram.handles
  Opened := SingleNvram.Opened
  Lazy := False
  init i sectionA sectionB live := by
    show Monitored handleMonitor _ (platformInit crc32 build i sectionA sectionB) live
    rw [platformInit_eq]
    exact (monitored_singleInit _ (fun _ _ _ h => confined_platformLoad crc32 build h) _ _).mono
      fun _ _ h => ⟨h.1, fun _ => h.2⟩
  commit _ list _ hopened hlive := monitored_seq
    (monitored_steady (confined_platformCommit crc32 build (hopened.writesThrough hlive) list))
    fun _ _ h => h.1
  close nvram _ := monitored_legacyClose nvram

/-- Only the v2 format has inits that open nothing. -/
theorem nvramGetFormat_custody
    (hinactive : (lib.initTransaction [] []).active = ⟨false, false⟩) {cfg : BuildConfig}
    {name : CString} {format : NvramFormat}
    (h : nvramGetFormat lib crc32 cfg name = some format) :
    ∃ C : format.Custody, C.Lazy → name = lit "v2" := by
  rcases nvramGetFormat_cases lib crc32 h with ⟨hname, rfl⟩ | ⟨_, rfl⟩ | ⟨build, _, rfl⟩
  · exact ⟨nvramV2Format.custody lib hinactive, fun _ => hname⟩
  · exact ⟨nvramLegacyFormat.custody, fun h => h.elim⟩
  · exact ⟨nvramPlatformFormat.custody crc32 build, fun h => h.elim⟩

end

end Nvram
