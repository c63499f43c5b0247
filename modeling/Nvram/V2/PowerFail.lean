import Nvram.V2.Slots
import Nvram.Format.Frame
import Nvram.Libnvram.Plain

/-!
# Power failures over whole runs of sessions

A session inits the v2 format on two sections of fixed size and commits at most one list.
Every write may complete, fail without effect, or be cut off and leave bytes that do not
verify, and the power may go at every call.  The contents with the history of acknowledged
and attempted lists then keep the two-slot invariant, so that every later init returns 0 with
the last acknowledged list or one attempted after it, as long as no content left behind has
a valid header that announces more than the section holds and no list is refused by the
serialisation.
-/

namespace Nvram

open Effects TwoSlot

/-! ### The two sections under power failures -/

section

variable (lib : Libnvram)

/-- The write completed: the section starts with `buf`. -/
def WriteDone (path : CString) (buf : Bytes) (s t : Contents) : Prop :=
  ∃ new, buf <+: new ∧ new.length = (s path).length ∧ t = Function.update s path new

/-- The write had no effect, or left content that does not verify. -/
def WriteFailed (path : CString) (s t : Contents) : Prop :=
  t = s ∨ ∃ new, ¬ Verifies lib new ∧ new.length = (s path).length ∧
    t = Function.update s path new

/-- Sections of fixed size on which writes can fail and the power can go at any time.  The
calls that are no write answer as `answers` allows. -/
def powerWorld (answers : Contents → (o : Call) → Call.Res o → Prop) : World callSig Contents where
  step s o r t :=
    match o, r with
    | .write _ (some priv) buf, r =>
      (r = .ok () ∧ WriteDone priv.path buf s t) ∨
        (∃ e, r = .error e) ∧ WriteFailed lib priv.path s t
    | o, r => answers s o r ∧ t = s
  halt s o t :=
    match o with
    | .write _ (some priv) buf => WriteDone priv.path buf s t ∨ WriteFailed lib priv.path s t
    | _ => t = s

/-- While a session inits, memory is available and reads in range succeed. -/
abbrev initWorld : World callSig Contents :=
  powerWorld lib fun s => Answers lib ⟨fun _ => True, fun _ => True, s⟩

/-- While it commits, anything may fail. -/
abbrev commitWorld : World callSig Contents := powerWorld lib fun _ _ _ => True

end

/-- The bytes of the sections, and what was acknowledged and attempted. -/
structure RunState where
  contents : Contents
  history : History (List Entry)

/-- Whether a commit that was not stopped returned 0. -/
def acknowledged : Option (Except Errno Unit × V2Nvram) → Bool
  | some (.ok (), _) => true
  | _ => false

section

variable (lib : Libnvram) (i : Interface) (pathA pathB : CString)

/-- Init on the two sections. -/
abbrev initBoth : NProg (Except Errno (V2Nvram × List Entry)) :=
  v2Init lib i (some pathA) (some pathB)

/-- The states after any number of sessions.  The lists committed satisfy `okList` and the
contents found after each session `okContents`. -/
inductive PowerRun (okList : List Entry → Prop) (okContents : Contents → Prop) :
    RunState → Prop where
  | start {c : Contents} : ¬ Verifies lib (c pathA) → ¬ Verifies lib (c pathB) →
      okContents c → PowerRun okList okContents ⟨c, History.empty⟩
  | idle {s : RunState} {out : Option (Except Errno (V2Nvram × List Entry))} {c : Contents} :
      PowerRun okList okContents s → Exec (initWorld lib) (initBoth lib i pathA pathB) s.contents
        out c → okContents c → PowerRun okList okContents ⟨c, s.history⟩
  | commit {s : RunState} {nvram : V2Nvram} {loaded list : List Entry} {c c' : Contents}
      {out : Option (Except Errno Unit × V2Nvram)} :
      PowerRun okList okContents s → Exec (initWorld lib) (initBoth lib i pathA pathB) s.contents
        (some (.ok (nvram, loaded))) c → okList list →
      Exec (commitWorld lib) (v2Commit lib nvram list) c out c' → okContents c' →
      PowerRun okList okContents ⟨c', s.history.after list (acknowledged out)⟩

/-- The list is the last acknowledged one or one attempted after it; the empty list while
nothing was acknowledged. -/
def MayLoad (h : History (List Entry)) (list : List Entry) : Prop :=
  h.acked = some list ∨ list ∈ h.attempted ∨ (h.acked = none ∧ list = [])

/-- An init returns, and whenever it does it returns 0 with a list that may be loaded. -/
def InitLoads (s : RunState) : Prop :=
  (∃ r c, Exec (initWorld lib) (initBoth lib i pathA pathB) s.contents (some r) c) ∧
    ∀ r c, Exec (initWorld lib) (initBoth lib i pathA pathB) s.contents (some r) c →
      ∃ nvram list, r = .ok (nvram, list) ∧ MayLoad s.history list

/-- Neither section has a valid header that announces more than the section holds. -/
def Clean (c : Contents) : Prop := ¬ Oversized lib (c pathA) ∧ ¬ Oversized lib (c pathB)

end

/-! ### One write -/

section

variable {lib : Libnvram}

theorem commitWorld_step {s t : Contents} {o : Call} {r : Call.Res o} (ho : o.isWrite = false)
    (h : (commitWorld lib).step s o r t) : t = s := by
  cases o with
  | write i priv buf => cases ho
  | _ => exact h.2

theorem commitWorld_halt {s t : Contents} {o : Call} (ho : o.isWrite = false)
    (h : (commitWorld lib).halt s o t) : t = s := by
  cases o with
  | write i priv buf => cases ho
  | _ => exact h

/-- A call that is no write leaves the state alone, whatever is answered. -/
theorem wp_commit_op {α : Type} {Q : α → Contents → Prop} {C : Contents → Prop} {s : Contents}
    {o : Call} {k : Call.Res o → NProg α} (ho : o.isWrite = false) (hC : C s)
    (hk : ∀ r, wp (commitWorld lib) Q C (k r) s) :
    wp (commitWorld lib) Q C (Prog.op (S := callSig) o k) s := by
  refine ⟨fun t ht => ?_, fun r t ht => ?_⟩
  · rw [commitWorld_halt ho ht]
    exact hC
  · rw [commitWorld_step ho ht]
    exact hk r

theorem wp_writeBuf {i : Interface} {priv : NvramPriv} {buf : Bytes} {size : UInt32}
    {s : Contents} {Q : Except Errno Unit → Contents → Prop} {C : Contents → Prop}
    (hstart : C s) (hdone : ∀ t, WriteDone priv.path buf s t → Q (.ok ()) t ∧ C t)
    (hfailed : ∀ t, WriteFailed lib priv.path s t → (∀ e, Q (.error e) t) ∧ C t) :
    wp (commitWorld lib) Q C (writeBuf i (some priv) buf size) s := by
  simp only [writeBuf, Interface.sectionOf_bind, Interface.write_bind]
  refine wp_commit_op rfl hstart fun _ => ?_
  refine wp_commit_op rfl hstart fun _ => ?_
  refine ⟨fun t ht => ?_, fun r t ht => ?_⟩
  · rcases ht with ht | ht
    · exact (hdone t ht).2
    · exact (hfailed t ht).2
  · rcases ht with ⟨rfl, ht⟩ | ⟨⟨e, rfl⟩, ht⟩
    · exact (hdone t ht).1
    · obtain ⟨hQ, hC⟩ := hfailed t ht
      refine wp_commit_op rfl hC fun _ => ?_
      exact wp_commit_op rfl hC fun _ => hQ e

/-! ### One commit -/

/-- The contents in which a commit of `image` can end or be stopped; the flag says whether
it returned 0. -/
inductive CommitStops (lib : Libnvram) (target other : CString) (image : Bytes) (reset : Bool)
    (s : Contents) : Contents → Bool → Prop where
  | first {t : Contents} : WriteFailed lib target s t →
      CommitStops lib target other image reset s t false
  | between {t : Contents} : WriteDone target image s t →
      CommitStops lib target other image reset s t false
  | single {t : Contents} : reset = false → WriteDone target image s t →
      CommitStops lib target other image reset s t true
  | second {t u : Contents} : reset = true → WriteDone target image s t →
      WriteFailed lib other t u → CommitStops lib target other image reset s u false
  | both {t u : Contents} (acked : Bool) : reset = true → WriteDone target image s t →
      WriteDone other image t u → CommitStops lib target other image reset s u acked

theorem WriteDone.of_prefix {path : CString} {image buf : Bytes} {s t : Contents}
    (h : WriteDone path buf s t) (hp : image <+: buf) : WriteDone path image s t := by
  obtain ⟨new, hnew, hlen, rfl⟩ := h
  exact ⟨new, hp.trans hnew, hlen, rfl⟩

section

variable {nvram : V2Nvram} {op : LibnvramOperation} {image : Bytes} {s : Contents}
  {privT privO : NvramPriv}

/-- The states in which the writes of a commit can end. -/
abbrev StopsAt (lib : Libnvram) (op : LibnvramOperation) (image : Bytes) (s : Contents)
    (privT privO : NvramPriv) (t : Contents) (acked : Bool) : Prop :=
  CommitStops lib privT.path privO.path image op.counterReset s t acked

theorem wp_v2Write {buf : Bytes} {size : UInt32} (hboth : nvram.Both)
    (htarget : nvram.target op = some privT) (hother : nvram.other op = some privO)
    (hp : image <+: buf) :
    wp (commitWorld lib)
      (fun r t => (r = .ok () → StopsAt lib op image s privT privO t true) ∧
        StopsAt lib op image s privT privO t false)
      (fun t => StopsAt lib op image s privT privO t false)
      (v2Write nvram op buf size) s := by
  have hstart : StopsAt lib op image s privT privO s false := .first (Or.inl rfl)
  rw [v2Write_eq, htarget, wp_bind]
  refine wp_writeBuf hstart (fun t ht => ?_) fun t ht => ?_
  · have hdone := ht.of_prefix hp
    have hbetween : StopsAt lib op image s privT privO t false := .between hdone
    refine ⟨?_, hbetween⟩
    dsimp only
    by_cases hreset : op.counterReset = true
    · simp only [hboth, hreset, and_self, if_true, hother]
      refine wp_writeBuf hbetween (fun u hu => ?_) fun u hu => ?_
      · have hdone' := hu.of_prefix hp
        exact ⟨⟨fun _ => .both true hreset hdone hdone', .both false hreset hdone hdone'⟩,
          .both false hreset hdone hdone'⟩
      · have hsecond : StopsAt lib op image s privT privO u false := .second hreset hdone hu
        refine ⟨fun e => ⟨fun h => ?_, hsecond⟩, hsecond⟩
        cases h
    · simp only [hreset, Bool.false_eq_true, and_false, if_false]
      exact ⟨fun _ => .single (by simpa using hreset) hdone, hbetween⟩
  · refine ⟨fun e => ⟨fun h => ?_, .first ht⟩, .first ht⟩
    cases h

theorem wp_v2Commit {list : List Entry} (hboth : nvram.Both)
    (htarget : nvram.target (commitPlan lib nvram).1 = some privT)
    (hother : nvram.other (commitPlan lib nvram).1 = some privO)
    (himage : (commitImage lib nvram list).bytes ≠ []) :
    wp (commitWorld lib)
      (fun r t => StopsAt lib (commitPlan lib nvram).1 (commitImage lib nvram list).bytes s
        privT privO t (acknowledged (some r)))
      (fun t => StopsAt lib (commitPlan lib nvram).1 (commitImage lib nvram list).bytes s
        privT privO t false)
      (v2Commit lib nvram list) s := by
  have hstart : StopsAt lib (commitPlan lib nvram).1 (commitImage lib nvram list).bytes s
      privT privO s false := .first (Or.inl rfl)
  simp only [v2Commit_eq, malloc_bind, List.length_eq_zero_iff, himage, if_false]
  refine wp_commit_op rfl hstart fun m => ?_
  cases m with
  | none =>
      simp only [prErr_bind]
      exact wp_commit_op rfl hstart fun _ => hstart
  | some mem =>
      rw [wp_bind]
      refine wp_mono (fun r t hr => ?_) (fun t ht => ht)
        (wp_v2Write hboth htarget hother (List.prefix_append _ _))
      obtain ⟨hok, hstop⟩ := hr
      cases r with
      | error e => exact hstop
      | ok u =>
          simp only [prDbg_bind]
          exact wp_commit_op rfl hstop fun _ => hok rfl

end

/-! ### Every stop is reached -/

section

variable {i : Interface} {priv : NvramPriv} {buf : Bytes} {size : UInt32} {s t : Contents}

theorem exec_writeBuf_done (h : WriteDone priv.path buf s t) :
    Exec (commitWorld lib) (writeBuf i (some priv) buf size) s (some (.ok ())) t := by
  have hwrite : (commitWorld lib).step s (.write i (some priv) buf) (.ok ()) t := Or.inl ⟨rfl, h⟩
  simp only [writeBuf, Interface.sectionOf_bind, prDbg_bind, Interface.write_bind]
  exact .step (r := none) ⟨trivial, rfl⟩
    (.step (r := ()) ⟨trivial, rfl⟩ (.step hwrite (.ret _ _)))

theorem exec_writeBuf_halted (h : WriteDone priv.path buf s t ∨ WriteFailed lib priv.path s t) :
    Exec (commitWorld lib) (writeBuf i (some priv) buf size) s none t := by
  have hwrite : (commitWorld lib).halt s (.write i (some priv) buf) t := h
  simp only [writeBuf, Interface.sectionOf_bind, prDbg_bind, Interface.write_bind]
  exact .step (r := none) ⟨trivial, rfl⟩ (.step (r := ()) ⟨trivial, rfl⟩ (.halt hwrite))

end

section

variable {nvram : V2Nvram} {op : LibnvramOperation} {image : Bytes} {s t : Contents}
  {privT privO : NvramPriv} {acked : Bool}

/-- The writes of a commit returned 0, or the power went in one of them. -/
def writesEnd (acked : Bool) : Option (Except Errno Unit) :=
  if acked then some (.ok ()) else none

theorem exec_v2Write (size : UInt32) (hboth : nvram.Both)
    (htarget : nvram.target op = some privT) (hother : nvram.other op = some privO)
    (h : StopsAt lib op image s privT privO t acked) :
    Exec (commitWorld lib) (v2Write nvram op image size) s (writesEnd acked) t := by
  rw [v2Write_eq, htarget]
  cases h with
  | first hfailed => exact (exec_writeBuf_halted (Or.inr hfailed)).bind_halted
  | between hdone => exact (exec_writeBuf_halted (Or.inl hdone)).bind_halted
  | single hreset hdone =>
      refine (exec_writeBuf_done hdone).bind ?_
      simp only [hreset, Bool.false_eq_true, and_false, if_false]
      exact .ret _ _
  | second hreset hdone hfailed =>
      refine (exec_writeBuf_done hdone).bind ?_
      simp only [hboth, hreset, and_self, if_true, hother]
      exact exec_writeBuf_halted (Or.inr hfailed)
  | both acked hreset hdone hdone' =>
      refine (exec_writeBuf_done hdone).bind ?_
      simp only [hboth, hreset, and_self, if_true, hother]
      cases acked with
      | true => exact exec_writeBuf_done hdone'
      | false => exact exec_writeBuf_halted (Or.inl hdone')

/-- In each of those contents a commit can end or be stopped. -/
theorem exists_exec_v2Commit (hi : lib.ImageLaws) {list : List Entry} (hboth : nvram.Both)
    (htarget : nvram.target (commitPlan lib nvram).1 = some privT)
    (hother : nvram.other (commitPlan lib nvram).1 = some privO)
    (himage : lib.image list (commitPlan lib nvram).2 ≠ [])
    (h : StopsAt lib (commitPlan lib nvram).1 (lib.image list (commitPlan lib nvram).2) s privT
      privO t acked) :
    ∃ out, Exec (commitWorld lib) (v2Commit lib nvram list) s out t ∧
      acknowledged out = acked := by
  have hlength : (commitImage lib nvram list).bytes.length = (lib.serializeSize list).toNat :=
    (hi.good list _ himage).length
  have hempty : (commitImage lib nvram list).bytes ≠ [] := himage
  have hmalloc : (commitWorld lib).step s (.malloc (lib.serializeSize list).toNat)
      (some (zeros _)) s := ⟨trivial, rfl⟩
  have hwrites := exec_v2Write (lib.serializeSize list) hboth htarget hother h
  have hbuf : (commitImage lib nvram list).bytes ++ (zeros (lib.serializeSize list).toNat).val.drop
      (commitImage lib nvram list).bytes.length = lib.image list (commitPlan lib nvram).2 := by
    rw [List.drop_of_length_le (by rw [(zeros _).2, hlength]), List.append_nil]
    rfl
  simp only [v2Commit_eq, malloc_bind, List.length_eq_zero_iff, hempty, if_false]
  cases acked with
  | true =>
      let trans := lib.updateTransaction nvram.trans (commitPlan lib nvram).1
        (commitImage lib nvram list).hdr
      refine ⟨some (.ok (), { nvram with trans }), .step hmalloc ?_, rfl⟩
      dsimp only
      rw [hbuf]
      exact hwrites.bind (.step (r := ()) ⟨trivial, rfl⟩ (.ret _ _))
  | false =>
      refine ⟨none, .step hmalloc ?_, rfl⟩
      dsimp only
      rw [hbuf]
      exact hwrites.bind_halted

end

/-! ### A commit as a turn of the two slots -/

section

variable (hi : lib.ImageLaws) {path : CString} {s t : Contents} {list : List Entry}
  {hdr : LibnvramHeader}

include hi

theorem WriteDone.slot (h : WriteDone path (lib.image list hdr) s t)
    (himage : lib.image list hdr ≠ []) :
    slotOf lib (t path) = some (hdr.counter.toNat, list) := by
  obtain ⟨new, hnew, _, rfl⟩ := h
  rw [Function.update_self]
  exact slotOf_image hi himage hnew

omit hi in
theorem WriteDone.elsewhere {image : Bytes} (h : WriteDone path image s t) {p : CString}
    (hp : p ≠ path) : t p = s p := by
  obtain ⟨new, _, _, rfl⟩ := h
  exact Function.update_of_ne hp _ _

omit hi in
theorem WriteFailed.elsewhere (h : WriteFailed lib path s t) {p : CString} (hp : p ≠ path) :
    t p = s p := by
  rcases h with rfl | ⟨new, _, _, rfl⟩
  · rfl
  · exact Function.update_of_ne hp _ _

omit hi in
theorem WriteFailed.spoiled (h : WriteFailed lib path s t) :
    Spoiled (slotOf lib (s path)) (slotOf lib (t path)) := by
  rcases h with rfl | ⟨new, hnew, _, rfl⟩
  · exact Or.inl rfl
  · right
    rw [Function.update_self]
    exact dataSlot_eq_none_of_not_verified hnew

/-- Every stop of a commit is one of the two-slot protocol. -/
theorem CommitStops.commit {target other : CString} {reset acked : Bool}
    (h : CommitStops lib target other (lib.image list hdr) reset s t acked)
    (himage : lib.image list hdr ≠ []) (hne : other ≠ target) :
    TwoSlot.Commit list hdr.counter.toNat reset (slotOf lib (s target)) (slotOf lib (s other))
      (slotOf lib (t target)) (slotOf lib (t other)) acked := by
  cases h with
  | first ht =>
      rw [ht.elsewhere hne]
      exact .first ht.spoiled
  | between ht =>
      rw [ht.elsewhere hne, ht.slot hi himage]
      exact .between
  | single hreset ht =>
      rw [ht.elsewhere hne, ht.slot hi himage]
      exact .single hreset
  | second hreset ht hu =>
      have hspoiled := hu.spoiled
      rw [ht.elsewhere hne] at hspoiled
      rw [hu.elsewhere hne.symm, ht.slot hi himage]
      exact .second hreset hspoiled
  | both acked hreset ht hu =>
      rw [hu.slot hi himage, hu.elsewhere hne.symm, ht.slot hi himage]
      exact .both acked hreset

end

/-- The section holds the image of a list or does not verify. -/
def Whole (lib : Libnvram) (content : Bytes) : Prop :=
  HoldsImage lib content ∨ ¬ Verifies lib content

section

variable {path p : CString} {s t : Contents}

theorem WriteDone.whole {list : List Entry} {hdr : LibnvramHeader}
    (h : WriteDone path (lib.image list hdr) s t) (himage : lib.image list hdr ≠ [])
    (hs : Whole lib (s p)) : Whole lib (t p) := by
  by_cases hp : p = path
  · subst hp
    obtain ⟨new, hnew, _, rfl⟩ := h
    rw [Function.update_self]
    exact Or.inl ⟨list, hdr, himage, hnew⟩
  · rwa [h.elsewhere hp]

theorem WriteFailed.whole (h : WriteFailed lib path s t) (hs : Whole lib (s p)) :
    Whole lib (t p) := by
  by_cases hp : p = path
  · subst hp
    rcases h with rfl | ⟨new, hnew, _, rfl⟩
    · exact hs
    · rw [Function.update_self]
      exact Or.inr hnew
  · rwa [h.elsewhere hp]

theorem CommitStops.whole {target other : CString} {list : List Entry} {hdr : LibnvramHeader}
    {reset acked : Bool} (h : CommitStops lib target other (lib.image list hdr) reset s t acked)
    (himage : lib.image list hdr ≠ []) (hs : Whole lib (s p)) : Whole lib (t p) := by
  cases h with
  | first ht => exact ht.whole hs
  | between ht => exact ht.whole himage hs
  | single _ ht => exact ht.whole himage hs
  | second _ ht hu => exact hu.whole (ht.whole himage hs)
  | both _ _ ht hu => exact hu.whole himage (ht.whole himage hs)

end

/-! ### The init of a session -/

theorem exists_answer {v : View} (hh : ∀ priv, v.Handle priv) (o : Call) :
    ∃ r, Answers lib v o r := by
  cases o with
  | malloc n => exact ⟨some (zeros n), rfl⟩
  | mallocStruct => exact ⟨true, rfl⟩
  | openLock path => exact ⟨.ok 0, 0, rfl⟩
  | flock fd => exact ⟨.ok (), rfl⟩
  | close fd => exact ⟨.ok (), rfl⟩
  | unlink path => exact ⟨.ok (), rfl⟩
  | listSet list entry => exact ⟨_, rfl⟩
  | deserialize data hdr => exact ⟨_, rfl⟩
  | init i path => exact ⟨.ok ⟨0, none, none⟩, fun _ => ⟨_, rfl, hh _⟩⟩
  | size i priv =>
      cases priv with
      | none => exact ⟨.ok 0, trivial⟩
      | some priv => exact ⟨_, fun _ => rfl⟩
  | read i priv n =>
      cases priv with
      | none => exact ⟨.error Errno.eio, trivial⟩
      | some priv =>
          by_cases hn : n ≤ (v.contents priv.path).length
          · have hlen : ((v.contents priv.path).take n).length = n := List.length_take_of_le hn
            exact ⟨.ok ⟨_, hlen⟩, fun _ => ⟨fun hlt => absurd hn (not_le.mpr hlt),
              fun _ _ => ⟨_, rfl, rfl⟩⟩⟩
          · exact ⟨.error Errno.eio, fun _ => ⟨fun _ => ⟨_, rfl⟩, fun hle => absurd hle hn⟩⟩
  | write i priv buf => exact ⟨.ok (), trivial⟩
  | sectionOf i priv => exact ⟨none, trivial⟩
  | errnoIsErange => exact ⟨false, trivial⟩
  | _ => exact ⟨(), trivial⟩

section

variable {i : Interface} {pathA pathB : CString} {c c' : Contents}

theorem reads_initBoth : Confined (Call.Reads i fun _ => True) (fun _ => True)
    (initBoth lib i pathA pathB) :=
  (reads_v2Init lib (fun _ _ => trivial) fun _ _ => trivial).mono (fun _ h => h) fun _ _ => trivial

/-- The view of a session while it inits. -/
abbrev initView (c : Contents) : View := ⟨fun _ => True, fun _ => True, c⟩

theorem wp_initBoth (lib : Libnvram) (i : Interface) (pathA pathB : CString) (c : Contents) :
    wp (initWorld lib)
      (fun r t => InitResult (initView c) i (some pathA) (some pathB) r
        (v2Load lib c (some pathA) (some pathB)) ∧ t = c)
      (fun t => t = c) (initBoth lib i pathA pathB) c := by
  have hunder : Under (Answers lib (initView c)) _ (initBoth lib i pathA pathB) :=
    under_v2Init (fun _ _ => trivial) fun _ _ => trivial
  refine wp_of_under (fun s o r t hs ho hr => ?_) (fun s o t hs ho ht => ?_) reads_initBoth
    hunder rfl
  · subst hs
    obtain ⟨_, hwrite⟩ := ho
    cases o with
    | write i priv buf => cases hwrite
    | _ => exact hr
  · subst hs
    obtain ⟨_, hwrite⟩ := ho
    cases o with
    | write i priv buf => cases hwrite
    | _ => exact ht

theorem exec_initBoth {r : Except Errno (V2Nvram × List Entry)}
    (h : Exec (initWorld lib) (initBoth lib i pathA pathB) c (some r) c') :
    InitResult (initView c) i (some pathA) (some pathB) r
      (v2Load lib c (some pathA) (some pathB)) ∧ c' = c :=
  (wp_iff_exec.mp (wp_initBoth lib i pathA pathB c)).1 r c' h

theorem exec_initBoth_contents {out : Option (Except Errno (V2Nvram × List Entry))}
    (h : Exec (initWorld lib) (initBoth lib i pathA pathB) c out c') : c' = c := by
  cases out with
  | none => exact (wp_iff_exec.mp (wp_initBoth lib i pathA pathB c)).2 c' h
  | some r => exact (exec_initBoth h).2

theorem exists_exec_initBoth (lib : Libnvram) (i : Interface) (pathA pathB : CString)
    (c : Contents) : ∃ r c', Exec (initWorld lib) (initBoth lib i pathA pathB) c (some r) c' := by
  refine exists_exec (I := fun _ => True) (fun s o _ ho => ?_) reads_initBoth trivial
  have hview : ∀ priv, (initView s).Handle priv := fun _ => trivial
  obtain ⟨r, hr⟩ : ∃ r, Answers lib (initView s) o r := exists_answer hview o
  refine ⟨r, s, ?_, trivial⟩
  cases o with
  | write i priv buf => cases ho.2
  | _ => exact ⟨hr, rfl⟩

end

/-- The section a transaction names, and the other one. -/
abbrev planSides (pathA pathB : CString) (op : LibnvramOperation) : CString × CString :=
  if op.writeA then (pathA, pathB) else (pathB, pathA)

theorem V2Nvram.OpenOn.sides {v : View} {i : Interface} {pathA pathB : CString}
    {trans : LibnvramTransaction} {nvram : V2Nvram}
    (hopen : nvram.OpenOn v i (some pathA) (some pathB) trans) (hA : 0 < pathA.strlen)
    (hB : 0 < pathB.strlen) (op : LibnvramOperation) :
    nvram.Both ∧ ∃ privT privO, nvram.target op = some privT ∧ nvram.other op = some privO ∧
      (privT.path, privO.path) = planSides pathA pathB op := by
  obtain ⟨privA, hprivA, hpathA⟩ : ∃ p, nvram.privA = some p ∧ p.path = pathA := by
    have hpath := hopen.pathA
    simpa [configured, hA] using hpath
  obtain ⟨privB, hprivB, hpathB⟩ : ∃ p, nvram.privB = some p ∧ p.path = pathB := by
    have hpath := hopen.pathB
    simpa [configured, hB] using hpath
  have hboth : nvram.Both := by simp [V2Nvram.Both, hprivA, hprivB]
  refine ⟨hboth, ?_⟩
  by_cases hwrite : op.writeA = true
  · refine ⟨privA, privB, ?_, ?_, ?_⟩
    · simp [V2Nvram.target, hboth, hwrite, hprivA]
    · simp [V2Nvram.other, hwrite, hprivB]
    · simp [planSides, hwrite, hpathA, hpathB]
  · refine ⟨privB, privA, ?_, ?_, ?_⟩
    · simp [V2Nvram.target, hboth, hwrite, hprivB]
    · simp [V2Nvram.other, hwrite, hprivA]
    · simp [planSides, hwrite, hpathA, hpathB]

/-! ### Runs -/

/-- What every session keeps. -/
structure RunSafe (lib : Libnvram) (pathA pathB : CString) (s : RunState) : Prop where
  safe : Safe counterMax s.history (slotOf lib (s.contents pathA)) (slotOf lib (s.contents pathB))
  wholeA : Whole lib (s.contents pathA)
  wholeB : Whole lib (s.contents pathB)

section

variable (hi : lib.ImageLaws) (ht : lib.TransactionLaws) {i : Interface}
  {pathA pathB : CString} {c : Contents}

include hi in
/-- The data of a clean section, its slot, and that it decodes. -/
theorem Whole.data {content : Bytes} (h : Whole lib content) (hclean : ¬ Oversized lib content) :
    ∃ data, sectionData lib content = some data ∧ dataSlot lib data = slotOf lib content ∧
      Decodes lib data := by
  obtain ⟨data, hdata⟩ : ∃ data, sectionData lib content = some data := by
    cases hcase : sectionData lib content with
    | none => exact absurd (sectionData_eq_none_iff.mp hcase) hclean
    | some data => exact ⟨data, rfl⟩
  refine ⟨data, hdata, by rw [slotOf, hdata, Option.getD_some], ?_⟩
  rcases h with ⟨list, hdr, himage, hpre⟩ | hnot
  · have himg := sectionData_of_image hi himage hpre
    rw [hdata] at himg
    cases himg
    exact decodes_image hi himage
  · intro hv
    rw [Verifies, hdata, Option.getD_some] at hnot
    exact absurd hv hnot

include hi ht in
/-- On clean sections the init of a session loads what is in force, and its transaction takes
its turn. -/
theorem RunSafe.init {s : RunState} (hs : RunSafe lib pathA pathB s)
    (hclean : Clean lib pathA pathB s.contents) (hA : 0 < pathA.strlen) (hB : 0 < pathB.strlen) :
    ∃ a b list, v2Load lib s.contents (some pathA) (some pathB) =
        some (lib.initTransaction a b, list) ∧
      dataSlot lib a = slotOf lib (s.contents pathA) ∧
      dataSlot lib b = slotOf lib (s.contents pathB) ∧ Decodes lib a ∧ Decodes lib b ∧
      MayLoad s.history list := by
  obtain ⟨a, hdataA, hslotA, hdecA⟩ := hs.wholeA.data hi hclean.1
  obtain ⟨b, hdataB, hslotB, hdecB⟩ := hs.wholeB.data hi hclean.2
  obtain ⟨list, hlist⟩ := exists_activeList ht hdecA hdecB
  have hload : v2Load lib s.contents (some pathA) (some pathB) =
      some (lib.initTransaction a b, list) := by
    have hsideA : sideData lib s.contents (some pathA) = some a := by
      simpa [sideData, configured, hA] using hdataA
    have hsideB : sideData lib s.contents (some pathB) = some b := by
      simpa [sideData, configured, hB] using hdataB
    simp only [v2Load, hsideA, hsideB, hlist]
  refine ⟨a, b, list, hload, hslotA, hslotB, hdecA, hdecB, ?_⟩
  obtain ⟨z, hz, rfl⟩ := inForce_of_activeList ht hlist
  rw [hslotA, hslotB] at hz
  have hallowed := hs.safe.allowed z hz
  cases z with
  | none => exact Or.inr (Or.inr ⟨hallowed, rfl⟩)
  | some x => exact hallowed.imp_right Or.inl

include hi ht in
theorem RunSafe.loads {s : RunState} (hs : RunSafe lib pathA pathB s)
    (hclean : Clean lib pathA pathB s.contents) (hA : 0 < pathA.strlen) (hB : 0 < pathB.strlen) :
    InitLoads lib i pathA pathB s := by
  refine ⟨exists_exec_initBoth lib i pathA pathB s.contents, fun r c hr => ?_⟩
  obtain ⟨a, b, list, hload, _, _, _, _, hmay⟩ := hs.init hi ht hclean hA hB
  have hresult := (exec_initBoth hr).1
  rw [hload] at hresult
  obtain ⟨nvram, rfl, _⟩ := hresult
  exact ⟨nvram, list, rfl, hmay⟩

include hi ht in
/-- One session keeps the invariant, wherever its commit ends or is stopped. -/
theorem RunSafe.commit {s : RunState} (hs : RunSafe lib pathA pathB s)
    (hclean : Clean lib pathA pathB s.contents) (hA : 0 < pathA.strlen) (hB : 0 < pathB.strlen)
    (hne : pathA ≠ pathB) {nvram : V2Nvram} {loaded list : List Entry} {c c' : Contents}
    {out : Option (Except Errno Unit × V2Nvram)}
    (hinit : Exec (initWorld lib) (initBoth lib i pathA pathB) s.contents
      (some (.ok (nvram, loaded))) c) (hlist : Serialises lib list)
    (hcommit : Exec (commitWorld lib) (v2Commit lib nvram list) c out c') :
    RunSafe lib pathA pathB ⟨c', s.history.after list (acknowledged out)⟩ := by
  obtain ⟨hresult, rfl⟩ := exec_initBoth hinit
  obtain ⟨a, b, loaded', hload, hslotA, hslotB, hdecA, hdecB, _⟩ := hs.init hi ht hclean hA hB
  rw [hload] at hresult
  obtain ⟨nvram', hok, hopen⟩ := hresult
  cases hok
  obtain ⟨hboth, privT, privO, htarget, hother, hsides⟩ :=
    hopen.sides hA hB (commitPlan lib nvram).1
  have himage : (commitImage lib nvram list).bytes ≠ [] := hlist (commitPlan lib nvram).2
  have hturn := turn_of_init ht hdecA hdecB hopen.trans
  rw [hslotA, hslotB] at hturn
  have hstop : CommitStops lib privT.path privO.path (lib.image list (commitPlan lib nvram).2)
      (commitPlan lib nvram).1.counterReset s.contents c' (acknowledged out) := by
    have hwp := wp_iff_exec.mp (wp_v2Commit (s := s.contents) hboth htarget hother himage)
    cases out with
    | none => exact hwp.2 c' hcommit
    | some r => exact hwp.1 r c' hcommit
  -- in both cases the same argument, with the roles of the sections exchanged
  by_cases hwrite : (commitPlan lib nvram).1.writeA = true
  · rw [planSides, if_pos hwrite] at hsides
    obtain ⟨hT, hO⟩ := Prod.mk.inj hsides
    rw [hT, hO] at hstop
    exact ⟨(hstop.commit hi himage hne.symm).safe (hturn.1 hwrite) hs.safe,
      hstop.whole himage hs.wholeA, hstop.whole himage hs.wholeB⟩
  · rw [planSides, if_neg hwrite] at hsides
    obtain ⟨hT, hO⟩ := Prod.mk.inj hsides
    rw [hT, hO] at hstop
    have hfalse : (commitPlan lib nvram).1.writeA = false := by simpa using hwrite
    exact ⟨((hstop.commit hi himage hne).safe (hturn.2 hfalse) hs.safe.symm).symm,
      hstop.whole himage hs.wholeA, hstop.whole himage hs.wholeB⟩

include hi ht in
theorem PowerRun.runSafe (hA : 0 < pathA.strlen) (hB : 0 < pathB.strlen) (hne : pathA ≠ pathB)
    {s : RunState}
    (h : PowerRun lib i pathA pathB (Serialises lib) (Clean lib pathA pathB) s) :
    RunSafe lib pathA pathB s ∧ Clean lib pathA pathB s.contents := by
  induction h with
  | start hnotA hnotB hclean =>
      refine ⟨⟨?_, Or.inr hnotA, Or.inr hnotB⟩, hclean⟩
      show Safe counterMax History.empty (dataSlot lib _) (dataSlot lib _)
      rw [dataSlot_eq_none_of_not_verified hnotA, dataSlot_eq_none_of_not_verified hnotB]
      exact safe_empty counterMax
  | idle _ hinit hclean ih =>
      obtain rfl := exec_initBoth_contents hinit
      exact ⟨⟨ih.1.safe, ih.1.wholeA, ih.1.wholeB⟩, hclean⟩
  | commit _ hinit hlist hcommit hclean ih =>
      exact ⟨ih.1.commit hi ht ih.2 hA hB hne hinit hlist hcommit, hclean⟩

include hi ht in
/-- In every run whose contents are clean and whose lists serialise, every later init returns
0 with the last acknowledged list or one attempted after it. -/
theorem powerRun_initLoads (hA : 0 < pathA.strlen) (hB : 0 < pathB.strlen) (hne : pathA ≠ pathB)
    {s : RunState}
    (h : PowerRun lib i pathA pathB (Serialises lib) (Clean lib pathA pathB) s) :
    InitLoads lib i pathA pathB s := by
  obtain ⟨hs, hclean⟩ := h.runSafe hi ht hA hB hne
  exact hs.loads hi ht hclean hA hB

end

end

/-! ### A session from what it loads -/

section

variable {i : Interface} {pathA pathB : CString} {okList : List Entry → Prop}
  {okContents : Contents → Prop} {s : RunState} {list : List Entry} {c : Contents}

/-- The operation and the header of a commit after an init on these contents. -/
def sessionPlan (lib : Libnvram) (pathA pathB : CString) (c : Contents) :
    Option (LibnvramOperation × LibnvramHeader) :=
  (v2Load lib c (some pathA) (some pathB)).map fun loaded =>
    lib.nextTransaction loaded.1 listHeader

/-- A session that inits and commits `list` can end wherever a commit of `list` can end. -/
theorem PowerRun.commits (hi : lib.ImageLaws) (hA : 0 < pathA.strlen) (hB : 0 < pathB.strlen)
    (hrun : PowerRun lib i pathA pathB okList okContents s)
    {op : LibnvramOperation} {hdr : LibnvramHeader}
    (hplan : sessionPlan lib pathA pathB s.contents = some (op, hdr)) (hlist : okList list)
    (himage : lib.image list hdr ≠ []) {acked : Bool}
    (hstop : CommitStops lib (planSides pathA pathB op).1 (planSides pathA pathB op).2
      (lib.image list hdr) op.counterReset s.contents c acked) (hclean : okContents c) :
    PowerRun lib i pathA pathB okList okContents ⟨c, s.history.after list acked⟩ := by
  obtain ⟨r, c₀, hinit⟩ := exists_exec_initBoth lib i pathA pathB s.contents
  obtain ⟨hresult, rfl⟩ := exec_initBoth hinit
  obtain ⟨⟨trans, loaded⟩, hload, hnext⟩ := Option.map_eq_some_iff.mp hplan
  rw [hload] at hresult
  obtain ⟨nvram, rfl, hopen⟩ := hresult
  have hcommitPlan : commitPlan lib nvram = (op, hdr) := by
    rw [commitPlan, hopen.trans, hnext]
  obtain ⟨hboth, privT, privO, htarget, hother, hsides⟩ :=
    hopen.sides hA hB (commitPlan lib nvram).1
  rw [hcommitPlan] at hsides
  rw [← hsides] at hstop
  obtain ⟨out, hexec, rfl⟩ : ∃ out,
      Exec (commitWorld lib) (v2Commit lib nvram list) s.contents out c ∧
        acknowledged out = acked := by
    refine exists_exec_v2Commit hi hboth htarget hother ?_ ?_
    · rwa [hcommitPlan]
    · rwa [hcommitPlan]
  exact .commit hrun hinit hlist hexec hclean

end

/-! ### Evaluated on a plain library -/

/-- Two sections of 64 bytes with the given contents. -/
def twoSections (a b : Bytes) : Contents := fun path =>
  if path = lit "a" then a else if path = lit "b" then b else []

def blankSections : Contents := twoSections (List.replicate 64 255) (List.replicate 64 255)

/-- The first bytes of a section, the rest of it erased. -/
def padded (bytes : Bytes) : Bytes := bytes ++ List.replicate (64 - bytes.length) 255

/-- The list `k=value`. -/
def listOf (value : CString) : List Entry := [textEntry (lit "k", value)]

def imageOf (value : CString) (counter : UInt32) : Bytes :=
  plainLibnvram.image (listOf value) ⟨.list, counter, 0⟩

/-- `k=v` is stored in section `a`. -/
def storedSections : Contents :=
  Function.update blankSections (lit "a") (padded (imageOf (lit "v") 1))

/-- Then the write of `k=w` to section `b` is cut off behind the header. -/
def tornSections : Contents :=
  Function.update storedSections (lit "b") (padded ((imageOf (lit "w") 2).take 24))

/-- Then `k=x` is stored in section `b`. -/
def laterSections : Contents :=
  Function.update tornSections (lit "b") (padded (imageOf (lit "x") 2))

/-- The runs on the sections `a` and `b` with the plain library. -/
abbrev SampleRun : RunState → Prop :=
  PowerRun plainLibnvram .mtd (lit "a") (lit "b") (Serialises plainLibnvram)
    (Clean plainLibnvram (lit "a") (lit "b"))

theorem serialises_listOf {value : CString}
    (h : 20 + (Plain.payload (listOf value)).length < 2 ^ 32) :
    Serialises plainLibnvram (listOf value) :=
  fun hdr => Plain.image_ne_nil h hdr

theorem clean_of_sectionData {c : Contents} (hA : sectionData plainLibnvram (c (lit "a")) ≠ none)
    (hB : sectionData plainLibnvram (c (lit "b")) ≠ none) :
    Clean plainLibnvram (lit "a") (lit "b") c :=
  ⟨sectionData_eq_none_iff.not.mp hA, sectionData_eq_none_iff.not.mp hB⟩

theorem sampleRun_torn :
    SampleRun ⟨tornSections, ⟨some (listOf (lit "v")), [listOf (lit "w")]⟩⟩ := by
  have hblank : SampleRun ⟨blankSections, History.empty⟩ :=
    .start (by unfold Verifies; decide) (by unfold Verifies; decide)
      (clean_of_sectionData (by decide) (by decide))
  have hstored : SampleRun ⟨storedSections, ⟨some (listOf (lit "v")), []⟩⟩ := by
    have hdone : WriteDone (lit "a") (imageOf (lit "v") 1) blankSections storedSections :=
      ⟨_, List.prefix_append _ _, by decide, rfl⟩
    have hplan : sessionPlan plainLibnvram (lit "a") (lit "b") blankSections =
        some (⟨true, false⟩, ⟨.list, 1, 0⟩) := by
      decide
    exact hblank.commits Plain.imageLaws (by decide) (by decide) hplan
      (serialises_listOf (by decide)) (by decide) (.single rfl hdone)
      (clean_of_sectionData (by decide) (by decide))
  have hfailed : WriteFailed plainLibnvram (lit "b") storedSections tornSections :=
    Or.inr ⟨_, by unfold Verifies; decide, by decide, rfl⟩
  have hplan : sessionPlan plainLibnvram (lit "a") (lit "b") storedSections =
      some (⟨false, false⟩, ⟨.list, 2, 0⟩) := by
    decide
  exact hstored.commits Plain.imageLaws (by decide) (by decide) hplan
    (serialises_listOf (by decide)) (by decide) (.first hfailed)
    (clean_of_sectionData (by decide) (by decide))

/-- A complete commit, a write that is cut off, and a later session with a complete commit. -/
theorem powerRun_initLoads_sample :
    InitLoads plainLibnvram .mtd (lit "a") (lit "b")
        ⟨tornSections, ⟨some (listOf (lit "v")), [listOf (lit "w")]⟩⟩ ∧
      InitLoads plainLibnvram .mtd (lit "a") (lit "b")
        ⟨laterSections, ⟨some (listOf (lit "x")), []⟩⟩ := by
  have hdone : WriteDone (lit "b") (imageOf (lit "x") 2) tornSections laterSections :=
    ⟨_, List.prefix_append _ _, by decide, rfl⟩
  have hplan : sessionPlan plainLibnvram (lit "a") (lit "b") tornSections =
      some (⟨false, false⟩, ⟨.list, 2, 0⟩) := by
    decide
  have hlater : SampleRun ⟨laterSections, ⟨some (listOf (lit "x")), []⟩⟩ :=
    sampleRun_torn.commits Plain.imageLaws (by decide) (by decide) hplan
      (serialises_listOf (by decide)) (by decide) (.single rfl hdone)
      (clean_of_sectionData (by decide) (by decide))
  exact ⟨powerRun_initLoads Plain.imageLaws Plain.transactionLaws (by decide) (by decide)
      (by decide) sampleRun_torn,
    powerRun_initLoads Plain.imageLaws Plain.transactionLaws (by decide) (by decide)
      (by decide) hlater⟩

/-- Section `a` starts with the header of an image of 120 bytes. -/
def foreignSections : Contents :=
  twoSections (Plain.headerBytes 1 100 0 ++ List.replicate 44 0) (List.replicate 64 0)

/-- Content that does not verify, with the header of a larger section's image, makes the
first init fail. -/
theorem powerRun_init_fails_on_foreign_header :
    ∃ s, PowerRun plainLibnvram .mtd (lit "a") (lit "b") (fun _ => True) (fun _ => True) s ∧
      ¬ InitLoads plainLibnvram .mtd (lit "a") (lit "b") s := by
  refine ⟨⟨foreignSections, History.empty⟩, .start (by unfold Verifies; decide)
    (by unfold Verifies; decide) trivial, ?_⟩
  rintro ⟨⟨r, c, hr⟩, hall⟩
  obtain ⟨nvram, list, rfl, _⟩ := hall r c hr
  have hnone : v2Load plainLibnvram foreignSections (some (lit "a")) (some (lit "b")) = none := by
    decide
  have hresult := (exec_initBoth hr).1
  rw [hnone] at hresult
  obtain ⟨e, he⟩ := hresult
  cases he

end Nvram
