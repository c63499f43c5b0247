import Nvram.Legacy.Rows
import Nvram.Program.Invocation

/-!
# Sessions of the legacy format

`legacyInit` accepts one section and makes the list of its rows.  `legacyCommit` writes the
rows of a list that it finds writable, and nothing of any other list.
-/

namespace Nvram

open Effects Errno

/-- The section of a legacy side: the A section, and no B section beside it. -/
def legacySection (sectionA sectionB : Option CString) : Option CString :=
  if emptySection sectionB then configured sectionA else none

theorem configured_of_legacySection {sectionA sectionB : Option CString} {path : CString}
    (h : legacySection sectionA sectionB = some path) : configured sectionA = some path := by
  unfold legacySection at h
  split at h
  · exact h
  · cases h

theorem eq_of_legacySection {sectionA sectionB : Option CString} {path p : CString}
    (hpath : legacySection sectionA sectionB = some path) (hp : configured sectionA = some p) :
    p = path :=
  Option.some.inj (hp.symm.trans (configured_of_legacySection hpath))

/-- The list of a content, `none` if a line is malformed. -/
def legacyList (lib : Libnvram) (content : Bytes) : Option (List Entry) :=
  (legacyParse content).map (·.foldl lib.listSet [])

/-- The handle of `legacy_init` on a section. -/
structure SingleNvram.OpenOn (v : View) (i : Interface) (path : CString) (nvram : SingleNvram) :
    Prop where
  interface : nvram.interface = i
  priv : ∃ priv, nvram.interfacePriv = some priv ∧ priv.path = path ∧ v.Handle priv

/-- The result of the init of a format with one section, `list` being what a content holds. -/
def SingleResult (list : Bytes → Option (List Entry)) (v : View) (i : Interface)
    (sectionA sectionB : Option CString) (r : Except Errno (SingleNvram × List Entry)) : Prop :=
  match legacySection sectionA sectionB with
  | none => ∃ e, r = .error e
  | some path =>
    match list (v.contents path) with
    | none => ∃ e, r = .error e
    | some list => ∃ nvram, r = .ok (nvram, list) ∧ nvram.OpenOn v i path

/-- The result of `legacy_init` on what its section shows. -/
abbrev LegacyResult (lib : Libnvram) := SingleResult (legacyList lib)

theorem SingleResult.of_ok {list : Bytes → Option (List Entry)} {v : View} {i : Interface}
    {sectionA sectionB : Option CString} {nvram : SingleNvram} {loaded : List Entry}
    (h : SingleResult list v i sectionA sectionB (.ok (nvram, loaded))) :
    ∃ path, legacySection sectionA sectionB = some path ∧ list (v.contents path) = some loaded ∧
      nvram.OpenOn v i path := by
  unfold SingleResult at h
  split at h
  · obtain ⟨e, he⟩ := h
    cases he
  · rename_i path hpath
    split at h
    · obtain ⟨e, he⟩ := h
      cases he
    · rename_i list' hlist
      obtain ⟨nvram', hok, hopen⟩ := h
      obtain ⟨rfl, rfl⟩ := Prod.mk.inj (Except.ok.inj hok)
      exact ⟨path, hpath, hlist, hopen⟩

/-- A list that `legacy_commit` writes. -/
def Storable (list : List Entry) : Prop :=
  ∀ e ∈ list, Writable e ∧ (row e).length ≤ intMax

/-! ### Init -/

section

variable {lib : Libnvram} {fails : Prop} {A : (o : Call) → Call.Res o → Prop}
  (hA : Allocates lib fails A)

include hA

theorem under_appendNullTerminator (entry : Entry) :
    Under A (fun r => r = .ok ⟨entry.key ++ [0], entry.value ++ [0]⟩ ∨ Failed fails r)
      (appendNullTerminator entry) := by
  have hmem : ∀ n r, A (.malloc n) r → r = none → fails := fun n r hr hnone =>
    (hA.malloc n r hr).resolve_left (by simp [hnone])
  simp only [appendNullTerminator, malloc_bind]
  intro r hr
  cases r with
  | none => exact Or.inr ⟨hmem _ _ hr rfl, _, rfl⟩
  | some _ =>
      intro r hr
      cases r with
      | none => exact Or.inr ⟨hmem _ _ hr rfl, _, rfl⟩
      | some _ => exact Or.inl rfl

theorem under_populateFrom (fuel : ℕ) (list : List Entry) (buf : Bytes) :
    Under A (fun r => r = orError einval ((parseRows fuel buf).map (·.foldl lib.listSet list)) ∨
        Failed fails r) (populateFrom fuel list buf) := by
  induction fuel generalizing list buf with
  | zero =>
      cases buf with
      | nil => exact Or.inl rfl
      | cons b buf => exact Or.inl rfl
  | succ fuel ih =>
      cases buf with
      | nil => exact Or.inl rfl
      | cons b buf =>
          rw [populateFrom, parseRows]
          split
          · exact ih list buf
          · cases hentry : findEntry (b :: buf) with
            | none => exact Or.inl rfl
            | some found =>
                obtain ⟨entry, r⟩ := found
                refine under_seq (under_appendNullTerminator hA entry) fun res hres => ?_
                rcases hres with rfl | hfailed
                swap
                · obtain ⟨e, rfl⟩ := hfailed.2
                  exact Or.inr (hfailed.error _)
                simp only [libnvramListSet_bind]
                intro res hres
                rcases hA.listSet _ _ _ hres with rfl | hfailed
                swap
                · obtain ⟨e, rfl⟩ := hfailed.2
                  exact Or.inr (hfailed.error _)
                refine (ih _ ((b :: buf).drop r)).mono fun res hres => ?_
                rwa [Option.map_map]

end

section

variable {lib : Libnvram} {v : View} {i : Interface} {fails : Prop}
  {A : (o : Call) → Call.Res o → Prop} (hA : Truthful lib v fails A)

include hA

theorem under_legacyLoad {path : CString} {priv : NvramPriv} (hpriv : v.Handle priv) :
    Under A (fun r => Yields r (legacyList lib (v.contents priv.path)) ∨ Failed fails r)
      (legacyLoad i path priv) := by
  simp only [legacyLoad, Interface.size_bind]
  intro r hr
  rcases hA.size _ _ _ hr hpriv with rfl | hfailed
  swap
  · obtain ⟨e, rfl⟩ := hfailed.2
    exact fun _ _ => Or.inr (hfailed.error e)
  dsimp only
  split
  · rename_i hpos
    have hne : v.contents priv.path ≠ [] := List.length_pos_iff.mp hpos
    simp only [malloc_bind]
    intro m hm
    cases m with
    | none =>
        have hfails : fails := (hA.malloc _ _ hm).resolve_left (by simp)
        exact fun _ _ => Or.inr ⟨hfails, _, rfl⟩
    | some mem =>
        simp only [Interface.read_bind]
        intro r hr
        rcases hA.read _ _ _ _ hr hpriv le_rfl hne with ⟨buf, rfl, hbuf⟩ | hfailed
        swap
        · obtain ⟨e, rfl⟩ := hfailed.2
          exact fun _ _ => Or.inr (hfailed.error e)
        rw [List.take_length] at hbuf
        refine under_seq (under_populateFrom hA.allocates buf.val.length [] buf.val) fun r hr => ?_
        have hr : Yields r (legacyList lib (v.contents priv.path)) ∨ Failed fails r := by
          rw [← hbuf]
          rcases hr with rfl | hfailed
          · exact Or.inl (yields_orError _ _)
          · exact Or.inr hfailed
        cases r with
        | error e => exact fun _ _ => hr
        | ok list => exact hr
  · rename_i hzero
    have hnil : v.contents priv.path = [] := List.length_eq_zero_iff.mp (Nat.eq_zero_of_not_pos hzero)
    rw [hnil]
    exact Or.inl rfl

/-- The init of a format with one section, in terms of what its `load` returns. -/
theorem under_singleInit (load : CString → NvramPriv → NProg (Except Errno (List Entry)))
    {list : Bytes → Option (List Entry)}
    (hload : ∀ priv, v.Handle priv →
      Under A (fun r => Yields r (list (v.contents priv.path)) ∨ Failed fails r)
        (load priv.path priv))
    (msg : String) {sectionA sectionB : Option CString}
    (hsection : ∀ p, configured sectionA = some p → v.Section p) :
    Under A (fun r => SingleResult list v i sectionA sectionB r ∨ Failed fails r)
      (singleInit msg load i sectionA sectionB) := by
  unfold singleInit
  cases sectionA with
  | none =>
      left
      have hnone : legacySection none sectionB = none := by
        unfold legacySection configured
        split <;> rfl
      rw [SingleResult, hnone]
      exact ⟨einval, rfl⟩
  | some path =>
      dsimp only
      split
      · rename_i hpath
        left
        have hnone : legacySection (some path) sectionB = none := by
          simp [legacySection, configured, Nat.lt_one_iff.mp hpath]
        rw [SingleResult, hnone]
        exact ⟨einval, rfl⟩
      · rename_i hpath
        have hpos : 0 < path.strlen := by omega
        split
        · rename_i hsecond
          refine fun _ _ => Or.inl ?_
          have hnone : legacySection (some path) sectionB = none := by
            simp only [legacySection, if_neg hsecond]
          rw [SingleResult, hnone]
          exact ⟨einval, rfl⟩
        · rename_i hsecond
          have hsome : legacySection (some path) sectionB = some path := by
            simp only [legacySection, if_pos (not_not.mp hsecond), configured, if_pos hpos]
          simp only [SingleResult, hsome, mallocStruct_bind]
          intro ok hok
          cases ok with
          | false =>
              have hfails : fails := (hA.mallocStruct _ hok).resolve_left (by simp)
              exact Or.inr ⟨hfails, _, rfl⟩
          | true =>
              simp only [not_true_eq_false, if_false, Interface.init_bind]
              intro r hr
              rcases hA.init _ _ _ hr (hsection path (by simp [configured, hpos])) with
                ⟨data, rfl, hpriv⟩ | hfailed
              swap
              · obtain ⟨e, rfl⟩ := hfailed.2
                exact fun _ _ => under_seq (under_true _) fun _ _ => Or.inr (hfailed.error e)
              refine under_seq (hload _ hpriv) fun r hr => ?_
              cases r with
              | error e =>
                  refine under_seq (under_true _) fun _ _ => ?_
                  rcases hr with hyields | hfailed
                  · left
                    cases hlist : list (v.contents path) with
                    | none => exact ⟨e, rfl⟩
                    | some list =>
                        rw [hlist] at hyields
                        cases hyields
                  · exact Or.inr (hfailed.error e)
              | ok loaded =>
                  left
                  have hyields := hr.resolve_right fun hfailed => by
                    obtain ⟨_, e, h⟩ := hfailed
                    cases h
                  cases hlist : list (v.contents path) with
                  | none =>
                      rw [hlist] at hyields
                      obtain ⟨e, h⟩ := hyields
                      cases h
                  | some list' =>
                      rw [hlist] at hyields
                      obtain rfl : loaded = list' := Except.ok.inj hyields
                      exact ⟨_, rfl, rfl, _, rfl, rfl, hpriv⟩

theorem under_legacyInit {sectionA sectionB : Option CString}
    (hsection : ∀ p, configured sectionA = some p → v.Section p) :
    Under A (fun r => LegacyResult lib v i sectionA sectionB r ∨ Failed fails r)
      (legacyInit i sectionA sectionB) := by
  rw [legacyInit_eq]
  exact under_singleInit hA (legacyLoad i) (fun _ hpriv => under_legacyLoad hA hpriv) _ hsection

end

def nvramLegacyFormat.initSpec (lib : Libnvram) : nvramLegacyFormat.InitSpec lib where
  Opens v i sections := LegacyResult lib v i sections.1 sections.2
  init hA _ _ hsecA _ := under_legacyInit hA hsecA

/-! ### Commit -/

/-- The first pass accepts exactly the storable lists, and adds up the rows. -/
theorem inner_legacySize (list : List Entry) (bufSize : ℕ) :
    Confined Call.Inner (fun r => ∀ n, r = .ok n ↔
        Storable list ∧ n = bufSize + (list.flatMap row).length) (legacySize bufSize list) := by
  induction list generalizing bufSize with
  | nil => simp [legacySize, Storable, eq_comm]
  | cons e list ih =>
      -- a refused entry
      have hrefused : ∀ r : Except Errno ℕ, (∃ e, r = .error e) →
          ¬ (Writable e ∧ (row e).length ≤ intMax) → ∀ n, r = .ok n ↔
            Storable (e :: list) ∧ n = bufSize + ((e :: list).flatMap row).length := by
        intro r hr hno n
        obtain ⟨err, rfl⟩ := hr
        constructor
        · intro h
          cases h
        · intro h
          exact absurd (h.1 e List.mem_cons_self) hno
      unfold legacySize
      split
      · rename_i hequals
        refine ⟨Call.inner_fprintfStderr _ _, fun _ => hrefused _ ⟨_, rfl⟩ fun h => ?_⟩
        exact hequals (find_eq_none_iff.mpr h.1.noEquals)
      · rename_i hequals
        split
        · rename_i hnewline
          refine ⟨Call.inner_fprintfStderr _ _, fun _ => hrefused _ ⟨_, rfl⟩ fun h => ?_⟩
          exact hnewline (find_eq_none_iff.mpr h.1.noNewline)
        · rename_i hnewline
          split
          · rename_i hvalue
            refine ⟨Call.inner_fprintfStderr _ _, fun _ => hrefused _ ⟨_, rfl⟩ fun h => ?_⟩
            exact hvalue (find_eq_none_iff.mpr h.1.valueNoNewline)
          · rename_i hvalue
            have hwritable : Writable e := ⟨find_eq_none_iff.mp (not_not.mp hequals),
              find_eq_none_iff.mp (not_not.mp hnewline), find_eq_none_iff.mp (not_not.mp hvalue)⟩
            by_cases hmax : intMax < (row e).length
            · rw [snprintf, if_pos hmax]
              exact hrefused _ ⟨_, rfl⟩ fun h => absurd h.2 (not_le.mpr hmax)
            · rw [snprintf, if_neg hmax]
              refine (ih (bufSize + (row e).length)).mono (fun _ h => h) fun r hr n => ?_
              rw [hr n, List.flatMap_cons, List.length_append, ← Nat.add_assoc]
              refine and_congr_left fun _ => ?_
              constructor
              · intro h e' he'
                rcases List.mem_cons.mp he' with rfl | he'
                · exact ⟨hwritable, not_lt.mp hmax⟩
                · exact h e' he'
              · intro h e' he'
                exact h e' (List.mem_cons_of_mem _ he')

/-- The second pass fills the buffer with the rows. -/
theorem legacyFill_rows {list : List Entry} (hlist : Storable list) {mem : Bytes}
    (hmem : mem.length = (list.flatMap row).length + 1) :
    ∃ buf, legacyFill mem 0 list = .ok buf ∧
      buf.take ((list.flatMap row).length + 1 - 1) = list.flatMap row := by
  obtain ⟨-, buf, -, hfill, htake⟩ := legacyFill_exact (fun e he => (hlist e he).2) hmem
  refine ⟨buf, hfill, ?_⟩
  rw [Nat.add_sub_cancel, htake]

namespace Healthy

variable {lib : Libnvram} {σ : Type} {i : Interface} {h : Handler callSig σ}

/-- `legacy_init` on a section: what it returns, and that contents and output stay. -/
theorem run_legacyInit (H : Healthy lib i h) {sections : Option CString × Option CString}
    (hsection : ∀ p, configured sections.1 = some p → H.Section p) (s : σ) :
    ∃ r t, run h (legacyInit i sections.1 sections.2) s = (r, t) ∧
      LegacyResult lib (H.view s) i sections.1 sections.2 r ∧ H.Same s t := by
  have hreads : Confined (Call.Reads i fun _ => True) _ (legacyInit i sections.1 sections.2) :=
    reads_legacyInit fun _ _ => trivial
  obtain ⟨hresult, hcontents, hstdout⟩ := H.run_reads (s := s) hreads
    (under_legacyInit (truthful_answers lib (H.view s)) hsection)
  exact ⟨_, _, rfl, hresult.resolve_right not_failed, hcontents, hstdout⟩

/-- It returns 0 with a list exactly when its section holds the list. -/
theorem run_legacyInit_iff (H : Healthy lib i h) {sections : Option CString × Option CString}
    {path : CString} (hpath : legacySection sections.1 sections.2 = some path)
    (hsection : H.Section path) (s : σ) (list : List Entry) :
    (∃ nvram, (run h (legacyInit i sections.1 sections.2) s).1 = .ok (nvram, list)) ↔
      legacyList lib (H.contents s path) = some list := by
  have hsections : ∀ p, configured sections.1 = some p → H.Section p := fun p hp =>
    eq_of_legacySection hpath hp ▸ hsection
  obtain ⟨r, t, hrun, hresult, -⟩ := H.run_legacyInit hsections s
  have hcontent : (H.view s).contents path = H.contents s path := rfl
  rw [LegacyResult, SingleResult, hpath] at hresult
  dsimp only at hresult
  rw [hcontent] at hresult
  rw [hrun]
  cases hlist : legacyList lib (H.contents s path) with
  | none =>
      rw [hlist] at hresult
      obtain ⟨e, rfl⟩ := hresult
      simp
  | some list' =>
      rw [hlist] at hresult
      obtain ⟨nvram, rfl, -⟩ := hresult
      simp [eq_comm]

/-- The last step of a commit: a write whose error is printed.  It returns 0 exactly when the
bytes fit, and it stores them. -/
theorem run_loggedWrite (H : Healthy lib i h) (fmt : String) {priv : NvramPriv}
    (hpriv : H.Handle priv) (buf : Bytes) (s : σ) :
    ∃ r t, run h (do
        match ← i.write (some priv) buf with
        | .error e =>
          prErr fmt [.str (← i.sectionOf (some priv)), .num e.code, .strerror e]
          return (.error e : Except Errno Unit)
        | .ok () => return .ok ()) s = (r, t) ∧
      (r = .ok () ↔ H.Fits priv.path buf) ∧
      H.contents t = H.storeAt (H.contents s) priv.path buf ∧ H.stdout t = H.stdout s := by
  have hstores := H.stores priv buf s hpriv
  have hprinted := H.printed (.write i (some priv) buf) s (by simp [Call.interface?])
  have hsilent : (Call.write i (some priv) buf).printed = [] := rfl
  rw [hsilent, List.append_nil] at hprinted
  simp only [Interface.write_bind, run_op]
  cases hw : (h (.write i (some priv) buf) s).1 with
  | ok done =>
      refine ⟨_, _, rfl, iff_of_true rfl ?_, hstores, hprinted⟩
      by_contra hno
      obtain ⟨e, he⟩ := H.fails priv buf s hpriv hno
      rw [hw] at he
      cases he
  | error e =>
      have hno : ¬ H.Fits priv.path buf := fun hfits => by
        rw [H.succeeds priv buf s hpriv hfits] at hw
        cases hw
      have hsection : (Call.sectionOf i (some priv)).Reads i fun _ => True :=
        Call.reads_sectionOf fun _ _ => trivial
      generalize (h (.write i (some priv) buf) s).2 = w at hstores hprinted ⊢
      have hlog : ∀ fmt args, H.Same w (h (.fprintfStderr fmt args)
          (h (.sectionOf i (some priv)) w).2).2 := fun fmt args =>
        (H.same_of_reads hsection w).trans (H.same_of_inner (by simp) _)
      simp only [Interface.sectionOf_bind, prErr_bind, run_op]
      exact ⟨.error e, _, rfl, iff_of_false (fun h => by cases h) hno,
        (hlog _ _).1.trans hstores, (hlog _ _).2.trans hprinted⟩

/-- A commit returns 0 exactly when the list is storable and its rows fit, and it writes
them whenever the list is storable. -/
theorem run_legacyCommit (H : Healthy lib i h) {nvram : SingleNvram} {v : View} {path : CString}
    (hopen : nvram.OpenOn v i path) (hhandle : ∀ priv, v.Handle priv → H.Handle priv)
    (list : List Entry) (s : σ) :
    ∃ r t, run h (legacyCommit nvram list) s = (r, t) ∧
      (r = .ok () ↔ Storable list ∧ H.Fits path (list.flatMap row)) ∧
      (Storable list → H.contents t = H.storeAt (H.contents s) path (list.flatMap row)) ∧
      (¬ Storable list → H.contents t = H.contents s) ∧ H.stdout t = H.stdout s := by
  obtain ⟨rfl, priv, hpriv, rfl, hview⟩ := hopen
  obtain ⟨hresult, hsame⟩ := H.run_inner (inner_legacySize list 0) s
  rw [legacyCommit, run_bind]
  generalize run h (legacySize 0 list) s = sized at hresult hsame
  obtain ⟨r, t⟩ := sized
  cases r with
  | error e =>
      have hno : ¬ Storable list := fun hlist => by
        cases (hresult _).mpr ⟨hlist, rfl⟩
      exact ⟨_, t, rfl, ⟨fun h => (by cases h), fun h => absurd h.1 hno⟩,
        fun hlist => absurd hlist hno, fun _ => hsame.1, hsame.2⟩
  | ok n =>
      obtain ⟨hlist, rfl⟩ := (hresult n).mp rfl
      rw [Nat.zero_add]
      have hmalloc := H.answers (.malloc ((list.flatMap row).length + 1)) t
        (by simp [Call.interface?]) rfl
      have hmem := H.same_of_inner (Call.inner_malloc ((list.flatMap row).length + 1)) t
      simp only [malloc_bind, run_op]
      generalize (h (.malloc ((list.flatMap row).length + 1)) t).2 = u at hmem ⊢
      obtain ⟨mem, hsome⟩ := Option.isSome_iff_exists.mp hmalloc
      obtain ⟨buf, hfill, htake⟩ := legacyFill_rows hlist mem.property
      rw [hsome]
      simp only [hfill, htake, hpriv]
      replace hmem := hsame.trans hmem
      obtain ⟨r, w, hrun, hok, hstored, hsilent⟩ := H.run_loggedWrite
        "%s: failed writing [%d]: %s\n" (hhandle priv hview) (list.flatMap row) u
      rw [hmem.1] at hstored
      refine ⟨r, w, hrun, ?_, fun _ => hstored, fun hno => absurd hlist hno,
        hsilent.trans hmem.2⟩
      rw [hok, and_iff_right hlist]

end Healthy

end Nvram
