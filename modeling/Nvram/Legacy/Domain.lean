import Nvram.Legacy.Lines

/-!
# The round-trip domain of the legacy format

Entries whose keys and values are C strings.  `legacy_commit` takes exactly the lists that
keep its separators out, prints them into a buffer of the size it computed before, and
`populate_list` gives the list back exactly when no key is empty or starts with a blank and
no value is empty.
-/

namespace Nvram

open Effects Errno

/-! ### Text entries -/

/-- The separators are not in the texts they end. -/
def TextWritable (t : CString × CString) : Prop :=
  equals ∉ t.1.bytes ∧ newline ∉ t.1.bytes ∧ newline ∉ t.2.bytes

/-- A key that the parser takes as it stands, and a value. -/
def TextReadable (t : CString × CString) : Prop :=
  t.1.bytes ≠ [] ∧ t.1.bytes.head? ≠ some space ∧ t.1.bytes.head? ≠ some tab ∧ t.2.bytes ≠ []

instance (t : CString × CString) : Decidable (TextWritable t) :=
  inferInstanceAs (Decidable (_ ∧ _))

instance (t : CString × CString) : Decidable (TextReadable t) :=
  inferInstanceAs (Decidable (_ ∧ _))

@[simp] theorem textOf_bytesZ (s : CString) : textOf s.bytesZ = s.bytes := by
  rw [textOf, CString.ofBuf_bytesZ]

theorem mem_bytesZ_iff {b : UInt8} (h : b ≠ 0) (s : CString) : b ∈ s.bytesZ ↔ b ∈ s.bytes := by
  simp [CString.bytesZ, h]

theorem row_textEntry (t : CString × CString) : row (textEntry t) = textRow t := by
  rw [row_eq, textEntry, textOf_bytesZ, textOf_bytesZ]
  rfl

theorem flatMap_row_textEntry (texts : List (CString × CString)) :
    (texts.map textEntry).flatMap row = texts.flatMap textRow := by
  rw [List.flatMap_map]
  exact congrArg (texts.flatMap ·) (funext row_textEntry)

theorem writable_textEntry_iff (t : CString × CString) :
    Writable (textEntry t) ↔ TextWritable t := by
  have hequals : equals ∈ (textEntry t).key ↔ equals ∈ t.1.bytes := mem_bytesZ_iff (by decide) _
  have hnewline : newline ∈ (textEntry t).key ↔ newline ∈ t.1.bytes :=
    mem_bytesZ_iff (by decide) _
  have hvalue : newline ∈ (textEntry t).value ↔ newline ∈ t.2.bytes :=
    mem_bytesZ_iff (by decide) _
  constructor
  · intro h
    exact ⟨hequals.not.mp h.noEquals, hnewline.not.mp h.noNewline, hvalue.not.mp h.valueNoNewline⟩
  · intro h
    exact ⟨hequals.not.mpr h.1, hnewline.not.mpr h.2.1, hvalue.not.mpr h.2.2⟩

/-- A row is not longer than all of them. -/
theorem length_row_le {list : List Entry} {e : Entry} (he : e ∈ list) :
    (row e).length ≤ (list.flatMap row).length := by
  obtain ⟨before, after, rfl⟩ := List.append_of_mem he
  rw [List.flatMap_append, List.flatMap_cons, List.length_append, List.length_append]
  omega

theorem storable_texts_iff {texts : List (CString × CString)}
    (hsize : (texts.flatMap textRow).length ≤ intMax) :
    Storable (texts.map textEntry) ↔ ∀ t ∈ texts, TextWritable t := by
  constructor
  · intro h t ht
    exact (writable_textEntry_iff t).mp (h _ (List.mem_map_of_mem ht)).1
  · intro h e he
    have hle := length_row_le he
    rw [flatMap_row_textEntry] at hle
    obtain ⟨t, ht, rfl⟩ := List.mem_map.mp he
    exact ⟨(writable_textEntry_iff t).mpr (h t ht), hle.trans hsize⟩

/-! ### Committing -/

/-- Allocations and writes succeed. -/
def NoFailure : (o : Call) → Call.Res o → Prop
  | .malloc _, r => r.isSome
  | .write _ _ _, r => r = .ok ()
  | _, _ => True

/-- A commit without failures: the rows are written once, or the list is refused and nothing
is written. -/
theorem runs_legacyCommit {nvram : SingleNvram} {list : List Entry} {evs : List CallEvent}
    {r : Except Errno Unit} (hrun : Runs (legacyCommit nvram list) evs r)
    (hok : ∀ e ∈ evs, NoFailure e.op e.res) :
    (Storable list → r = .ok () ∧ Call.writesIn evs =
      [.write nvram.interface nvram.interfacePriv (list.flatMap row)]) ∧
    (¬ Storable list → (∃ e, r = .error e) ∧ Call.writesIn evs = []) := by
  obtain ⟨evs₁, evs₂, sized, rfl, hsize, hrest⟩ := runs_bind_iff.mp hrun
  obtain ⟨hinner, hresult⟩ := (inner_legacySize list 0).runs hsize
  have hsilent : Call.writesIn evs₁ = [] := Call.writesIn_eq_nil fun e he => (hinner e he).2.2.2.2
  rw [Call.writesIn_append, hsilent, List.nil_append]
  cases sized with
  | error e =>
      have hno : ¬ Storable list := fun hlist => by
        cases (hresult _).mpr ⟨hlist, rfl⟩
      obtain ⟨rfl, rfl⟩ := runs_ret_iff.mp hrest
      exact ⟨fun hlist => absurd hlist hno, fun _ => ⟨⟨e, rfl⟩, rfl⟩⟩
  | ok n =>
      obtain ⟨hlist, rfl⟩ := (hresult n).mp rfl
      refine ⟨fun _ => ?_, fun hno => absurd hlist hno⟩
      rw [Nat.zero_add] at hrest
      simp only [malloc_bind] at hrest
      obtain ⟨mem, evs₃, rfl, hmem⟩ := runs_op_iff.mp hrest
      obtain ⟨buf, hbuf⟩ := Option.isSome_iff_exists.mp (hok ⟨_, mem⟩ (by simp))
      obtain rfl : mem = some buf := hbuf
      obtain ⟨text, hfill, htake⟩ := legacyFill_rows hlist buf.property
      simp only [hfill, htake, Interface.write_bind] at hmem
      obtain ⟨done, evs₄, rfl, hend⟩ := runs_op_iff.mp hmem
      obtain rfl : done = .ok () := hok ⟨_, done⟩ (by simp)
      obtain ⟨rfl, rfl⟩ := runs_ret_iff.mp hend
      exact ⟨rfl, rfl⟩

/-! ### Reading back -/

theorem rereadKey_textEntry (t : CString × CString) :
    rereadKey (textEntry t) = t.1.bytes.dropWhile isBlank := by
  rw [rereadKey, textEntry, textOf_bytesZ]

theorem reread_textEntry {t : CString × CString} (hw : TextWritable t) (hr : TextReadable t) :
    Rereadable (textEntry t) ∧ reread (textEntry t) = textEntry t := by
  obtain ⟨hne, hspace, htab, hvalue⟩ := hr
  have hkey : rereadKey (textEntry t) = t.1.bytes := by
    rw [rereadKey_textEntry]
    cases hbytes : t.1.bytes with
    | nil => rfl
    | cons b bs =>
        rw [hbytes, List.head?_cons] at hspace htab
        have hnewline : b ≠ newline := fun h => hw.2.1 (by rw [hbytes, h]; exact List.mem_cons_self)
        have hblank : isBlank b = false := by
          simp only [isBlank, Bool.or_eq_false_iff, decide_eq_false_iff_not]
          exact ⟨⟨fun h => hspace (congrArg some h), fun h => htab (congrArg some h)⟩, hnewline⟩
        rw [List.dropWhile_cons_of_neg (by simp [hblank])]
  refine ⟨⟨hkey ▸ hne, ?_⟩, ?_⟩
  · rw [textEntry, textOf_bytesZ]
    exact hvalue
  · rw [reread, hkey]
    simp only [textEntry, textOf_bytesZ]
    rfl

/-- What was read back from a row is readable. -/
theorem textReadable_of_reread {t : CString × CString} {e : Entry} (he : Rereadable e)
    (h : reread e = textEntry t) : TextReadable t := by
  have hkey : rereadKey e = t.1.bytes :=
    List.append_cancel_right (congrArg Entry.key h : rereadKey e ++ [0] = t.1.bytes ++ [0])
  have hvalue : textOf e.value = t.2.bytes :=
    List.append_cancel_right (congrArg Entry.value h : textOf e.value ++ [0] = t.2.bytes ++ [0])
  have hhead := List.head?_dropWhile_not isBlank (textOf e.key)
  have hdrop : (textOf e.key).dropWhile isBlank = t.1.bytes := hkey
  rw [hdrop] at hhead
  refine ⟨hkey ▸ he.1, ?_, ?_, hvalue ▸ he.2⟩
  · intro hspace
    rw [hspace] at hhead
    revert hhead
    decide
  · intro htab
    rw [htab] at hhead
    revert hhead
    decide

/-- The rows of a list are read back as the list exactly when every entry is readable. -/
theorem legacyList_rows_eq_iff {lib : Libnvram} (hset : lib.SetsInPlace)
    {texts : List (CString × CString)} (hdistinct : (texts.map Prod.fst).Nodup)
    (hwritable : ∀ t ∈ texts, TextWritable t) :
    legacyList lib (texts.flatMap textRow) = some (texts.map textEntry) ↔
      ∀ t ∈ texts, TextReadable t := by
  have hput : lib.listSet = fun list entry => Keyed.put Entry.key entry list :=
    funext fun list => funext fun entry => hset list entry
  have hrows : ∀ e ∈ texts.map textEntry, Writable e := by
    intro e he
    obtain ⟨t, ht, rfl⟩ := List.mem_map.mp he
    exact (writable_textEntry_iff t).mpr (hwritable t ht)
  rw [legacyList, ← flatMap_row_textEntry, legacyParse_rows hrows, hput]
  constructor
  · intro h t ht
    by_cases hall : ∀ e ∈ texts.map textEntry, Rereadable e
    · rw [if_pos hall, Option.map_some, Option.some.injEq] at h
      have hmem : textEntry t ∈ texts.map textEntry := List.mem_map_of_mem ht
      rw [← h] at hmem
      obtain ⟨e, he, hread⟩ := List.mem_map.mp (Keyed.sets_put.mem_of_mem_foldl hmem)
      exact textReadable_of_reread (hall e he) hread
    · rw [if_neg hall] at h
      cases h
  · intro hread
    have hboth : ∀ e ∈ texts.map textEntry, Rereadable e ∧ reread e = e := by
      intro e he
      obtain ⟨t, ht, rfl⟩ := List.mem_map.mp he
      exact reread_textEntry (hwritable t ht) (hread t ht)
    have hsame : (texts.map textEntry).map reread = texts.map textEntry := by
      rw [List.map_congr_left fun e he => (hboth e he).2]
      exact List.map_id' _
    have hkeys : Keyed.Distinct Entry.key (texts.map textEntry) := by
      have hmap : (texts.map textEntry).map Entry.key = (texts.map Prod.fst).map CString.bytesZ := by
        rw [List.map_map, List.map_map]
        rfl
      rw [Keyed.Distinct, hmap]
      exact hdistinct.map CString.bytesZ_injective
    rw [if_pos fun e he => (hboth e he).1, Option.map_some, hsame]
    exact congrArg some (Keyed.foldl_put_append hkeys)

/-! ### The domain -/

/-- The first pass computes `size`, and the second pass prints exactly that much into
`size + 1` bytes: no row is cut and the room left never wraps. -/
structure PassesAgree (list : List Entry) (size : ℕ) : Prop where
  first : ∀ evs r, Runs (legacySize 0 list) evs r → r = .ok size
  second : ∀ mem : Bytes, mem.length = size + 1 →
    (∀ buf pos entry rest, FillRounds mem list buf pos (entry :: rest) →
      pos ≤ mem.length ∧ (row entry).length < mem.length - pos) ∧
    ∃ buf, FillRounds mem list buf size [] ∧ legacyFill mem 0 list = .ok buf ∧
      buf.take size = list.flatMap row

theorem Storable.passesAgree {list : List Entry} (h : Storable list) :
    PassesAgree list (list.flatMap row).length where
  first evs r hrun := by
    have hresult := ((inner_legacySize list 0).runs hrun).2 (list.flatMap row).length
    exact hresult.mpr ⟨h, (Nat.zero_add _).symm⟩
  second mem hmem := legacyFill_exact (fun e he => (h e he).2) hmem

/-- Which lists of text entries are written, what is written, and which of them are read
back unchanged. -/
theorem legacy_round_trip_domain {lib : Libnvram} (hset : lib.SetsInPlace)
    {texts : List (CString × CString)} (hdistinct : (texts.map Prod.fst).Nodup)
    (hsize : (texts.flatMap textRow).length ≤ intMax) {nvram : SingleNvram}
    {evs : List CallEvent} {r : Except Errno Unit}
    (hrun : Runs (legacyCommit nvram (texts.map textEntry)) evs r)
    (hok : ∀ e ∈ evs, NoFailure e.op e.res) :
    (r = .ok () ↔ ∀ t ∈ texts,
      equals ∉ t.1.bytes ∧ newline ∉ t.1.bytes ∧ newline ∉ t.2.bytes) ∧
    (r = .ok () →
      Call.writesIn evs =
        [.write nvram.interface nvram.interfacePriv (texts.flatMap textRow)] ∧
      PassesAgree (texts.map textEntry) (texts.flatMap textRow).length ∧
      Under (Allocated lib) (fun loaded => loaded = .ok (texts.map textEntry) ↔
          ∀ t ∈ texts, t.1.bytes ≠ [] ∧ t.1.bytes.head? ≠ some space ∧
            t.1.bytes.head? ≠ some tab ∧ t.2.bytes ≠ [])
        (populateList [] (texts.flatMap textRow))) := by
  obtain ⟨hwritten, hrefused⟩ := runs_legacyCommit hrun hok
  have hstorable := storable_texts_iff hsize
  have hresult : r = .ok () ↔ Storable (texts.map textEntry) := by
    constructor
    · intro hr
      by_contra hno
      obtain ⟨e, he⟩ := (hrefused hno).1
      rw [hr] at he
      cases he
    · exact fun h => (hwritten h).1
  refine ⟨hresult.trans hstorable, fun hr => ?_⟩
  have hlist := hresult.mp hr
  have hagree := hlist.passesAgree
  rw [flatMap_row_textEntry] at hagree
  refine ⟨?_, hagree, ?_⟩
  · rw [(hwritten hlist).2, flatMap_row_textEntry]
  · refine (under_populateList_nil (texts.flatMap textRow)).mono fun loaded hloaded => ?_
    rw [← legacyParse_eq_referenceParse] at hloaded
    have hread := legacyList_rows_eq_iff hset hdistinct (hstorable.mp hlist)
    rw [legacyList] at hread
    refine Iff.trans ?_ hread
    rw [hloaded]
    cases (legacyParse (texts.flatMap textRow)).map (·.foldl lib.listSet []) with
    | none => exact iff_of_false (fun h => by cases h) fun h => by cases h
    | some list =>
        constructor
        · intro h
          exact congrArg some (Except.ok.inj h)
        · intro h
          exact congrArg Except.ok (Option.some.inj h)

/-- Two entries, the first with an equals sign in its value, the second with a blank before
its value. -/
theorem legacy_round_trip_domain_sample :
    PassesAgree [textEntry (lit "key", lit "a=b"), textEntry (lit "a", lit " 1")] 13 ∧
      Under (Allocated plainLibnvram)
        (fun loaded =>
          loaded = .ok [textEntry (lit "key", lit "a=b"), textEntry (lit "a", lit " 1")])
        (populateList [] (lit "key=a=b\na= 1\n").bytes) := by
  have hset : plainLibnvram.SetsInPlace := fun _ _ => rfl
  have hrun : Runs (legacyCommit ⟨.file, none⟩
        ([(lit "key", lit "a=b"), (lit "a", lit " 1")].map textEntry))
      [⟨.malloc 14, some ⟨List.replicate 14 0, rfl⟩⟩,
        ⟨.write .file none (lit "key=a=b\na= 1\n").bytes, .ok ()⟩] (.ok ()) :=
    .op (.op (.ret _))
  have hok : ∀ e ∈ ([⟨.malloc 14, some ⟨List.replicate 14 0, rfl⟩⟩,
      ⟨.write .file none (lit "key=a=b\na= 1\n").bytes, .ok ()⟩] : List CallEvent),
      NoFailure e.op e.res := by
    intro e he
    rcases List.mem_pair.mp he with rfl | rfl
    · rfl
    · rfl
  obtain ⟨-, h⟩ := legacy_round_trip_domain hset (by decide) (by decide) hrun hok
  obtain ⟨-, hagree, hread⟩ := h rfl
  exact ⟨hagree, hread.mono fun loaded h => h.mpr (by decide)⟩

end Nvram
