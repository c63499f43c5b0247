import Nvram.Legacy.Domain
import Nvram.Legacy.Reread

/-!
# Updating one key of a legacy store

The reader keeps every byte of a key and of a value, a NUL among them; the writer prints them
as C strings.  So an update of one key leaves the other entries as they were exactly when
none of them has a NUL inside, or the update had nothing to write.
-/

namespace Nvram

open Effects Errno

/-! ### Entries that were read -/

/-- Key and value are C strings: no NUL but the one at the end. -/
def Entry.Clean (e : Entry) : Prop := textOf e.key ++ [0] = e.key ∧ textOf e.value ++ [0] = e.value

instance (e : Entry) : Decidable e.Clean := inferInstanceAs (Decidable (_ ∧ _))

/-- An entry as the reader makes it: the key has a first byte that is no blank, the value is
not empty. -/
def Entry.Read (e : Entry) : Prop :=
  ∃ b key value, isBlank b = false ∧ value ≠ [] ∧ e = ⟨b :: key ++ [0], value ++ [0]⟩

theorem read_of_lineEntry {line : Bytes} (h : newline ∉ line) (hformed : LineFormed line)
    {e : Entry} (he : lineEntry line = some e) : e.Read := by
  unfold lineEntry at he
  split at he
  · cases he
  · rename_i hne
    obtain ⟨hkey, hvalue⟩ := hformed.resolve_left hne
    obtain ⟨c, cs, hcons⟩ := List.exists_cons_of_ne_nil hne
    have hc : c ≠ equals := by
      intro heq
      rw [lineKey, hcons, List.takeWhile_cons_of_neg (by simp [heq])] at hkey
      exact hkey rfl
    have hhead : lineKey line = c :: cs.takeWhile (· ≠ equals) := by
      rw [lineKey, hcons, List.takeWhile_cons_of_pos (by simp [hc])]
    obtain rfl := Option.some.inj he
    rw [hhead]
    exact ⟨c, _, _, isBlank_head_stripBlanks h hcons, hvalue, rfl⟩

theorem read_of_legacyParse {buf : Bytes} {entries : List Entry}
    (h : legacyParse buf = some entries) {e : Entry} (he : e ∈ entries) : e.Read := by
  rw [legacyParse_eq_referenceParse, referenceParse] at h
  split at h
  · rename_i hformed
    obtain rfl := Option.some.inj h
    obtain ⟨line, hline, hentry⟩ := List.mem_filterMap.mp he
    exact read_of_lineEntry (not_mem_of_mem_lines hline) (hformed line hline) hentry
  · cases h

theorem textOf_append_nul {text : Bytes} (h : (0 : UInt8) ∉ text) : textOf (text ++ [0]) = text :=
  textOf_bytesZ ⟨text, h⟩

theorem nul_not_mem_textOf (buf : Bytes) : (0 : UInt8) ∉ textOf buf := (CString.ofBuf buf).noNul

/-- A clean entry that was read is read again as it is. -/
theorem Entry.Read.reread {e : Entry} (hread : e.Read) (hclean : e.Clean) :
    Rereadable e ∧ Nvram.reread e = e := by
  obtain ⟨b, key, value, hb, hvalue, rfl⟩ := hread
  have hkeyText : textOf (b :: key ++ [0]) = b :: key := List.append_cancel_right hclean.1
  have hvalueText : textOf (value ++ [0]) = value := List.append_cancel_right hclean.2
  have hkey : rereadKey ⟨b :: key ++ [0], value ++ [0]⟩ = b :: key := by
    rw [rereadKey, hkeyText, List.dropWhile_cons_of_neg (by simp [hb])]
  refine ⟨⟨?_, ?_⟩, ?_⟩
  · rw [hkey]
    exact List.cons_ne_nil _ _
  · rw [hvalueText]
    exact hvalue
  · rw [Nvram.reread, hkey, hvalueText]

/-- What is read from a row has no NUL inside. -/
theorem clean_reread (e : Entry) : (Nvram.reread e).Clean := by
  have hkey : (0 : UInt8) ∉ rereadKey e := fun h =>
    nul_not_mem_textOf e.key ((List.dropWhile_sublist _).subset h)
  exact ⟨congrArg (· ++ [0]) (textOf_append_nul hkey),
    congrArg (· ++ [0]) (textOf_append_nul (nul_not_mem_textOf e.value))⟩

/-! ### The rows of an updated list -/

/-- Every key but one has the entry it had. -/
def OthersKept (key : Bytes) (loaded list : List Entry) : Prop :=
  ∀ k, k ≠ key → Keyed.get Entry.key list k = Keyed.get Entry.key loaded k

/-- Entries with other keys are clean. -/
def OthersClean (key : Bytes) (loaded : List Entry) : Prop :=
  ∀ e ∈ loaded, e.key ≠ key → e.Clean

section

variable {lib : Libnvram} (hl : lib.ListLaws)

include hl

theorem read_of_legacyList {content : Bytes} {list : List Entry}
    (h : legacyList lib content = some list) {e : Entry} (he : e ∈ list) : e.Read := by
  obtain ⟨entries, hparse, rfl⟩ := Option.map_eq_some_iff.mp h
  have hsets : Keyed.Sets Entry.key lib.listSet := hl.listSet
  exact read_of_legacyParse hparse (hsets.mem_of_mem_foldl he)

/-- What is read from rows is clean. -/
theorem clean_of_legacyList_rows {list loaded : List Entry} (hw : ∀ e ∈ list, Writable e)
    (h : legacyList lib (list.flatMap row) = some loaded) {e : Entry} (he : e ∈ loaded) :
    e.Clean := by
  have hsets : Keyed.Sets Entry.key lib.listSet := hl.listSet
  rw [legacyList, legacyParse_rows hw] at h
  obtain ⟨entries, hparse, rfl⟩ := Option.map_eq_some_iff.mp h
  split at hparse
  · obtain rfl := Option.some.inj hparse
    obtain ⟨e', -, rfl⟩ := List.mem_map.mp (hsets.mem_of_mem_foldl he)
    exact clean_reread e'
  · cases hparse

/-- Rows of clean entries that can be read are read back as the same map. -/
theorem legacyList_rows_of_clean {list : List Entry} (hdistinct : Keyed.Distinct Entry.key list)
    (hw : ∀ e ∈ list, Writable e) (hread : ∀ e ∈ list, Rereadable e ∧ reread e = e) :
    ∃ loaded, legacyList lib (list.flatMap row) = some loaded ∧
      ∀ k, Keyed.get Entry.key loaded k = Keyed.get Entry.key list k := by
  have hsets : Keyed.Sets Entry.key lib.listSet := hl.listSet
  have hsame : list.map reread = list := by
    rw [List.map_congr_left fun e he => (hread e he).2]
    exact List.map_id' _
  refine ⟨list.foldl lib.listSet [], ?_, hsets.get_foldl_of_distinct hdistinct⟩
  rw [legacyList, legacyParse_rows hw, if_pos fun e he => (hread e he).1, hsame]
  rfl

/-- After an update of `key` the rows give back the other entries exactly when these are
clean. -/
theorem othersKept_iff {content : Bytes} {loaded list : List Entry} {key : Bytes}
    (hloaded : legacyList lib content = some loaded)
    (hdistinct : Keyed.Distinct Entry.key list) (hothers : OthersKept key loaded list)
    (hupdated : ∀ e ∈ list, e.key = key → Rereadable e ∧ reread e = e)
    (hw : ∀ e ∈ list, Writable e) :
    (∃ after, legacyList lib (list.flatMap row) = some after ∧ OthersKept key loaded after) ↔
      OthersClean key loaded := by
  have hloadedDistinct := legacyList_distinct hl hloaded
  constructor
  · intro h e he hkey
    obtain ⟨after, hafter, hkept⟩ := h
    have hget := Keyed.get_of_mem hloadedDistinct he
    rw [← hkept e.key hkey] at hget
    exact clean_of_legacyList_rows hl hw hafter (Keyed.mem_of_get hget)
  · intro hclean
    have hread : ∀ e ∈ list, Rereadable e ∧ reread e = e := by
      intro e he
      by_cases hkey : e.key = key
      · exact hupdated e he hkey
      · have hget := Keyed.get_of_mem hdistinct he
        rw [hothers e.key hkey] at hget
        have hmem := Keyed.mem_of_get hget
        exact (read_of_legacyList hl hloaded hmem).reread (hclean e hmem hkey)
    obtain ⟨after, hafter, hsame⟩ := legacyList_rows_of_clean hl hdistinct hw hread
    exact ⟨after, hafter, fun k hk => (hsame k).trans (hothers k hk)⟩

end

/-! ### One update -/

/-- Setting a key that is read back as it stands to a value, or deleting a key. -/
def UpdatesKey (key : CString) : Operation → Prop
  | .set k value => k = key ∧ key.bytes ≠ [] ∧ key.bytes.head? ≠ some space ∧
    key.bytes.head? ≠ some tab ∧ value.bytes ≠ []
  | .del k => k = key
  | _ => False

instance (key : CString) : (it : Operation) → Decidable (UpdatesKey key it)
  | .set k value => inferInstanceAs (Decidable (k = key ∧ key.bytes ≠ [] ∧
      key.bytes.head? ≠ some space ∧ key.bytes.head? ≠ some tab ∧ value.bytes ≠ []))
  | .del k => inferInstanceAs (Decidable (k = key))
  | .list => inferInstanceAs (Decidable False)
  | .get _ => inferInstanceAs (Decidable False)

theorem UpdatesKey.changes {key : CString} {it : Operation} (h : UpdatesKey key it) :
    it.Changes := by
  cases it with
  | set k value => trivial
  | del k => trivial
  | list => exact h.elim
  | get k => exact h.elim

/-- The list after one update: the other keys are as they were, and what is under the key can
be read back. -/
theorem editAll_update {lib : Libnvram} (hl : lib.ListLaws) {loaded : List Entry}
    (hloaded : Keyed.Distinct Entry.key loaded) {key : CString} {it : Operation}
    (hit : UpdatesKey key it) (hstorable : Storable (editAll lib loaded (edits [it]))) :
    OthersKept key.bytesZ loaded (editAll lib loaded (edits [it])) ∧
      ∀ e ∈ editAll lib loaded (edits [it]), e.key = key.bytesZ → Rereadable e ∧ reread e = e := by
  obtain ⟨hdistinct, hget⟩ := editAll_spec hl hloaded (edits [it])
  cases it with
  | set k value =>
      obtain ⟨rfl, hreadable⟩ := hit
      refine ⟨fun k' hk' => (hget k').trans (if_neg hk'.symm), fun e he hkey => ?_⟩
      have hfound := Keyed.get_of_mem hdistinct he
      have hlast : Keyed.lastOf Entry.key (Keyed.get Entry.key loaded e.key)
          (edits [.set k value]) e.key = some (textEntry (k, value)) := if_pos hkey.symm
      rw [hget e.key, hlast] at hfound
      obtain rfl := Option.some.inj hfound
      exact reread_textEntry ((writable_textEntry_iff _).mp (hstorable _ he).1) hreadable
  | del k =>
      obtain rfl : k = key := hit
      refine ⟨fun k' hk' => (hget k').trans (if_neg hk'.symm), fun e he hkey => ?_⟩
      have hfound := Keyed.get_of_mem hdistinct he
      have hlast : Keyed.lastOf Entry.key (Keyed.get Entry.key loaded e.key)
          (edits [.del k]) e.key = none := if_pos hkey.symm
      rw [hget e.key, hlast] at hfound
      cases hfound
  | list => exact hit.elim
  | get k => exact hit.elim

/-- A successful update of one key leaves the other entries of the file exactly when it found
nothing to write or none of them has a NUL inside. -/
theorem legacy_update_keeps_others_iff {lib : Libnvram} (hl : lib.ListLaws)
    (crc32 : Bytes → UInt32) (cfg : BuildConfig) (gpio : Option CString)
    (fill : (n : ℕ) → {buf : Bytes // buf.length = n}) {m : Machine FileSystem} {env : Environ}
    {args : List CString} {items : List Item} {loaded : List Entry} {key : CString}
    {it : Operation} (hon : OnLegacyFiles cfg env args) (hitems : commandLine args = some items)
    (hone : requested items = [it]) (hit : UpdatesKey key it)
    (hinit : LegacyInits lib gpio fill m (writtenSections cfg env (finalOpts items)) loaded)
    (hzero : (run (fileMachine lib gpio fill) (main lib crc32 cfg env args) m).1 = 0) :
    (∃ list, LegacyInits lib gpio fill (afterMain lib crc32 cfg gpio fill env args m)
        (writtenSections cfg env (finalOpts items)) list ∧
      ∀ k, k ≠ key.bytesZ → Keyed.get Entry.key list k = Keyed.get Entry.key loaded k) ↔
      Unneeded loaded (edits [it]) ∨ ∀ e ∈ loaded, e.key ≠ key.bytesZ → e.Clean := by
  have hchanges : ∀ op ∈ requested items, op.Changes := by
    intro op hop
    rw [hone, List.mem_singleton] at hop
    rw [hop]
    exact hit.changes
  obtain ⟨path, content, hpath, hloaded, hcontent, hleft⟩ :=
    legacy_content_after hl hon hitems hchanges hzero hinit
  have hdistinct := legacyList_distinct hl hloaded
  rw [hone] at hleft
  simp only [legacyInits_iff_of_section hpath, hcontent]
  rcases hleft with ⟨hidle, rfl⟩ | ⟨hbusy, hstorable, rfl⟩
  · exact iff_of_true ⟨loaded, hloaded, fun _ _ => rfl⟩ (Or.inl hidle)
  · obtain ⟨hothers, hupdated⟩ := editAll_update hl hdistinct hit hstorable
    rw [or_iff_right hbusy]
    exact othersKept_iff hl hloaded (editAll_spec hl hdistinct (edits [it])).1 hothers hupdated
      fun e he => (hstorable e he).1

/-- A user store with this content, and no other file. -/
def userFile (content : Bytes) : Machine FileSystem :=
  ⟨⟨fun path => if path = lit "ua" then some content else none, fun _ => none, 3, 0⟩, []⟩

theorem legacy_update_keeps_others_iff_sample :
    (∃ list, LegacyInits plainLibnvram none zeros
        (legacyMain ["--user", "set", "k", "w"] (userFile (lit "a=v\n").bytes)).2
        (some (lit "ua"), some (lit "")) list ∧
      ∀ k, k ≠ (lit "k").bytesZ → Keyed.get Entry.key list k =
        Keyed.get Entry.key [⟨(lit "a").bytesZ, (lit "v").bytesZ⟩] k) ↔
      Unneeded [⟨(lit "a").bytesZ, (lit "v").bytesZ⟩] (edits [.set (lit "k") (lit "w")]) ∨
        ∀ e ∈ [(⟨(lit "a").bytesZ, (lit "v").bytesZ⟩ : Entry)], e.key ≠ (lit "k").bytesZ →
          e.Clean := by
  have hitems : commandLine (["--user", "set", "k", "w"].map lit) =
      some [.flag .user, .operation (.set (lit "k") (lit "w"))] := rfl
  have hinit : LegacyInits plainLibnvram none zeros (userFile (lit "a=v\n").bytes)
      (some (lit "ua"), some (lit "")) [⟨(lit "a").bytesZ, (lit "v").bytesZ⟩] :=
    legacyInits_iff.mpr ⟨lit "ua", by decide, rfl⟩
  exact legacy_update_keeps_others_iff Plain.listLaws zlibCrc32 legacyConfig none zeros
    (onLegacyFiles_sample hitems.symm rfl rfl) hitems rfl (by decide) hinit (by decide +kernel)

/-- The file holds a key with a NUL inside, `a`, NUL, `b`.  Setting another key returns 0, and
after it the value stands under `a`, not under the key it had. -/
theorem legacy_update_renames_nul_key :
    let before := userFile [97, 0, 98, 61, 118, 10]
    let after := legacyMain ["--user", "set", "k", "w"] before
    LegacyInits plainLibnvram none zeros before (some (lit "ua"), some (lit ""))
        [⟨[97, 0, 98, 0], [118, 0]⟩] ∧
      after.1 = 0 ∧
      LegacyInits plainLibnvram none zeros after.2 (some (lit "ua"), some (lit ""))
        [⟨[97, 0], [118, 0]⟩, ⟨[107, 0], [119, 0]⟩] ∧
      ¬ ∃ list, LegacyInits plainLibnvram none zeros after.2 (some (lit "ua"), some (lit "")) list ∧
        ∀ k, k ≠ (lit "k").bytesZ → Keyed.get Entry.key list k =
          Keyed.get Entry.key [⟨[97, 0, 98, 0], [118, 0]⟩] k := by
  intro before after
  have hsection : legacySection (some (lit "ua")) (some (lit "")) = some (lit "ua") := by decide
  have hafter : LegacyInits plainLibnvram none zeros after.2 (some (lit "ua"), some (lit ""))
      [⟨[97, 0], [118, 0]⟩, ⟨[107, 0], [119, 0]⟩] :=
    (legacyInits_iff_of_section hsection).mpr (by decide +kernel)
  refine ⟨(legacyInits_iff_of_section hsection).mpr rfl, by decide +kernel, hafter, ?_⟩
  rintro ⟨list, hlist, hkept⟩
  have hsame := ((legacyInits_iff_of_section hsection).mp hlist).symm.trans
    ((legacyInits_iff_of_section hsection).mp hafter)
  obtain rfl := Option.some.inj hsame
  exact absurd (hkept [97, 0, 98, 0] (by decide)) (by decide)

end Nvram
