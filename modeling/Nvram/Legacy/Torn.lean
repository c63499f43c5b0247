import Nvram.Legacy.Lines

/-!
# Rows that were cut off

A commit of the legacy format writes the rows of a storable list.  A write that is cut off
leaves a first part of them, with other bytes behind it perhaps.  As long as these are neither
`=` nor a newline, whatever can still be read has keys that were written: a row that was cut
inside its key has no `=` and makes the whole buffer unreadable.
-/

namespace Nvram

open Effects Errno

/-- What a write of `buf` may leave: a first part of it, and bytes behind it that are neither
`=` nor a newline. -/
def TornFrom (buf new : Bytes) : Prop :=
  ∃ n filler, new = buf.take n ++ filler ∧ equals ∉ filler ∧ newline ∉ filler

/-- The entries that are read come from rows that were written: their keys are the keys that
are read back. -/
def KeysFrom (list entries : List Entry) : Prop :=
  ∀ e' ∈ entries, ∃ e ∈ list, e'.key = rereadKey e ++ [0]

theorem KeysFrom.cons {e : Entry} {list entries : List Entry} (h : KeysFrom list entries) :
    KeysFrom (e :: list) entries := by
  intro e' he'
  obtain ⟨e'', hmem, hkey⟩ := h e' he'
  exact ⟨e'', List.mem_cons_of_mem _ hmem, hkey⟩

/-- A line without an `=` has no entry. -/
theorem legacyParse_noEquals {line : Bytes} (hequals : equals ∉ line) (hnewline : newline ∉ line)
    {entries : List Entry} (h : legacyParse line = some entries) : entries = [] := by
  have hparse := legacyParse_line hnewline (Or.inl rfl)
  rw [List.append_nil, h] at hparse
  split at hparse
  · rename_i hformed
    have hstrip : stripBlanks line = [] := by
      refine hformed.resolve_right fun hboth => hboth.2 (lineValue_of_not_mem ?_)
      exact fun hmem => hequals ((List.dropWhile_sublist _).subset hmem)
    rw [lineEntry, if_pos hstrip] at hparse
    simpa using hparse
  · cases hparse

/-- A last line with the key of an entry. -/
theorem legacyParse_lastKey {e : Entry} (hw : Writable e) {value : Bytes}
    (hvalueNewline : newline ∉ value) {entries : List Entry}
    (h : legacyParse (textOf e.key ++ equals :: value) = some entries) : KeysFrom [e] entries := by
  have hsub : ∀ b ∈ rereadKey e, b ∈ e.key := fun b hb =>
    mem_of_mem_textOf ((List.dropWhile_sublist _).subset hb)
  have hequals : equals ∉ rereadKey e := fun hmem => hw.noEquals (hsub _ hmem)
  have hnewline : newline ∉ rereadKey e := fun hmem => hw.noNewline (hsub _ hmem)
  have hsplit : textOf e.key ++ equals :: value =
      (textOf e.key).takeWhile isBlank ++ (rereadKey e ++ equals :: value) := by
    rw [← List.append_assoc, rereadKey, List.takeWhile_append_dropWhile]
  rw [hsplit, legacyParse_blanks fun b hb => List.mem_takeWhile_imp hb] at h
  cases hread : rereadKey e with
  | nil =>
      rw [hread, List.nil_append, legacyParse_cons (by decide), findEntry_noKey] at h
      cases h
  | cons c cs =>
      -- the first byte that is left is not blank
      have hc : isBlank c = false := by
        have hhead := List.head?_dropWhile_not isBlank (textOf e.key)
        have hcons : (textOf e.key).dropWhile isBlank = c :: cs := hread
        rw [hcons] at hhead
        simpa using hhead
      rw [hread] at h hequals hnewline
      rw [List.cons_append, legacyParse_cons hc, ← List.cons_append] at h
      by_cases hvalue : value = []
      · rw [hvalue, findEntry_lastNoValue hequals] at h
        cases h
      · rw [findEntry_last (List.cons_ne_nil _ _) hvalue hequals hnewline hvalueNewline] at h
        simp only [List.drop_length, legacyParse_nil, Option.map_some] at h
        obtain rfl := Option.some.inj h
        intro e' he'
        obtain rfl := List.mem_singleton.mp he'
        exact ⟨e, List.mem_singleton_self e, by rw [hread]⟩

/-- A row that was cut off, and no newline behind it. -/
theorem legacyParse_cut {e : Entry} (hw : Writable e) {n : ℕ} (hn : n < (row e).length)
    {filler : Bytes} (hequals : equals ∉ filler) (hnewline : newline ∉ filler)
    {entries : List Entry} (h : legacyParse ((row e).take n ++ filler) = some entries) :
    KeysFrom [e] entries := by
  have hkeyEquals : equals ∉ textOf e.key := fun hmem => hw.noEquals (mem_of_mem_textOf hmem)
  have hkeyNewline : newline ∉ textOf e.key := fun hmem =>
    hw.noNewline (mem_of_mem_textOf hmem)
  have hvalueNewline : newline ∉ textOf e.value := fun hmem =>
    hw.valueNoNewline (mem_of_mem_textOf hmem)
  have hrow : row e = textOf e.key ++ equals :: (textOf e.value ++ [newline]) := by
    rw [row_eq, List.append_assoc, List.cons_append]
  rw [hrow] at hn h
  by_cases hcut : n ≤ (textOf e.key).length
  · -- inside the key
    rw [List.take_append_of_le_length hcut] at h
    have hnone : entries = [] := by
      refine legacyParse_noEquals (fun hmem => ?_) (fun hmem => ?_) h
      · rcases List.mem_append.mp hmem with hmem | hmem
        · exact hkeyEquals (List.mem_of_mem_take hmem)
        · exact hequals hmem
      · rcases List.mem_append.mp hmem with hmem | hmem
        · exact hkeyNewline (List.mem_of_mem_take hmem)
        · exact hnewline hmem
    rw [hnone]
    intro e' he'
    cases he'
  · obtain ⟨m, rfl⟩ := Nat.exists_eq_add_of_lt (not_le.mp hcut)
    have hm : m ≤ (textOf e.value).length := by
      simp only [List.length_append, List.length_cons, List.length_nil] at hn
      omega
    have htake : (textOf e.key ++ equals :: (textOf e.value ++ [newline])).take
        ((textOf e.key).length + m + 1) = textOf e.key ++ equals :: (textOf e.value).take m := by
      rw [Nat.add_assoc, List.take_length_add_append, List.take_succ_cons,
        List.take_append_of_le_length hm]
    rw [htake, List.append_assoc, List.cons_append] at h
    refine legacyParse_lastKey hw (fun hmem => ?_) h
    rcases List.mem_append.mp hmem with hmem | hmem
    · exact hvalueNewline (List.mem_of_mem_take hmem)
    · exact hnewline hmem

/-- Whatever is read of the rows of a list that were cut off has keys of the list. -/
theorem legacyParse_torn {list : List Entry} (hw : ∀ e ∈ list, Writable e) {new : Bytes}
    (htorn : TornFrom (list.flatMap row) new) {entries : List Entry}
    (h : legacyParse new = some entries) : KeysFrom list entries := by
  obtain ⟨n, filler, rfl, hequals, hnewline⟩ := htorn
  induction list generalizing n entries with
  | nil =>
      rw [List.flatMap_nil, List.take_nil, List.nil_append] at h
      rw [legacyParse_noEquals hequals hnewline h]
      intro e' he'
      cases he'
  | cons e list ih =>
      have he := hw e List.mem_cons_self
      rw [List.flatMap_cons] at h
      by_cases hn : n < (row e).length
      · rw [List.take_append_of_le_length hn.le] at h
        have hcut := legacyParse_cut he hn hequals hnewline h
        intro e' he'
        obtain ⟨e'', hmem, hkey⟩ := hcut e' he'
        obtain rfl := List.mem_singleton.mp hmem
        exact ⟨e'', List.mem_cons_self, hkey⟩
      · obtain ⟨m, rfl⟩ := Nat.exists_eq_add_of_le (not_lt.mp hn)
        rw [List.take_length_add_append, List.append_assoc, legacyParse_row_append he] at h
        split at h
        · obtain ⟨rest, hrest, rfl⟩ := Option.map_eq_some_iff.mp h
          intro e' he'
          rcases List.mem_cons.mp he' with rfl | he'
          · exact ⟨e, List.mem_cons_self, rfl⟩
          · exact (ih (fun e'' he'' => hw e'' (List.mem_cons_of_mem _ he'')) m hrest).cons e' he'
        · cases h

end Nvram
