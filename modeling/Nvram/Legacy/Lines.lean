import Nvram.Legacy.Session
import Nvram.Libnvram.Plain

/-!
# The legacy format line by line

`populate_list` looks for an `=` in all that is left of the buffer and rules out a newline
before it.  `referenceParse` is the grammar it implements: the buffer is cut into lines, a
line without its leading spaces and tabs is empty or has a key and a value around its first
`=`, and the entries are set in the order of the lines.
-/

namespace Nvram

open Effects Errno

/-! ### Lines -/

/-- The lines of a buffer; the last one may lack its newline. -/
def lines (buf : Bytes) : List Bytes := buf.splitOn newline

/-- A line without leading spaces and tabs. -/
def stripBlanks (line : Bytes) : Bytes := line.dropWhile fun b => b = space || b = tab

/-- The bytes before the first `=`. -/
def lineKey (line : Bytes) : Bytes := (stripBlanks line).takeWhile (· ≠ equals)

/-- The bytes after the first `=`. -/
def lineValue (line : Bytes) : Bytes := (stripBlanks line).drop ((lineKey line).length + 1)

/-- An empty line, or one with a key and a value. -/
def LineFormed (line : Bytes) : Prop :=
  stripBlanks line = [] ∨ lineKey line ≠ [] ∧ lineValue line ≠ []

instance (line : Bytes) : Decidable (LineFormed line) := inferInstanceAs (Decidable (_ ∨ _))

/-- The entry of a line, `none` for an empty line. -/
def lineEntry (line : Bytes) : Option Entry :=
  if stripBlanks line = [] then none else some ⟨lineKey line ++ [0], lineValue line ++ [0]⟩

/-- The entries of the lines in order, `none` if a line is malformed. -/
def referenceParse (buf : Bytes) : Option (List Entry) :=
  if ∀ line ∈ lines buf, LineFormed line then some ((lines buf).filterMap lineEntry) else none

theorem lines_of_not_mem {buf : Bytes} (h : newline ∉ buf) : lines buf = [buf] :=
  List.splitOn_eq_singleton h

theorem lines_append {line : Bytes} (h : newline ∉ line) (rest : Bytes) :
    lines (line ++ newline :: rest) = line :: lines rest :=
  List.splitOn_append_cons_self_of_not_mem h rest

/-- Every buffer is a last line, or a line, its newline and a buffer. -/
theorem lines_induction {P : Bytes → Prop} (last : ∀ line, newline ∉ line → P line)
    (cons : ∀ line rest, newline ∉ line → P rest → P (line ++ newline :: rest)) (buf : Bytes) :
    P buf := by
  induction hn : buf.length using Nat.strong_induction_on generalizing buf with
  | _ n ih =>
      by_cases hmem : newline ∈ buf
      · obtain ⟨line, rest, rfl, hline⟩ := List.eq_append_cons_of_mem hmem
        have hshort : rest.length < n := by
          rw [← hn, List.length_append, List.length_cons]
          omega
        exact cons line rest hline (ih rest.length hshort rest rfl)
      · exact last buf hmem

theorem not_mem_of_mem_lines {buf line : Bytes} (h : line ∈ lines buf) : newline ∉ line := by
  induction buf using lines_induction with
  | last buf hbuf =>
      rw [lines_of_not_mem hbuf, List.mem_singleton] at h
      rwa [h]
  | cons first rest hfirst ih =>
      rw [lines_append hfirst] at h
      rcases List.mem_cons.mp h with rfl | h
      · exact hfirst
      · exact ih h

theorem referenceParse_append {line : Bytes} (h : newline ∉ line) (rest : Bytes) :
    referenceParse (line ++ newline :: rest) =
      if LineFormed line then (referenceParse rest).map ((lineEntry line).toList ++ ·)
      else none := by
  unfold referenceParse
  rw [lines_append h]
  by_cases hline : LineFormed line
  · by_cases hrest : ∀ l ∈ lines rest, LineFormed l
    · rw [if_pos (List.forall_mem_cons.mpr ⟨hline, hrest⟩), if_pos hline, if_pos hrest,
        Option.map_some]
      cases hentry : lineEntry line with
      | none => rw [List.filterMap_cons_none hentry]; rfl
      | some e => rw [List.filterMap_cons_some hentry]; rfl
    · rw [if_neg fun hall => hrest (List.forall_mem_cons.mp hall).2, if_pos hline, if_neg hrest]
      rfl
  · rw [if_neg fun hall => hline (List.forall_mem_cons.mp hall).1, if_neg hline]

/-! ### Entries at the start of a buffer -/

/-- Without an `=` before the newline there is no entry. -/
theorem findEntry_noEquals {line tail : Bytes} (hequals : equals ∉ line)
    (htail : tail = [] ∨ ∃ rest, tail = newline :: rest) : findEntry (line ++ tail) = none := by
  have hne : equals ≠ newline := by decide
  by_cases hmem : equals ∈ line ++ tail
  · -- the first `=` stands behind the newline
    obtain ⟨before, after, hsplit, hbefore⟩ := List.eq_append_cons_of_mem hmem
    have hnewline : newline ∈ before := by
      obtain ⟨rest, rfl⟩ : ∃ rest, tail = newline :: rest := by
        rcases htail with rfl | h
        · exact absurd (List.append_nil line ▸ hmem) hequals
        · exact h
      rcases List.append_eq_append_iff.mp hsplit with ⟨as, rfl, htl⟩ | ⟨bs, rfl, htl⟩
      · cases as with
        | nil => exact absurd (List.cons.inj htl).1.symm hne
        | cons a as =>
            rw [(List.cons.inj htl).1]
            simp
      · cases bs with
        | nil => exact absurd (List.cons.inj htl).1 hne
        | cons b bs =>
            rw [(List.cons.inj htl).1] at hequals
            simp at hequals
    have hfind := find_append hbefore after
    have hnl : find newline before ≠ none := fun h => find_eq_none_iff.mp h hnewline
    have htake : (before ++ equals :: after).take before.length = before := List.take_left
    unfold findEntry
    rw [hsplit, hfind]
    cases hlen : before.length with
    | zero => rfl
    | succ n =>
        rw [hlen] at htake
        simp only [htake]
        rw [if_pos hnl]
  · unfold findEntry
    rw [find_eq_none_iff.mpr hmem]

/-- The last line, which ends with the buffer. -/
theorem findEntry_last {key value : Bytes} (hkey : key ≠ []) (hvalue : value ≠ [])
    (hequals : equals ∉ key) (hnewline : newline ∉ key) (hvalueNewline : newline ∉ value) :
    findEntry (key ++ equals :: value) =
      some (⟨key, value⟩, (key ++ equals :: value).length) := by
  have hfind := find_append hequals value
  have htake : (key ++ equals :: value).take key.length = key := List.take_left
  have hdrop : (key ++ equals :: value).drop (key.length + 1) = value := by
    rw [← List.drop_drop, List.drop_left]
    rfl
  have hclear : find newline key = none := find_eq_none_iff.mpr hnewline
  have hend : find newline value = none := find_eq_none_iff.mpr hvalueNewline
  have hvaluePos : 0 < value.length := List.length_pos_iff.mpr hvalue
  have hlength : (key ++ equals :: value).length = key.length + (value.length + 1) := by simp
  have hshort : ¬ (key ++ equals :: value).length ≤ key.length + 1 := by omega
  have hvalueTake : value.take ((key ++ equals :: value).length - (key.length + 1)) = value :=
    List.take_of_length_le (by omega)
  obtain ⟨n, hn⟩ := Nat.exists_eq_succ_of_ne_zero fun h => hkey (List.length_eq_zero_iff.mp h)
  rw [hn] at hfind htake hdrop hshort hvalueTake
  unfold findEntry
  rw [hfind]
  simp only [htake, hdrop, hclear, hend, ne_eq, not_true_eq_false, if_false, if_neg hshort,
    reduceCtorEq, hvalueTake, if_neg (lt_irrefl (key ++ equals :: value).length)]

theorem findEntry_lastNoValue {key : Bytes} (hequals : equals ∉ key) :
    findEntry (key ++ [equals]) = none := by
  have hfind := find_append hequals []
  unfold findEntry
  rw [hfind]
  cases hn : key.length with
  | zero => rfl
  | succ n =>
      have hshort : (key ++ [equals]).length ≤ n + 1 + 1 := by
        rw [List.length_append, hn]
        exact le_rfl
      simp only [if_pos hshort]
      split_ifs <;> rfl

/-! ### One line -/

/-- Where a line has an `=`, its parts stand around the first one. -/
theorem stripBlanks_eq {line : Bytes} (h : equals ∈ stripBlanks line) :
    stripBlanks line = lineKey line ++ equals :: lineValue line ∧ equals ∉ lineKey line := by
  obtain ⟨before, after, hsplit, hbefore⟩ := List.eq_append_cons_of_mem h
  have hkey : lineKey line = before := by
    rw [lineKey, hsplit, List.takeWhile_append_of_pos fun b hb => by
      simpa using fun heq : b = equals => hbefore (heq ▸ hb)]
    simp
  have hvalue : lineValue line = after := by
    rw [lineValue, hkey, hsplit, ← List.drop_drop, List.drop_left]
    rfl
  rw [hkey, hvalue]
  exact ⟨hsplit, hbefore⟩

theorem lineValue_of_not_mem {line : Bytes} (h : equals ∉ stripBlanks line) :
    lineValue line = [] := by
  have hkey : lineKey line = stripBlanks line :=
    List.takeWhile_eq_self_iff.mpr fun b hb => by
      simpa using fun heq : b = equals => h (heq ▸ hb)
  rw [lineValue, hkey]
  exact List.drop_eq_nil_of_le (Nat.le_succ _)

theorem isBlank_head_stripBlanks {line : Bytes} (h : newline ∉ line) {c : UInt8} {cs : Bytes}
    (hcons : stripBlanks line = c :: cs) : isBlank c = false := by
  have hmem : c ∈ line := (List.dropWhile_sublist _).subset (hcons ▸ List.mem_cons_self)
  have hne : c ≠ newline := fun heq => h (heq ▸ hmem)
  have hhead := List.head?_dropWhile_not (fun b => b = space || b = tab) line
  have hstart : line.dropWhile (fun b => b = space || b = tab) = c :: cs := hcons
  rw [hstart] at hhead
  simpa [isBlank, hne] using hhead

/-- The entry of a stripped line in front of nothing, or of a newline and the rest. -/
theorem findEntry_stripBlanks {line : Bytes} (h : newline ∉ stripBlanks line) {tail : Bytes}
    (htail : tail = [] ∨ ∃ rest, tail = newline :: rest) :
    findEntry (stripBlanks line ++ tail) =
      if lineKey line ≠ [] ∧ lineValue line ≠ [] then
        some (⟨lineKey line, lineValue line⟩,
          (stripBlanks line).length + (tail.take 1).length)
      else none := by
  by_cases hequals : equals ∈ stripBlanks line
  · obtain ⟨hparts, hkeyEquals⟩ := stripBlanks_eq hequals
    have hkeyNewline : newline ∉ lineKey line := fun hmem => h (by rw [hparts]; simp [hmem])
    have hvalueNewline : newline ∉ lineValue line := fun hmem => h (by rw [hparts]; simp [hmem])
    have hbuf : stripBlanks line ++ tail = lineKey line ++ equals :: (lineValue line ++ tail) := by
      rw [hparts]
      simp
    rw [hbuf]
    by_cases hkey : lineKey line = []
    · rw [if_neg fun hboth => hboth.1 hkey, hkey, List.nil_append, findEntry_noKey]
    by_cases hvalue : lineValue line = []
    · rw [if_neg fun hboth => hboth.2 hvalue, hvalue, List.nil_append]
      rcases htail with rfl | ⟨rest, rfl⟩
      · exact findEntry_lastNoValue hkeyEquals
      · exact findEntry_noValue hkeyEquals rest
    · have hlength : (stripBlanks line).length =
          (lineKey line).length + 1 + (lineValue line).length := by
        rw [congrArg List.length hparts, List.length_append, List.length_cons]
        omega
      rw [if_pos ⟨hkey, hvalue⟩, hlength]
      rcases htail with rfl | ⟨rest, rfl⟩
      · rw [List.append_nil, findEntry_last hkey hvalue hkeyEquals hkeyNewline hvalueNewline,
          ← hparts, hlength]
        rfl
      · rw [findEntry_line hkey hvalue hkeyEquals hkeyNewline hvalueNewline]
        rfl
  · rw [findEntry_noEquals hequals htail,
      if_neg fun hboth => hboth.2 (lineValue_of_not_mem hequals)]

/-- Reading one line and what follows it. -/
theorem legacyParse_line {line : Bytes} (h : newline ∉ line) {tail : Bytes}
    (htail : tail = [] ∨ ∃ rest, tail = newline :: rest) :
    legacyParse (line ++ tail) =
      if LineFormed line then (legacyParse (tail.drop 1)).map ((lineEntry line).toList ++ ·)
      else none := by
  have hsplit : line.takeWhile (fun b => b = space || b = tab) ++ stripBlanks line = line :=
    List.takeWhile_append_dropWhile
  have hblanks : ∀ b ∈ line.takeWhile (fun b => b = space || b = tab), isBlank b = true := by
    intro b hb
    have hb' := List.mem_takeWhile_imp hb
    simp only [isBlank, hb', Bool.true_or]
  have hline : legacyParse (line ++ tail) = legacyParse (stripBlanks line ++ tail) := by
    rw [← legacyParse_blanks hblanks (stripBlanks line ++ tail), ← List.append_assoc, hsplit]
  have hstrip : newline ∉ stripBlanks line := fun hmem =>
    h ((List.dropWhile_sublist _).subset hmem)
  rw [hline]
  cases hcons : stripBlanks line with
  | nil =>
      have hformed : LineFormed line := Or.inl hcons
      rw [if_pos hformed, lineEntry, if_pos hcons, List.nil_append]
      rcases htail with rfl | ⟨rest, rfl⟩
      · rfl
      · rw [legacyParse_blank (by decide)]
        simp
  | cons c cs =>
      have hne : stripBlanks line ≠ [] := by simp [hcons]
      have hformed : LineFormed line ↔ lineKey line ≠ [] ∧ lineValue line ≠ [] :=
        or_iff_right hne
      have hrest : (stripBlanks line ++ tail).drop
          ((stripBlanks line).length + (tail.take 1).length) = tail.drop 1 := by
        rw [← List.drop_drop, List.drop_left]
        rcases htail with rfl | ⟨rest, rfl⟩
        · rfl
        · rfl
      rw [List.cons_append, legacyParse_cons (isBlank_head_stripBlanks h hcons), ← List.cons_append,
        ← hcons, findEntry_stripBlanks hstrip htail]
      by_cases hboth : lineKey line ≠ [] ∧ lineValue line ≠ []
      · rw [if_pos hboth, if_pos (hformed.mpr hboth), lineEntry, if_neg hne]
        simp only [hrest]
        rfl
      · rw [if_neg hboth, if_neg fun hall => hboth (hformed.mp hall)]

/-- The parser is the line-oriented one. -/
theorem legacyParse_eq_referenceParse (buf : Bytes) : legacyParse buf = referenceParse buf := by
  induction buf using lines_induction with
  | last line hline =>
      have hlast := legacyParse_line hline (Or.inl rfl)
      rw [List.append_nil] at hlast
      rw [hlast, referenceParse, lines_of_not_mem hline]
      by_cases hformed : LineFormed line
      · rw [if_pos hformed, if_pos (by simpa using hformed)]
        cases hentry : lineEntry line with
        | none => simp [hentry]
        | some e => simp [hentry]
      · rw [if_neg hformed, if_neg (by simpa using hformed)]
  | cons line rest hline ih =>
      rw [legacyParse_line hline (Or.inr ⟨rest, rfl⟩), List.drop_one, List.tail_cons, ih,
        referenceParse_append hline]

/-! ### The list of a buffer -/

section

variable {lib : Libnvram}

/-- `populate_list` from an empty list where no allocation fails. -/
theorem under_populateList_nil (buf : Bytes) :
    Under (Allocated lib) (fun r =>
        r = orError einval ((referenceParse buf).map (·.foldl lib.listSet [])))
      (populateList [] buf) := by
  have hpopulate := under_populateFrom (allocates_allocated lib) buf.length [] buf
  refine hpopulate.mono fun r hr => ?_
  rw [← legacyParse_eq_referenceParse]
  exact hr.resolve_right not_failed

/-- `populate_list` is the line-oriented parser: it succeeds exactly when every line is empty or
has a key and a value, and then sets the lines in order, the last line of a key winning. -/
theorem populateList_line_oriented (hset : lib.SetsInPlace) (buf : Bytes) :
    Under (Allocated lib) (fun r =>
        ((∃ list, r = .ok list) ↔ ∀ line ∈ lines buf,
          stripBlanks line = [] ∨ lineKey line ≠ [] ∧ lineValue line ≠ []) ∧
        (∀ list, r = .ok list →
          list = ((lines buf).filterMap lineEntry).foldl
            (fun list entry => Keyed.put Entry.key entry list) [] ∧
          ∀ key, Keyed.get Entry.key list key =
            (((lines buf).filterMap lineEntry).filter fun e => e.key = key).getLast?) ∧
        ((¬ ∃ list, r = .ok list) → r = .error einval))
      (populateList [] buf) := by
  have hput : lib.listSet = fun list entry => Keyed.put Entry.key entry list :=
    funext fun list => funext fun entry => hset list entry
  refine (under_populateList_nil buf).mono fun r hr => ?_
  rw [hput] at hr
  unfold referenceParse at hr
  by_cases hformed : ∀ line ∈ lines buf, LineFormed line
  · rw [if_pos hformed] at hr
    subst hr
    refine ⟨⟨fun _ => hformed, fun _ => ⟨_, rfl⟩⟩, ?_, fun hno => absurd ⟨_, rfl⟩ hno⟩
    intro list hlist
    obtain rfl := Except.ok.inj hlist
    refine ⟨rfl, fun key => ?_⟩
    rw [(Keyed.sets_put.foldl _ Keyed.distinct_nil).2, Keyed.get_nil, Option.or_none]
  · rw [if_neg hformed] at hr
    subst hr
    have hnone : ¬ ∃ list, orError einval (none : Option (List Entry)) = .ok list := by
      rintro ⟨list, h⟩
      cases h
    exact ⟨⟨fun h => absurd h hnone, fun h => absurd h hformed⟩,
      fun list h => absurd ⟨list, h⟩ hnone, fun _ => rfl⟩

end

/-- A blank line, a key given twice, and a last line without a newline. -/
theorem populateList_line_oriented_sample :
    Under (Allocated plainLibnvram) (fun r => ∃ list, r = .ok list ∧
        Keyed.get Entry.key list (lit "k").bytesZ = some ⟨(lit "k").bytesZ, (lit "w=1 ").bytesZ⟩)
      (populateList [] (lit " \nk=v\n\tk=w=1 ").bytes) := by
  have hset : plainLibnvram.SetsInPlace := fun _ _ => rfl
  refine (populateList_line_oriented hset (lit " \nk=v\n\tk=w=1 ").bytes).mono fun r hr => ?_
  obtain ⟨list, hlist⟩ := hr.1.mpr (by decide +kernel)
  refine ⟨list, hlist, ?_⟩
  rw [(hr.2.1 list hlist).2]
  decide +kernel

end Nvram
