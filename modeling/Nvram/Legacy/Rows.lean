import Nvram.Format.Legacy

/-!
# The rows of the legacy format

`legacyParse` is what `populate_list` takes from a buffer when no allocation fails.  Reading
the row of an entry gives its key up to the first NUL without leading blanks and its value up
to the first NUL; a row in which either is empty makes the whole buffer unreadable.
-/

namespace Nvram

/-! ### Positions -/

theorem find_eq_none_iff {key : UInt8} {buf : Bytes} : find key buf = none ↔ key ∉ buf := by
  induction buf with
  | nil => simp [find]
  | cons b buf ih =>
      by_cases h : b = key
      · simp [find, h]
      · have hne : key ≠ b := fun heq => h heq.symm
        rw [find, if_neg h, Option.map_eq_none_iff, ih]
        simp [hne]

/-- The first occurrence stands behind a part without one. -/
theorem find_append {key : UInt8} {before : Bytes} (h : key ∉ before) (rest : Bytes) :
    find key (before ++ key :: rest) = some before.length := by
  induction before with
  | nil => simp [find]
  | cons b before ih =>
      have hne : ¬ b = key := fun heq => h (by simp [heq])
      have hrest : key ∉ before := fun hmem => h (List.mem_cons_of_mem _ hmem)
      rw [List.cons_append, find, if_neg hne, ih hrest]
      rfl

/-! ### Parsing -/

/-- The loop of `populate_list` where no call fails: the entries in the order they are set. -/
def parseRows : ℕ → Bytes → Option (List Entry)
  | _, [] => some []
  | 0, _ :: _ => none
  | fuel + 1, b :: buf =>
    if isBlank b then parseRows fuel buf
    else
      match findEntry (b :: buf) with
      | none => none
      | some (entry, r) =>
        (parseRows fuel ((b :: buf).drop r)).map (⟨entry.key ++ [0], entry.value ++ [0]⟩ :: ·)

/-- The entries of a buffer, `none` if a line is malformed. -/
def legacyParse (buf : Bytes) : Option (List Entry) := parseRows buf.length buf

/-- Every entry takes at least one byte. -/
theorem findEntry_pos {buf : Bytes} {entry : Entry} {r : ℕ} (h : findEntry buf = some (entry, r)) :
    0 < r := by
  unfold findEntry at h
  split at h
  · cases h
  · cases h
  · dsimp only at h
    split_ifs at h
    · obtain ⟨-, rfl⟩ := Prod.mk.inj (Option.some.inj h)
      omega
    · rename_i hend
      obtain ⟨-, rfl⟩ := Prod.mk.inj (Option.some.inj h)
      omega

/-- Enough fuel is as good as any other amount. -/
theorem parseRows_eq {fuel : ℕ} {buf : Bytes} (h : buf.length ≤ fuel) :
    parseRows fuel buf = legacyParse buf := by
  have hall : ∀ n (buf : Bytes), buf.length ≤ n → ∀ fuel fuel', buf.length ≤ fuel →
      buf.length ≤ fuel' → parseRows fuel buf = parseRows fuel' buf := by
    intro n
    induction n with
    | zero =>
        intro buf hn fuel fuel' _ _
        rw [List.length_eq_zero_iff.mp (Nat.le_zero.mp hn)]
        cases fuel <;> cases fuel' <;> rfl
    | succ n ih =>
        intro buf hn fuel fuel' hf hf'
        cases buf with
        | nil => cases fuel <;> cases fuel' <;> rfl
        | cons b buf =>
            simp only [List.length_cons] at hn hf hf'
            obtain ⟨fuel, rfl⟩ := Nat.exists_eq_add_of_le' (Nat.one_le_of_lt hf)
            obtain ⟨fuel', rfl⟩ := Nat.exists_eq_add_of_le' (Nat.one_le_of_lt hf')
            rw [parseRows, parseRows, ih buf (by omega) fuel fuel' (by omega) (by omega)]
            split
            · rfl
            · cases hentry : findEntry (b :: buf) with
              | none => rfl
              | some found =>
                  obtain ⟨entry, r⟩ := found
                  have hpos := findEntry_pos hentry
                  have hlen : ((b :: buf).drop r).length ≤ buf.length := by
                    rw [List.length_drop, List.length_cons]
                    omega
                  simp only
                  rw [ih _ (by omega) fuel fuel' (by omega) (by omega)]
  exact hall _ buf le_rfl fuel buf.length h le_rfl

@[simp] theorem legacyParse_nil : legacyParse [] = some [] := rfl

theorem legacyParse_blank {b : UInt8} (h : isBlank b = true) (buf : Bytes) :
    legacyParse (b :: buf) = legacyParse buf := by
  rw [legacyParse, List.length_cons, parseRows, if_pos h]
  exact parseRows_eq le_rfl

theorem legacyParse_cons {b : UInt8} (h : isBlank b = false) (buf : Bytes) :
    legacyParse (b :: buf) = match findEntry (b :: buf) with
      | none => none
      | some (entry, r) =>
        (legacyParse ((b :: buf).drop r)).map (⟨entry.key ++ [0], entry.value ++ [0]⟩ :: ·) := by
  rw [legacyParse, List.length_cons, parseRows, if_neg (by simp [h])]
  cases hentry : findEntry (b :: buf) with
  | none => rfl
  | some found =>
      obtain ⟨entry, r⟩ := found
      have hpos := findEntry_pos hentry
      simp only
      rw [parseRows_eq (by rw [List.length_drop, List.length_cons]; omega)]

/-! ### Reading a row back -/

/-- What `"%s"` prints of a buffer. -/
def textOf (buf : Bytes) : Bytes := (CString.ofBuf buf).bytes

/-- An entry that `legacy_commit` does not refuse for its characters. -/
structure Writable (entry : Entry) : Prop where
  noEquals : equals ∉ entry.key
  noNewline : newline ∉ entry.key
  valueNoNewline : newline ∉ entry.value

/-- The key that is read from the row of an entry. -/
def rereadKey (entry : Entry) : Bytes := (textOf entry.key).dropWhile isBlank

/-- The entry that is read from the row of an entry. -/
def reread (entry : Entry) : Entry := ⟨rereadKey entry ++ [0], textOf entry.value ++ [0]⟩

/-- The row of the entry can be read: up to the first NUL the key has a byte that is not
blank, and the value is not empty. -/
def Rereadable (entry : Entry) : Prop := rereadKey entry ≠ [] ∧ textOf entry.value ≠ []

instance (entry : Entry) : Decidable (Rereadable entry) := inferInstanceAs (Decidable (_ ∧ _))

theorem mem_of_mem_textOf {b : UInt8} {buf : Bytes} (h : b ∈ textOf buf) : b ∈ buf :=
  List.takeWhile_subset _ h

theorem row_eq (entry : Entry) :
    row entry = textOf entry.key ++ equals :: textOf entry.value ++ [newline] := rfl

/-- One line with a key that does not start with a blank. -/
theorem findEntry_line {key value : Bytes} (hkey : key ≠ []) (hvalue : value ≠ [])
    (hequals : equals ∉ key) (hnewline : newline ∉ key) (hvalueNewline : newline ∉ value)
    (rest : Bytes) :
    findEntry (key ++ equals :: (value ++ newline :: rest)) =
      some (⟨key, value⟩, key.length + 1 + value.length + 1) := by
  have hpos : key.length ≠ 0 := fun h => hkey (List.length_eq_zero_iff.mp h)
  obtain ⟨n, hn⟩ := Nat.exists_eq_succ_of_ne_zero hpos
  have hfind := find_append hequals (value ++ newline :: rest)
  have htake : (key ++ equals :: (value ++ newline :: rest)).take key.length = key :=
    List.take_left
  have hdrop : (key ++ equals :: (value ++ newline :: rest)).drop (key.length + 1) =
      value ++ newline :: rest := by
    rw [← List.drop_drop, List.drop_left]
    rfl
  have hclear : find newline key = none := find_eq_none_iff.mpr hnewline
  have hend := find_append hvalueNewline rest
  have hvaluePos : value.length ≠ 0 := fun h => hvalue (List.length_eq_zero_iff.mp h)
  have hlength : (key ++ equals :: (value ++ newline :: rest)).length =
      key.length + (value.length + (rest.length + 1) + 1) := by
    simp
  have hshort : ¬ (key ++ equals :: (value ++ newline :: rest)).length ≤ key.length + 1 := by
    omega
  have hbefore : key.length + 1 + value.length <
      (key ++ equals :: (value ++ newline :: rest)).length := by
    omega
  have hvalueTake : (value ++ newline :: rest).take
      (key.length + 1 + value.length - (key.length + 1)) = value := by
    rw [Nat.add_sub_cancel_left]
    exact List.take_left
  rw [hn] at hfind htake hdrop hshort hbefore hvalueTake ⊢
  unfold findEntry
  rw [hfind]
  simp only [htake, hdrop, hclear, hend, ne_eq, not_true_eq_false, if_false, if_neg hshort,
    Option.some.injEq, hvaluePos, hvalueTake, if_pos hbefore]

theorem findEntry_noKey (rest : Bytes) : findEntry (equals :: rest) = none := by
  simp [findEntry, find]

theorem findEntry_noValue {key : Bytes} (hequals : equals ∉ key) (rest : Bytes) :
    findEntry (key ++ equals :: newline :: rest) = none := by
  have hfind := find_append hequals (newline :: rest)
  have hdrop : (key ++ equals :: newline :: rest).drop (key.length + 1) = newline :: rest := by
    rw [← List.drop_drop, List.drop_left]
    rfl
  have hempty : find newline (newline :: rest) = some 0 := by simp [find]
  unfold findEntry
  rw [hfind]
  cases hn : key.length with
  | zero => rfl
  | succ n =>
      rw [hn] at hdrop
      simp only [hdrop, hempty, if_true]
      split_ifs <;> rfl

theorem legacyParse_blanks {blanks : Bytes} (h : ∀ b ∈ blanks, isBlank b = true) (buf : Bytes) :
    legacyParse (blanks ++ buf) = legacyParse buf := by
  induction blanks with
  | nil => rfl
  | cons b blanks ih =>
      rw [List.cons_append, legacyParse_blank (h b List.mem_cons_self)]
      exact ih fun c hc => h c (List.mem_cons_of_mem _ hc)

/-- Reading a row and what follows it. -/
theorem legacyParse_row_append {entry : Entry} (hw : Writable entry) (rest : Bytes) :
    legacyParse (row entry ++ rest) =
      if Rereadable entry then (legacyParse rest).map (reread entry :: ·) else none := by
  have hkey : (textOf entry.key).takeWhile isBlank ++ rereadKey entry = textOf entry.key :=
    List.takeWhile_append_dropWhile
  have hsub : ∀ b ∈ rereadKey entry, b ∈ entry.key := fun b hb =>
    mem_of_mem_textOf ((List.dropWhile_sublist _).subset hb)
  have hequals : equals ∉ rereadKey entry := fun h => hw.noEquals (hsub _ h)
  have hnewline : newline ∉ rereadKey entry := fun h => hw.noNewline (hsub _ h)
  have hvalueNewline : newline ∉ textOf entry.value := fun h =>
    hw.valueNoNewline (mem_of_mem_textOf h)
  have hrow : row entry ++ rest = (textOf entry.key).takeWhile isBlank ++
      (rereadKey entry ++ equals :: (textOf entry.value ++ newline :: rest)) := by
    rw [row_eq, ← List.append_assoc, hkey]
    simp
  rw [hrow, legacyParse_blanks fun b hb => List.mem_takeWhile_imp hb]
  cases hread : rereadKey entry with
  | nil =>
      have hno : ¬ Rereadable entry := fun h => h.1 hread
      rw [if_neg hno, List.nil_append, legacyParse_cons (by decide), findEntry_noKey]
  | cons c cs =>
      -- the first byte that is left is not blank
      have hc : isBlank c = false := by
        have hhead := List.head?_dropWhile_not isBlank (textOf entry.key)
        have hcons : (textOf entry.key).dropWhile isBlank = c :: cs := hread
        rw [hcons] at hhead
        simpa using hhead
      rw [hread] at hequals hnewline
      rw [List.cons_append, legacyParse_cons hc, ← List.cons_append]
      by_cases hvalue : textOf entry.value = []
      · have hno : ¬ Rereadable entry := fun h => h.2 hvalue
        rw [if_neg hno, hvalue, List.nil_append, findEntry_noValue hequals]
      · have hyes : Rereadable entry := ⟨by simp [hread], hvalue⟩
        have hrest : ((c :: cs) ++ equals :: (textOf entry.value ++ newline :: rest)).drop
            ((c :: cs).length + 1 + (textOf entry.value).length + 1) = rest := by
          have hsplit : (c :: cs) ++ equals :: (textOf entry.value ++ newline :: rest) =
              ((c :: cs) ++ equals :: (textOf entry.value ++ [newline])) ++ rest := by simp
          rw [hsplit]
          exact List.drop_left' (by simp; omega)
        rw [if_pos hyes, findEntry_line (List.cons_ne_nil _ _) hvalue hequals hnewline
          hvalueNewline]
        simp only [hrest, reread, hread]

/-- A buffer of rows is read exactly when every row can be read. -/
theorem legacyParse_rows {list : List Entry} (hw : ∀ e ∈ list, Writable e) :
    legacyParse (list.flatMap row) =
      if ∀ e ∈ list, Rereadable e then some (list.map reread) else none := by
  induction list with
  | nil => simp
  | cons e list ih =>
      rw [List.flatMap_cons, legacyParse_row_append (hw e List.mem_cons_self),
        ih fun e' he' => hw e' (List.mem_cons_of_mem _ he')]
      by_cases he : Rereadable e
      · by_cases hall : ∀ e' ∈ list, Rereadable e'
        · rw [if_pos he, if_pos hall, if_pos (List.forall_mem_cons.mpr ⟨he, hall⟩)]
          rfl
        · rw [if_pos he, if_neg hall, if_neg fun h => hall (List.forall_mem_cons.mp h).2]
          rfl
      · rw [if_neg he, if_neg fun h => he (List.forall_mem_cons.mp h).1]

/-! ### Writing the rows -/

/-- `snprintf` into room for the whole text stores it with a NUL behind. -/
theorem snprintf_of_lt {room : ℕ} {text : Bytes} (hmax : text.length ≤ intMax)
    (hroom : text.length < room) : snprintf room text = some (text ++ [0], text.length) := by
  have hne : room ≠ 0 := by omega
  have htake : text.take (room - 1) = text := List.take_of_length_le (by omega)
  rw [snprintf, if_neg (by omega), if_neg hne, htake]

/-- The rounds of the second pass over `list` into `mem`: the buffer, the position and the
entries that are left. -/
inductive FillRounds (mem : Bytes) (list : List Entry) : Bytes → ℕ → List Entry → Prop where
  | start : FillRounds mem list mem 0 list
  | round {buf : Bytes} {pos : ℕ} {entry : Entry} {rest : List Entry} {text : Bytes} {r : ℕ} :
      FillRounds mem list buf pos (entry :: rest) →
      snprintf (buf.length - pos) (row entry) = some (text, r) →
      FillRounds mem list (overwrite buf pos text) (pos + r) rest

theorem FillRounds.legacyFill {mem buf : Bytes} {list rest : List Entry} {pos : ℕ}
    (h : FillRounds mem list buf pos rest) :
    legacyFill mem 0 list = Nvram.legacyFill buf pos rest := by
  induction h with
  | start => rfl
  | round _ hprint ih =>
      rw [ih, Nvram.legacyFill, hprint]

section

variable {mem : Bytes} {list : List Entry}

/-- After some rounds the buffer starts with the rows of the entries that were taken. -/
structure Filled (mem : Bytes) (list : List Entry) (buf : Bytes) (pos : ℕ) (rest : List Entry) :
    Prop where
  size : buf.length = mem.length
  rows : ∃ done, list = done ++ rest ∧ pos = (done.flatMap row).length ∧
    buf.take pos = done.flatMap row

/-- What is left to be printed has room, with one byte to spare. -/
theorem Filled.room {buf : Bytes} {pos : ℕ} {rest : List Entry}
    (hmem : mem.length = (list.flatMap row).length + 1) (h : Filled mem list buf pos rest) :
    pos + (rest.flatMap row).length + 1 = buf.length := by
  obtain ⟨done, rfl, rfl, -⟩ := h.rows
  rw [h.size, hmem, List.flatMap_append, List.length_append]

variable (hmax : ∀ e ∈ list, (row e).length ≤ intMax)
  (hmem : mem.length = (list.flatMap row).length + 1)

include hmax hmem

theorem Filled.round {buf : Bytes} {pos : ℕ} {entry : Entry} {rest : List Entry}
    (h : Filled mem list buf pos (entry :: rest)) :
    snprintf (buf.length - pos) (row entry) = some (row entry ++ [0], (row entry).length) ∧
      Filled mem list (overwrite buf pos (row entry ++ [0])) (pos + (row entry).length) rest := by
  have hroom := h.room hmem
  rw [List.flatMap_cons, List.length_append] at hroom
  obtain ⟨done, hlist, hpos, htake⟩ := h.rows
  have hentry : entry ∈ list := by simp [hlist]
  refine ⟨snprintf_of_lt (hmax entry hentry) (by omega), ?_, done ++ [entry], ?_, ?_, ?_⟩
  · rw [← h.size]
    rw [overwrite_length (by simp; omega)]
  · rw [hlist, List.append_assoc, List.singleton_append]
  · rw [List.flatMap_append, List.length_append, hpos, List.flatMap_singleton]
  · have hstart : (buf.take pos ++ row entry).length = pos + (row entry).length := by
      rw [List.length_append, List.length_take]
      omega
    have hsplit : overwrite buf pos (row entry ++ [0]) =
        (buf.take pos ++ row entry) ++ ([0] ++ buf.drop (pos + (row entry ++ [0]).length)) := by
      simp [overwrite]
    rw [hsplit, List.take_left' hstart, htake, List.flatMap_append, List.flatMap_singleton]

theorem FillRounds.filled {buf : Bytes} {pos : ℕ} {rest : List Entry}
    (h : FillRounds mem list buf pos rest) : Filled mem list buf pos rest := by
  induction h with
  | start => exact ⟨rfl, [], rfl, rfl, rfl⟩
  | round _ hprint ih =>
      obtain ⟨hexpected, hnext⟩ := ih.round hmax hmem
      obtain ⟨rfl, rfl⟩ := Prod.mk.inj (Option.some.inj (hprint.symm.trans hexpected))
      exact hnext

/-- The rounds go on until no entry is left. -/
theorem FillRounds.exists_end {buf : Bytes} {pos : ℕ} {rest : List Entry}
    (h : FillRounds mem list buf pos rest) : ∃ buf' pos', FillRounds mem list buf' pos' [] := by
  induction rest generalizing buf pos with
  | nil => exact ⟨buf, pos, h⟩
  | cons entry rest ih => exact ih (h.round ((h.filled hmax hmem).round hmax hmem).1)

/-- The second pass: no row is cut, the room left never wraps, and the rows end where the
first pass computed. -/
theorem legacyFill_exact :
    (∀ buf pos entry rest, FillRounds mem list buf pos (entry :: rest) →
      pos ≤ mem.length ∧ (row entry).length < mem.length - pos) ∧
    ∃ buf, FillRounds mem list buf (list.flatMap row).length [] ∧ legacyFill mem 0 list = .ok buf ∧
      buf.take (list.flatMap row).length = list.flatMap row := by
  refine ⟨?_, ?_⟩
  · intro buf pos entry rest h
    have hfilled := h.filled hmax hmem
    have hroom := hfilled.room hmem
    rw [List.flatMap_cons, List.length_append, hfilled.size] at hroom
    omega
  · obtain ⟨buf, pos, h⟩ := FillRounds.exists_end hmax hmem .start
    obtain ⟨done, hlist, hpos, htake⟩ := (h.filled hmax hmem).rows
    rw [List.append_nil] at hlist
    subst hlist
    exact ⟨buf, hpos ▸ h, h.legacyFill, hpos ▸ htake⟩

end

end Nvram
