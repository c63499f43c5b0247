import Nvram.Legacy.Rows
import Mathlib.Logic.Relation

/-!
# The legacy parser on offsets

`find`, `find_entry` and `populate_list` as the source has them: offsets of type `size_t`
relative to a pointer into the buffer, with `SIZE_MAX` for "not found".  Here a read behind
the buffer, a sum or difference with `NPOS`, one that leaves `size_t`, and a loop that runs on
are errors of their own.  None of them happens, and the results are those of the functions on
the bytes that are left.
-/

namespace Nvram

open Effects Errno

/-! ### Buffers and offsets -/

def NPOS : ℕ := SIZE_MAX

/-- A buffer of the parser; no object of C is as long as `SIZE_MAX`. -/
structure Buffer where
  bytes : Bytes
  fits : bytes.length < SIZE_MAX

namespace Buffer

def size (buf : Buffer) : ℕ := buf.bytes.length

/-- The `len` bytes at `pos`. -/
def slice (buf : Buffer) (pos len : ℕ) : Bytes := (buf.bytes.drop pos).take len

end Buffer

/-- What must not happen on the way. -/
inductive Misuse where
  /-- A read at or behind the end of the buffer. -/
  | outside
  /-- `NPOS` in a sum or a difference. -/
  | sentinel
  /-- A sum or a difference that does not fit. -/
  | wraps
  /-- A use of an entry that was not filled in. -/
  | unset
  /-- More rounds than the loop may take. -/
  | endless
  deriving DecidableEq

/-- `buf[i]` -/
def Buffer.read (buf : Buffer) (i : ℕ) : Except Misuse UInt8 :=
  match buf.bytes[i]? with
  | none => .error .outside
  | some b => .ok b

/-- `m + n` -/
def plus (m n : ℕ) : Except Misuse ℕ :=
  if m = NPOS ∨ n = NPOS then .error .sentinel
  else if SIZE_MAX < m + n then .error .wraps
  else .ok (m + n)

/-- `m - n` -/
def minus (m n : ℕ) : Except Misuse ℕ :=
  if m = NPOS ∨ n = NPOS then .error .sentinel
  else if m < n then .error .wraps
  else .ok (m - n)

/-- The loop of `find` from `pos` on, `base` being the offset of its buffer. -/
def findFrom (buf : Buffer) (base bufSize : ℕ) (key : UInt8) : ℕ → ℕ → Except Misuse ℕ
  | fuel, pos =>
    if pos < bufSize then
      match fuel with
      | 0 => .error .endless
      | fuel + 1 => do
        if (← buf.read (← plus base pos)) = key then
          return pos
        findFrom buf base bufSize key fuel (← plus pos 1)
    else
      return NPOS

/-- Position of `key` in the `bufSize` bytes at `base`, or `NPOS`. -/
def findAt (buf : Buffer) (base bufSize : ℕ) (key : UInt8) : Except Misuse ℕ :=
  findFrom buf base bufSize key bufSize 0

/-- The pointers of a `struct libnvram_entry` into the buffer, as offsets, with the lengths. -/
structure EntrySlices where
  key : ℕ
  keyLen : ℕ
  value : ℕ
  valueLen : ℕ
  deriving DecidableEq

/-- The position after the entry at `base`, and where its key and its value are; the entry is
left alone where 0 is returned. -/
def findEntryAt (buf : Buffer) (base bufSize : ℕ) : Except Misuse (ℕ × Option EntrySlices) := do
  let keyStart := 0
  let keyEnd ← findAt buf (← plus base keyStart) (← minus bufSize keyStart) equals
  -- empty key or not found
  if keyEnd = 0 ∨ keyEnd = NPOS then
    return (0, none)
  -- verify no newline in key
  if (← findAt buf (← plus base keyStart) (← minus keyEnd keyStart) newline) ≠ NPOS then
    return (0, none)
  -- skip '=' for value start
  let valueStart ← plus keyEnd 1
  -- No space left for value
  if bufSize ≤ valueStart then
    return (0, none)
  let r ← findAt buf (← plus base valueStart) (← minus bufSize valueStart) newline
  -- empty value
  if r = 0 then
    return (0, none)
  -- Set value to remaining buf if no terminating newline
  let valueEnd ← if r = NPOS then pure bufSize else plus valueStart r
  let entry : EntrySlices :=
    ⟨← plus base keyStart, ← minus keyEnd keyStart, ← plus base valueStart,
      ← minus valueEnd valueStart⟩
  -- skip newline from pos unless end of buf
  return (← if valueEnd < bufSize then plus valueEnd 1 else pure valueEnd, some entry)

/-- What one round of the loop of `populate_list` meets at its position. -/
inductive Round where
  | blank
  | malformed
  /-- An entry, and how far behind it the next round starts. -/
  | entry (slices : EntrySlices) (r : ℕ)
  deriving DecidableEq

/-- The round at `pos`, before the entry is copied and set. -/
def roundAt (buf : Buffer) (pos : ℕ) : Except Misuse Round := do
  if isBlank (← buf.read pos) then
    return .blank
  else
    let (r, entry) ← findEntryAt buf pos (← minus buf.size pos)
    if r = 0 then
      return .malformed
    match entry with
    | none => .error .unset
    | some slices => return .entry slices r

/-- The entry that the slices point to. -/
def EntrySlices.entry (buf : Buffer) (e : EntrySlices) : Entry :=
  ⟨buf.slice e.key e.keyLen, buf.slice e.value e.valueLen⟩

/-- The loop of `populate_list` from `pos` on. -/
def populateAt (buf : Buffer) : ℕ → List Entry → ℕ →
    NProg (Except Misuse (Except Errno (List Entry)))
  | fuel, list, pos =>
    if pos < buf.size then
      match fuel with
      | 0 => return .error .endless
      | fuel + 1 =>
        match roundAt buf pos with
        | .error m => return .error m
        | .ok .blank =>
          match plus pos 1 with
          | .error m => return .error m
          | .ok pos => populateAt buf fuel list pos
        | .ok .malformed => return .ok (.error einval)
        | .ok (.entry slices r) => do
          match ← appendNullTerminator (slices.entry buf) with
          | .error _ => return .ok (.error enomem)
          | .ok new =>
            match ← libnvramListSet list new with
            | .error _ => return .ok (.error enomem)
            | .ok list =>
              match plus pos r with
              | .error m => return .error m
              | .ok pos => populateAt buf fuel list pos
    else
      return .ok (.ok list)

/-- A round at `pos` after which the next one starts at `next`, the calls between having
succeeded. -/
def Advances (buf : Buffer) (pos next : ℕ) : Prop :=
  pos < buf.size ∧
    (roundAt buf pos = .ok .blank ∧ plus pos 1 = .ok next ∨
      ∃ slices r, roundAt buf pos = .ok (.entry slices r) ∧ plus pos r = .ok next)

/-- The positions that `populate_list` reaches, whatever the calls between answer. -/
def Position (buf : Buffer) : ℕ → Prop := Relation.ReflTransGen (Advances buf) 0

/-! ### Sums and differences -/

theorem plus_eq {m n : ℕ} (h : m + n < SIZE_MAX) : plus m n = .ok (m + n) := by
  have hm : ¬ (m = NPOS ∨ n = NPOS) := by
    unfold NPOS
    omega
  have hfit : ¬ SIZE_MAX < m + n := by omega
  rw [plus, if_neg hm, if_neg hfit]

theorem minus_eq {m n : ℕ} (hm : m < SIZE_MAX) (h : n ≤ m) : minus m n = .ok (m - n) := by
  have hsentinel : ¬ (m = NPOS ∨ n = NPOS) := by
    unfold NPOS
    omega
  have hle : ¬ m < n := by omega
  rw [minus, if_neg hsentinel, if_neg hle]

namespace Buffer

variable {buf : Buffer}

theorem size_lt : buf.size < SIZE_MAX := buf.fits

theorem slice_length {pos len : ℕ} (h : pos + len ≤ buf.size) :
    (buf.slice pos len).length = len := by
  have hsize : buf.size = buf.bytes.length := rfl
  rw [slice, List.length_take, List.length_drop]
  omega

theorem slice_take {pos len part : ℕ} (h : part ≤ len) :
    (buf.slice pos len).take part = buf.slice pos part := by
  rw [slice, slice, List.take_take]
  congr 1
  omega

theorem slice_drop {pos len off : ℕ} :
    (buf.slice pos len).drop off = buf.slice (pos + off) (len - off) := by
  rw [slice, slice, List.drop_take, List.drop_drop]

theorem slice_succ {pos : ℕ} (h : pos < buf.size) (len : ℕ) :
    ∃ b, buf.read pos = .ok b ∧ buf.slice pos (len + 1) = b :: buf.slice (pos + 1) len := by
  have hlt : pos < buf.bytes.length := h
  refine ⟨buf.bytes[pos], ?_, ?_⟩
  · rw [read, List.getElem?_eq_getElem hlt]
  · rw [slice, List.drop_eq_getElem_cons hlt, List.take_succ_cons, slice]

end Buffer

/-! ### The search for a byte -/

theorem findFrom_eq {buf : Buffer} {base bufSize : ℕ} (key : UInt8)
    (hend : base + bufSize ≤ buf.size) {fuel pos : ℕ} (hfuel : bufSize ≤ fuel + pos)
    (hpos : pos ≤ bufSize) :
    findFrom buf base bufSize key fuel pos =
      .ok ((find key (buf.slice (base + pos) (bufSize - pos))).elim NPOS (pos + ·)) := by
  have hsize := buf.size_lt
  induction fuel generalizing pos with
  | zero =>
      have heq : bufSize - pos = 0 := by omega
      have hlt : ¬ pos < bufSize := by omega
      unfold findFrom
      rw [if_neg hlt, heq, Buffer.slice, List.take_zero]
      rfl
  | succ fuel ih =>
      unfold findFrom
      by_cases hlt : pos < bufSize
      · obtain ⟨n, hn⟩ : ∃ n, bufSize - pos = n + 1 := ⟨bufSize - pos - 1, by omega⟩
        have hbase : plus base pos = .ok (base + pos) := plus_eq (by omega)
        have hnext : plus pos 1 = .ok (pos + 1) := plus_eq (by omega)
        have hin : base + pos < buf.size := by omega
        obtain ⟨b, hread, hslice⟩ := Buffer.slice_succ hin n
        have hrest : bufSize - (pos + 1) = n := by omega
        rw [if_pos hlt, hn, hslice, find]
        dsimp only [bind, Except.bind]
        rw [hbase]
        dsimp only
        rw [hread]
        dsimp only
        by_cases hb : b = key
        · rw [if_pos hb, if_pos hb]
          rfl
        · rw [if_neg hb, if_neg hb, hnext]
          dsimp only
          rw [ih (by omega) (by omega), hrest, ← Nat.add_assoc]
          cases find key (buf.slice (base + pos + 1) n) with
          | none => rfl
          | some k =>
              show Except.ok (pos + 1 + k) = Except.ok (pos + (k + 1))
              congr 1
              omega
      · have heq : bufSize - pos = 0 := by omega
        rw [if_neg hlt, heq, Buffer.slice, List.take_zero]
        rfl

theorem findAt_eq {buf : Buffer} {base bufSize : ℕ} (key : UInt8)
    (hend : base + bufSize ≤ buf.size) :
    findAt buf base bufSize key = .ok ((find key (buf.slice base bufSize)).elim NPOS id) := by
  rw [findAt, findFrom_eq key hend (Nat.le_add_right _ _) (Nat.zero_le _)]
  congr 2
  funext n
  exact Nat.zero_add n

/-- A found byte stands inside the searched ones, and none like it before. -/
theorem find_eq_some {key : UInt8} {buf : Bytes} {n : ℕ} (h : find key buf = some n) :
    n < buf.length ∧ key ∉ buf.take n := by
  induction buf generalizing n with
  | nil => cases h
  | cons b buf ih =>
      rw [find] at h
      by_cases hb : b = key
      · rw [if_pos hb] at h
        obtain rfl := Option.some.inj h
        exact ⟨Nat.succ_pos _, by simp⟩
      · rw [if_neg hb] at h
        obtain ⟨k, hk, rfl⟩ := Option.map_eq_some_iff.mp h
        obtain ⟨hlt, hnot⟩ := ih hk
        refine ⟨Nat.succ_lt_succ hlt, ?_⟩
        intro hmem
        rw [List.take_succ_cons] at hmem
        rcases List.mem_cons.mp hmem with heq | hin
        · exact hb heq.symm
        · exact hnot hin

/-! ### Entries -/

@[simp] theorem ok_bind {ε α β : Type} (a : α) (f : α → Except ε β) :
    (Except.ok a >>= f) = f a := rfl

theorem pure_ok {ε α : Type} (a : α) : (pure a : Except ε α) = .ok a := rfl

/-- What `find_entry` says about an entry found in the `bufSize` bytes at `base`. -/
structure EntrySlices.Within (buf : Buffer) (base bufSize r : ℕ) (e : EntrySlices) : Prop where
  pos : 1 ≤ r
  end_le : r ≤ bufSize
  key_start : base ≤ e.key
  key_end : e.key + e.keyLen ≤ base + bufSize
  key_pos : 0 < e.keyLen
  value_start : base ≤ e.value
  value_end : e.value + e.valueLen ≤ base + bufSize
  value_pos : 0 < e.valueLen
  key_equals : equals ∉ buf.slice e.key e.keyLen
  key_newline : newline ∉ buf.slice e.key e.keyLen
  value_newline : newline ∉ buf.slice e.value e.valueLen

/-- The result of `find_entry` on the bytes that are left, as offsets. -/
def located (base : ℕ) : Option (Entry × ℕ) → ℕ × Option EntrySlices
  | none => (0, none)
  | some (e, r) =>
    (r, some ⟨base, e.key.length, base + (e.key.length + 1), e.value.length⟩)

theorem findEntryAt_eq {buf : Buffer} {base bufSize : ℕ} (hend : base + bufSize ≤ buf.size) :
    findEntryAt buf base bufSize = .ok (located base (findEntry (buf.slice base bufSize))) := by
  have hsize := buf.size_lt
  have hlength := Buffer.slice_length hend
  have hbase : plus base 0 = .ok base := plus_eq (by omega)
  have hwhole : minus bufSize 0 = .ok bufSize := minus_eq (by omega) (Nat.zero_le _)
  unfold findEntryAt findEntry
  dsimp only
  rw [hbase, hwhole]
  simp only [ok_bind, findAt_eq equals hend]
  cases hkey : find equals (buf.slice base bufSize) with
  | none => rfl
  | some keyEnd =>
      obtain ⟨hlt, -⟩ := find_eq_some hkey
      rw [hlength] at hlt
      cases keyEnd with
      | zero => rfl
      | succ n =>
          have hsome : ¬ (n + 1 = 0 ∨ n + 1 = NPOS) := by
            unfold NPOS
            omega
          have hfirst : minus (n + 1) 0 = .ok (n + 1) := minus_eq (by omega) (Nat.zero_le _)
          have hin : base + (n + 1) ≤ buf.size := by omega
          have htake : buf.slice base (n + 1) = (buf.slice base bufSize).take (n + 1) :=
            (Buffer.slice_take (by omega)).symm
          simp only [Option.elim_some, id, if_neg hsome, hfirst, ok_bind, findAt_eq newline hin,
            htake]
          cases hnewline : find newline ((buf.slice base bufSize).take (n + 1)) with
          | some k =>
              obtain ⟨hk, -⟩ := find_eq_some hnewline
              rw [List.length_take] at hk
              have hfound : (some k).elim NPOS id ≠ NPOS := by
                show k ≠ NPOS
                unfold NPOS
                omega
              rw [if_pos hfound, if_pos (Option.some_ne_none k)]
              rfl
          | none =>
              have hvalue : plus (n + 1) 1 = .ok (n + 1 + 1) := plus_eq (by omega)
              rw [if_neg (fun h => h rfl), if_neg (fun h => h rfl), hvalue, hlength]
              simp only [ok_bind]
              by_cases hroom : bufSize ≤ n + 1 + 1
              · rw [if_pos hroom, if_pos hroom]
                rfl
              · have hstart : plus base (n + 1 + 1) = .ok (base + (n + 1 + 1)) :=
                  plus_eq (by omega)
                have hleft : minus bufSize (n + 1 + 1) = .ok (bufSize - (n + 1 + 1)) :=
                  minus_eq (by omega) (by omega)
                have hdrop : buf.slice (base + (n + 1 + 1)) (bufSize - (n + 1 + 1)) =
                    (buf.slice base bufSize).drop (n + 1 + 1) := Buffer.slice_drop.symm
                have hrest : base + (n + 1 + 1) + (bufSize - (n + 1 + 1)) ≤ buf.size := by omega
                have hkeyLength : ((buf.slice base bufSize).take (n + 1)).length = n + 1 := by
                  rw [List.length_take, hlength]
                  omega
                rw [if_neg hroom, if_neg hroom, hstart, hleft]
                simp only [ok_bind, findAt_eq newline hrest, hdrop]
                cases hvalueEnd : find newline ((buf.slice base bufSize).drop (n + 1 + 1)) with
                | none =>
                    have hzero : ¬ NPOS = 0 := by decide
                    have hfits : bufSize ≠ n + 1 + 1 := by omega
                    have htoEnd : ((buf.slice base bufSize).drop (n + 1 + 1)).take
                        (bufSize - (n + 1 + 1)) = (buf.slice base bufSize).drop (n + 1 + 1) :=
                      List.take_of_length_le (by rw [List.length_drop, hlength])
                    simp only [Option.elim_none, if_neg hzero, if_true, pure_ok, ok_bind, hleft,
                      lt_irrefl, if_false, reduceCtorEq, htoEnd, located, hkeyLength,
                      List.length_drop, hlength]
                | some m =>
                    obtain ⟨hm, -⟩ := find_eq_some hvalueEnd
                    rw [List.length_drop, hlength] at hm
                    cases m with
                    | zero => rfl
                    | succ m =>
                        have hzero : ¬ m + 1 = 0 := by omega
                        have hnotEnd : ¬ m + 1 = NPOS := by
                          unfold NPOS
                          omega
                        have hsomeEnd : ¬ some (m + 1) = some 0 := by simp
                        have hplus : plus (n + 1 + 1) (m + 1) = .ok (n + 1 + 1 + (m + 1)) :=
                          plus_eq (by omega)
                        have hminus : minus (n + 1 + 1 + (m + 1)) (n + 1 + 1) = .ok (m + 1) := by
                          rw [minus_eq (by omega) (by omega), Nat.add_sub_cancel_left]
                        have hskip : plus (n + 1 + 1 + (m + 1)) 1 =
                            .ok (n + 1 + 1 + (m + 1) + 1) := plus_eq (by omega)
                        have hbefore : n + 1 + 1 + (m + 1) < bufSize := by omega
                        have hvalueLength : (((buf.slice base bufSize).drop (n + 1 + 1)).take
                            (m + 1)).length = m + 1 := by
                          rw [List.length_take, List.length_drop, hlength]
                          omega
                        simp only [Option.elim_some, id, if_neg hzero, if_neg hnotEnd,
                          if_neg hsomeEnd, hplus, hminus, hskip, ok_bind, if_pos hbefore,
                          Nat.add_sub_cancel_left, located, hkeyLength, hvalueLength, pure_ok]

/-- An entry at the start of a buffer: its parts and where it ends. -/
structure FoundIn (buf : Bytes) (e : Entry) (r : ℕ) : Prop where
  key_eq : e.key = buf.take e.key.length
  value_eq : e.value = (buf.drop (e.key.length + 1)).take e.value.length
  key_pos : 0 < e.key.length
  value_pos : 0 < e.value.length
  end_ge : e.key.length + 1 + e.value.length ≤ r
  end_le : r ≤ buf.length
  key_equals : equals ∉ e.key
  key_newline : newline ∉ e.key
  value_newline : newline ∉ e.value

theorem findEntry_foundIn {buf : Bytes} {e : Entry} {r : ℕ} (h : findEntry buf = some (e, r)) :
    FoundIn buf e r := by
  unfold findEntry at h
  cases hkey : find equals buf with
  | none =>
      rw [hkey] at h
      cases h
  | some n =>
      obtain ⟨hlt, hequals⟩ := find_eq_some hkey
      have hkeyLength : (buf.take n).length = n := by
        rw [List.length_take]
        omega
      cases n with
      | zero =>
          rw [hkey] at h
          cases h
      | succ n =>
          simp only [hkey] at h
          by_cases hnewline : find newline (buf.take (n + 1)) = none
          swap
          · rw [if_pos hnewline] at h
            cases h
          rw [if_neg (fun hne => hne hnewline)] at h
          by_cases hroom : buf.length ≤ n + 1 + 1
          · rw [if_pos hroom] at h
            cases h
          rw [if_neg hroom] at h
          cases hvalue : find newline (buf.drop (n + 1 + 1)) with
          | none =>
              have hwhole : (buf.drop (n + 1 + 1)).take (buf.length - (n + 1 + 1)) =
                  buf.drop (n + 1 + 1) :=
                List.take_of_length_le (by rw [List.length_drop])
              rw [hvalue, if_neg (by simp)] at h
              dsimp only at h
              rw [if_neg (lt_irrefl _), hwhole] at h
              obtain ⟨rfl, rfl⟩ := Prod.mk.inj (Option.some.inj h)
              refine ⟨?_, ?_, ?_, ?_, ?_, le_refl _, hequals, find_eq_none_iff.mp hnewline,
                find_eq_none_iff.mp hvalue⟩
              · rw [hkeyLength]
              · rw [hkeyLength, List.take_length]
              · rw [hkeyLength]
                omega
              · rw [List.length_drop]
                omega
              · rw [hkeyLength, List.length_drop]
                omega
          | some m =>
              obtain ⟨hm, hclear⟩ := find_eq_some hvalue
              rw [List.length_drop] at hm
              cases m with
              | zero =>
                  rw [hvalue, if_pos rfl] at h
                  cases h
              | succ m =>
                  have hvalueLength : ((buf.drop (n + 1 + 1)).take (m + 1)).length = m + 1 := by
                    rw [List.length_take, List.length_drop]
                    omega
                  have hbefore : n + 1 + 1 + (m + 1) < buf.length := by omega
                  rw [hvalue, if_neg (by simp)] at h
                  dsimp only at h
                  rw [if_pos hbefore, Nat.add_sub_cancel_left] at h
                  obtain ⟨rfl, rfl⟩ := Prod.mk.inj (Option.some.inj h)
                  refine ⟨?_, ?_, ?_, ?_, ?_, hbefore, hequals, find_eq_none_iff.mp hnewline,
                    hclear⟩
                  · rw [hkeyLength]
                  · rw [hkeyLength, hvalueLength]
                  · rw [hkeyLength]
                    omega
                  · rw [hvalueLength]
                    omega
                  · rw [hkeyLength, hvalueLength]
                    omega

/-- What `find_entry` returns on offsets: 0, or the end of an entry with its slices. -/
theorem findEntryAt_within {buf : Buffer} {base bufSize : ℕ} (hend : base + bufSize ≤ buf.size) :
    findEntryAt buf base bufSize = .ok (0, none) ∨
      ∃ r slices, findEntryAt buf base bufSize = .ok (r, some slices) ∧
        slices.Within buf base bufSize r ∧
        findEntry (buf.slice base bufSize) = some (slices.entry buf, r) := by
  have hlength := Buffer.slice_length hend
  rw [findEntryAt_eq hend]
  cases hfound : findEntry (buf.slice base bufSize) with
  | none => exact .inl rfl
  | some found =>
      obtain ⟨e, r⟩ := found
      have hin := findEntry_foundIn hfound
      have hge := hin.end_ge
      have hle := hin.end_le
      have hkeyPos := hin.key_pos
      rw [hlength] at hle
      have hkey : buf.slice base e.key.length = e.key := by
        have hshort : e.key.length ≤ bufSize := by omega
        rw [← Buffer.slice_take hshort, ← hin.key_eq]
      have hvalue : buf.slice (base + (e.key.length + 1)) e.value.length = e.value := by
        have hshort : e.value.length ≤ bufSize - (e.key.length + 1) := by omega
        rw [← Buffer.slice_take hshort, ← Buffer.slice_drop, ← hin.value_eq]
      refine .inr ⟨r, _, rfl, ?_, ?_⟩
      · refine ⟨by omega, hle, le_refl _, ?_, hkeyPos, ?_, ?_, hin.value_pos, ?_, ?_, ?_⟩
        · show base + e.key.length ≤ _
          omega
        · show base ≤ base + (e.key.length + 1)
          omega
        · show base + (e.key.length + 1) + e.value.length ≤ _
          omega
        · rw [hkey]
          exact hin.key_equals
        · rw [hkey]
          exact hin.key_newline
        · rw [hvalue]
          exact hin.value_newline
      · show some (e, r) = some (⟨buf.slice base e.key.length,
          buf.slice (base + (e.key.length + 1)) e.value.length⟩, r)
        rw [hkey, hvalue]

/-! ### Rounds -/

/-- Everything a round can meet. -/
theorem roundAt_cases {buf : Buffer} {pos : ℕ} (hpos : pos < buf.size) :
    ∃ b, buf.bytes.drop pos = b :: buf.bytes.drop (pos + 1) ∧
      (isBlank b = true ∧ roundAt buf pos = .ok .blank ∨
        isBlank b = false ∧ findEntry (buf.bytes.drop pos) = none ∧
          roundAt buf pos = .ok .malformed ∨
        isBlank b = false ∧ ∃ slices r, slices.Within buf pos (buf.size - pos) r ∧
          findEntry (buf.bytes.drop pos) = some (slices.entry buf, r) ∧
          roundAt buf pos = .ok (.entry slices r)) := by
  have hsize := buf.size_lt
  have hlength : buf.size = buf.bytes.length := rfl
  have hend : pos + (buf.size - pos) ≤ buf.size := by omega
  have hall : buf.slice pos (buf.size - pos) = buf.bytes.drop pos :=
    List.take_of_length_le (by rw [List.length_drop, hlength])
  have hleft : minus buf.size pos = .ok (buf.size - pos) := minus_eq hsize (by omega)
  obtain ⟨b, hread, -⟩ := Buffer.slice_succ hpos 0
  refine ⟨b, ?_, ?_⟩
  · have hb : buf.bytes[pos]? = some b := by
      unfold Buffer.read at hread
      split at hread
      · cases hread
      · rename_i hget
        rw [hget, Except.ok.inj hread]
    obtain ⟨hlt, hget⟩ := List.getElem?_eq_some_iff.mp hb
    rw [List.drop_eq_getElem_cons hlt, hget]
  · unfold roundAt
    rw [hread, ok_bind]
    cases hblank : isBlank b with
    | true => exact .inl ⟨rfl, rfl⟩
    | false =>
        refine .inr ?_
        rw [hleft, ok_bind, if_neg (by simp)]
        rcases findEntryAt_within hend with hzero | ⟨r, slices, hsome, hwithin, hfound⟩
        · have hnone : findEntry (buf.bytes.drop pos) = none := by
            rw [findEntryAt_eq hend, hall] at hzero
            cases hfound : findEntry (buf.bytes.drop pos) with
            | none => rfl
            | some found =>
                rw [hfound] at hzero
                cases (Prod.mk.inj (Except.ok.inj hzero)).2
          rw [hzero, ok_bind]
          exact .inl ⟨rfl, hnone, rfl⟩
        · have hr : ¬ r = 0 := by
            have hpos := hwithin.pos
            omega
          rw [hall] at hfound
          rw [hsome, ok_bind]
          dsimp only
          rw [if_neg hr]
          exact .inr ⟨rfl, slices, r, hwithin, hfound, rfl⟩

/-- The loop moves forward and stays in the buffer. -/
theorem Advances.lt {buf : Buffer} {pos next : ℕ} (h : Advances buf pos next) :
    pos < next ∧ next ≤ buf.size := by
  have hsize := buf.size_lt
  obtain ⟨hpos, hround⟩ := h
  rcases hround with ⟨-, hnext⟩ | ⟨slices, r, hround, hnext⟩
  · rw [plus_eq (by omega)] at hnext
    have heq := Except.ok.inj hnext
    omega
  · obtain ⟨b, -, hcases⟩ := roundAt_cases hpos
    rcases hcases with ⟨-, hblank⟩ | ⟨-, -, hmalformed⟩ | ⟨-, slices', r', hwithin, -, hentry⟩
    · rw [hblank] at hround
      cases hround
    · rw [hmalformed] at hround
      cases hround
    · rw [hentry] at hround
      obtain ⟨rfl, rfl⟩ := Round.entry.inj (Except.ok.inj hround)
      have hone := hwithin.pos
      have hle := hwithin.end_le
      rw [plus_eq (by omega)] at hnext
      have heq := Except.ok.inj hnext
      omega

theorem Position.le {buf : Buffer} {pos : ℕ} (h : Position buf pos) : pos ≤ buf.size := by
  induction h with
  | refl => exact Nat.zero_le _
  | tail _ hstep _ => exact hstep.lt.2

/-- On offsets the loop is the loop on the bytes that are left, and ends before its fuel. -/
theorem populateAt_eq {buf : Buffer} {fuel pos : ℕ} (hfuel : buf.size ≤ fuel + pos)
    (hpos : pos ≤ buf.size) (list : List Entry) :
    populateAt buf fuel list pos =
      populateFrom fuel list (buf.bytes.drop pos) >>= fun r => .ret (.ok r) := by
  have hsize := buf.size_lt
  have hlength : buf.size = buf.bytes.length := rfl
  induction fuel generalizing pos list with
  | zero =>
      have hlt : ¬ pos < buf.size := by omega
      have hnil : buf.bytes.drop pos = [] := List.drop_eq_nil_of_le (by omega)
      unfold populateAt
      rw [if_neg hlt, hnil]
      rfl
  | succ fuel ih =>
      unfold populateAt
      by_cases hlt : pos < buf.size
      · obtain ⟨b, hdrop, hcases⟩ := roundAt_cases hlt
        rw [if_pos hlt]
        rcases hcases with ⟨hblank, hround⟩ | ⟨hblank, hnone, hround⟩ |
          ⟨hblank, slices, r, hwithin, hfound, hround⟩
        · have hnext : plus pos 1 = .ok (pos + 1) := plus_eq (by omega)
          simp only [hround, hnext]
          rw [ih (by omega) (by omega), hdrop, populateFrom, if_pos hblank]
        · simp only [hround]
          rw [hdrop] at hnone ⊢
          rw [populateFrom, if_neg (by simp [hblank]), hnone]
          rfl
        · have hone := hwithin.pos
          have hle := hwithin.end_le
          have hnext : plus pos r = .ok (pos + r) := plus_eq (by omega)
          have hrest : (buf.bytes.drop pos).drop r = buf.bytes.drop (pos + r) := List.drop_drop ..
          simp only [hround, hnext]
          rw [hdrop] at hfound hrest
          rw [hdrop, populateFrom, if_neg (by simp [hblank]), hfound]
          dsimp only
          rw [hrest, Prog.bind_assoc]
          congr 1
          funext res
          cases res with
          | error e => rfl
          | ok new =>
              dsimp only
              rw [Prog.bind_assoc]
              congr 1
              funext res
              cases res with
              | error e => rfl
              | ok list => exact ih (by omega) (by omega) list
      · have hnil : buf.bytes.drop pos = [] := List.drop_eq_nil_of_le (by omega)
        rw [if_neg hlt, hnil]
        rfl

/-- At every position that `populate_list` reaches, `find_entry` finds nothing or an entry
within the bytes that are left, every later position is greater, and none lies behind the
buffer.  The run over the whole buffer meets no misuse, an endless loop included: it is the
one that `populate_list` makes on the bytes. -/
theorem legacy_parser_in_bounds (buf : Buffer) :
    (∀ pos, Position buf pos → pos ≤ buf.size ∧
      (pos < buf.size →
        findEntryAt buf pos (buf.size - pos) = .ok (0, none) ∨
          ∃ r slices, findEntryAt buf pos (buf.size - pos) = .ok (r, some slices) ∧
            slices.Within buf pos (buf.size - pos) r) ∧
      (∃ round, pos < buf.size → roundAt buf pos = .ok round) ∧
      ∀ next, Advances buf pos next → pos < next ∧ next ≤ buf.size) ∧
    ∀ list, populateAt buf buf.size list 0 =
      populateList list buf.bytes >>= fun r => .ret (.ok r) := by
  refine ⟨fun pos hreached => ⟨hreached.le, ?_, ?_, fun next hstep => hstep.lt⟩, fun list => ?_⟩
  · intro hpos
    have hend : pos + (buf.size - pos) ≤ buf.size := by omega
    rcases findEntryAt_within hend with hzero | ⟨r, slices, hsome, hwithin, -⟩
    · exact .inl hzero
    · exact .inr ⟨r, slices, hsome, hwithin⟩
  · by_cases hpos : pos < buf.size
    · obtain ⟨b, -, hcases⟩ := roundAt_cases hpos
      rcases hcases with ⟨-, hround⟩ | ⟨-, -, hround⟩ | ⟨-, slices, r, -, -, hround⟩
      · exact ⟨_, fun _ => hround⟩
      · exact ⟨_, fun _ => hround⟩
      · exact ⟨_, fun _ => hround⟩
    · exact ⟨.blank, fun h => absurd h hpos⟩
  · rw [populateAt_eq (Nat.le_add_right _ _) (Nat.zero_le _), List.drop_zero]
    rfl

end Nvram
