import Nvram.CLib

/-!
# What `strtoul` reads

An unsigned integer literal is what C allows for one: decimal digits, `0` and octal digits, or
`0x` and hexadecimal digits.  `strtoul` passes white space and a sign and reads the longest literal
that follows, whatever is behind it.  Where there is none, it reads 0.
-/

namespace Nvram

/-! ### Literals -/

/-- An unsigned integer literal and the number it denotes. -/
inductive UnsignedLiteral : Bytes → ℕ → Prop where
  | decimal {d : UInt8} {ds : Bytes} : d ≠ 48 → (∀ b ∈ d :: ds, isDigitOf 10 b = true) →
      UnsignedLiteral (d :: ds) (numeral 10 (d :: ds))
  | octal {ds : Bytes} : (∀ b ∈ ds, isDigitOf 8 b = true) →
      UnsignedLiteral (48 :: ds) (numeral 8 ds)
  | hexadecimal {x d : UInt8} {ds : Bytes} : x = 120 ∨ x = 88 →
      (∀ b ∈ d :: ds, isDigitOf 16 b = true) →
      UnsignedLiteral (48 :: x :: d :: ds) (numeral 16 (d :: ds))

theorem digitsOf_eq_self {base : ℕ} {ds : Bytes} (h : ∀ b ∈ ds, isDigitOf base b = true) :
    digitsOf base ds = ds :=
  List.takeWhile_eq_self_iff.mpr h

/-- The digits of a base up to ten. -/
theorem isDigitOf_le {base : ℕ} (hbase : base ≤ 10) {b : UInt8} (h : isDigitOf base b = true) :
    48 ≤ b.toNat ∧ b.toNat < 48 + base := by
  unfold isDigitOf digitValue at h
  have h97 : (97 : UInt8).toNat = 97 := rfl
  have h65 : (65 : UInt8).toNat = 65 := rfl
  have h48 : (48 : UInt8).toNat = 48 := rfl
  simp only [UInt8.le_iff_toNat_le] at h
  split_ifs at h
  · simp only [decide_eq_true_eq] at h
    omega
  · simp only [decide_eq_true_eq] at h
    omega
  · simp only [decide_eq_true_eq] at h
    omega

/-- A decimal digit is no white space and no sign. -/
theorem isDigitOf_ten {b : UInt8} (h : isDigitOf 10 b = true) :
    isSpaceByte b = false ∧ b ≠ 43 ∧ b ≠ 45 := by
  obtain ⟨hge, -⟩ := isDigitOf_le le_rfl h
  have hne : ∀ c : UInt8, c.toNat < 48 → b ≠ c := fun c hc heq => by
    rw [heq] at hge
    omega
  refine ⟨?_, hne 43 (by decide), hne 45 (by decide)⟩
  have h13 : ¬ b ≤ 13 := by
    rw [UInt8.le_iff_toNat_le]
    have h13 : (13 : UInt8).toNat = 13 := rfl
    omega
  simp [isSpaceByte, hne 32 (by decide), h13]

/-! ### The base -/

theorem detectBase_decimal {d : UInt8} (hd : d ≠ 48) (s : Bytes) :
    detectBase (d :: s) = (10, 0) := by
  unfold detectBase
  split
  · rename_i heq
    exact absurd (List.cons.inj heq).1 hd
  · rename_i heq
    exact absurd (List.cons.inj heq).1 hd
  · rfl

theorem detectBase_octal {x : UInt8} (hx : isDigitOf 8 x = true) (s : Bytes) :
    detectBase (48 :: x :: s) = (8, 0) := by
  have hno : ¬ (x = 120 ∨ x = 88) := by
    have hlt := (isDigitOf_le (by decide) hx).2
    rintro (rfl | rfl)
    · exact absurd hlt (by decide)
    · exact absurd hlt (by decide)
  cases s with
  | nil => rfl
  | cons d s => rw [detectBase, if_neg fun h => hno h.1]

theorem detectBase_hexadecimal {x d : UInt8} (hx : x = 120 ∨ x = 88) (hd : isDigitOf 16 d = true)
    (s : Bytes) : detectBase (48 :: x :: d :: s) = (16, 2) := by
  rw [detectBase, if_pos ⟨hx, hd⟩]

/-- The base is 16 behind `0x` and a digit, else 8 from a `0` on, else 10. -/
theorem detectBase_cases (s : Bytes) :
    (∃ x d rest, s = 48 :: x :: d :: rest ∧ (x = 120 ∨ x = 88) ∧ isDigitOf 16 d = true ∧
        detectBase s = (16, 2)) ∨
      (∃ rest, s = 48 :: rest ∧ detectBase s = (8, 0)) ∨
      (∀ rest, s ≠ 48 :: rest) ∧ detectBase s = (10, 0) := by
  match s with
  | [] => exact Or.inr (Or.inr ⟨fun _ h => (by cases h), rfl⟩)
  | b :: rest =>
    by_cases hb : b = 48
    · subst hb
      match rest with
      | [] => exact Or.inr (Or.inl ⟨[], rfl, rfl⟩)
      | [x] => exact Or.inr (Or.inl ⟨[x], rfl, rfl⟩)
      | x :: d :: rest =>
        by_cases hhex : (x = 120 ∨ x = 88) ∧ isDigitOf 16 d = true
        · exact Or.inl ⟨x, d, rest, rfl, hhex.1, hhex.2, detectBase_hexadecimal hhex.1 hhex.2 rest⟩
        · exact Or.inr (Or.inl ⟨x :: d :: rest, rfl, by rw [detectBase, if_neg hhex]⟩)
    · exact Or.inr (Or.inr ⟨fun rest' h => hb (List.cons.inj h).1, detectBase_decimal hb rest⟩)

/-! ### White space and sign -/

/-- The digits that a conversion takes from `s` on. -/
def literalDigits (s : Bytes) : Bytes := digitsOf (detectBase s).1 (s.drop (detectBase s).2)

/-- What a conversion makes of the rest behind white space and a sign. -/
def convertRest (rest : Bytes) (negative : Bool) (skipped : ℕ) : Conversion :=
  if literalDigits rest = [] then ⟨0, false, 0⟩
  else ⟨numeral (detectBase rest).1 (literalDigits rest), negative,
    skipped + (detectBase rest).2 + (literalDigits rest).length⟩

theorem convert_signed {b : UInt8} (hb : b = 43 ∨ b = 45) (rest : Bytes) :
    convert 0 (b :: rest) = convertRest rest (b = 45) 1 := by
  have hspace : isSpaceByte b = false := by
    rcases hb with rfl | rfl <;> rfl
  have hspaces : (b :: rest).takeWhile isSpaceByte = [] :=
    List.takeWhile_cons_of_neg (by simp [hspace])
  simp only [convert, hspaces, List.length_nil, List.drop_zero, if_pos hb, List.drop_succ_cons,
    if_true, Nat.zero_add, List.head?_cons, Option.some.injEq]
  rfl

theorem convert_unsigned {b : UInt8} (hb : isSpaceByte b = false ∧ b ≠ 43 ∧ b ≠ 45) (s : Bytes) :
    convert 0 (b :: s) = convertRest (b :: s) false 0 := by
  obtain ⟨hspace, hplus, hminus⟩ := hb
  have hspaces : (b :: s).takeWhile isSpaceByte = [] :=
    List.takeWhile_cons_of_neg (by simp [hspace])
  simp only [convert, hspaces, List.length_nil, List.drop_zero, hplus, hminus, or_self,
    if_false, if_true, Nat.zero_add, List.head?_cons, Option.some.injEq, decide_false]
  simp only [convertRest, Nat.zero_add]
  rfl

/-- White space in front is passed. -/
theorem convert_blank {b : UInt8} (hb : isSpaceByte b = true) (s : Bytes) :
    convert 0 (b :: s) = if (convert 0 s).consumed = 0 then ⟨0, false, 0⟩
      else { convert 0 s with consumed := (convert 0 s).consumed + 1 } := by
  have hspaces : (b :: s).takeWhile isSpaceByte = b :: s.takeWhile isSpaceByte :=
    List.takeWhile_cons_of_pos hb
  simp only [convert, hspaces, List.length_cons, List.drop_succ_cons, if_true]
  generalize s.drop (s.takeWhile isSpaceByte).length = s₁
  generalize hdigits : digitsOf _ _ = digits
  split
  · exact (if_pos rfl).symm
  · rename_i hne
    have hpos := List.length_pos_iff.mpr hne
    rw [if_neg (by dsimp only; omega)]
    congr 1
    dsimp only
    omega

/-- Without digits nothing is converted. -/
theorem convert_eq_of_consumed {s : Bytes} (h : (convert 0 s).consumed = 0) :
    convert 0 s = ⟨0, false, 0⟩ := by
  simp only [convert, if_true] at h ⊢
  generalize digitsOf _ _ = digits at h ⊢
  by_cases hnil : digits = []
  · rw [if_pos hnil]
  · have hpos := List.length_pos_iff.mpr hnil
    rw [if_neg hnil] at h
    dsimp only at h
    omega

/-- Without white space and sign in front, a conversion takes the digits of its base. -/
theorem convert_of_digit {b : UInt8} {bs : Bytes} (hb : isDigitOf 10 b = true) {base skip : ℕ}
    (hbase : detectBase (b :: bs) = (base, skip)) {ds : Bytes}
    (hds : (b :: bs).drop skip = ds) (hdigits : ∀ c ∈ ds, isDigitOf base c = true)
    (hne : ds ≠ []) (hskip : skip ≤ (b :: bs).length) :
    convert 0 (b :: bs) = ⟨numeral base ds, false, (b :: bs).length⟩ := by
  have htaken : literalDigits (b :: bs) = ds := by
    rw [literalDigits, hbase, hds]
    exact digitsOf_eq_self hdigits
  have hlength : 0 + skip + ds.length = (b :: bs).length := by
    rw [← hds, List.length_drop]
    omega
  rw [convert_unsigned (isDigitOf_ten hb), convertRest, htaken, if_neg hne, hbase, hlength]

/-- `strtoul` reads a literal to its end. -/
theorem convert_literal {s : Bytes} {n : ℕ} (h : UnsignedLiteral s n) :
    convert 0 s = ⟨n, false, s.length⟩ := by
  cases h with
  | @decimal d ds hd hdigits =>
      exact convert_of_digit (hdigits d List.mem_cons_self) (detectBase_decimal hd ds) rfl hdigits
        (List.cons_ne_nil _ _) (Nat.zero_le _)
  | @octal ds hdigits =>
      have hbase : detectBase (48 :: ds) = (8, 0) := by
        cases ds with
        | nil => rfl
        | cons x ds => exact detectBase_octal (hdigits x List.mem_cons_self) ds
      have hall : ∀ b ∈ 48 :: ds, isDigitOf 8 b = true :=
        List.forall_mem_cons.mpr ⟨by decide, hdigits⟩
      have hnumeral : numeral 8 (48 :: ds) = numeral 8 ds := rfl
      rw [← hnumeral]
      exact convert_of_digit (by decide) hbase rfl hall (List.cons_ne_nil _ _) (Nat.zero_le _)
  | @hexadecimal x d ds hx hdigits =>
      exact convert_of_digit (by decide)
        (detectBase_hexadecimal hx (hdigits d List.mem_cons_self) ds) rfl hdigits
        (List.cons_ne_nil _ _) (by simp)

theorem UnsignedLiteral.unique {s : Bytes} {m n : ℕ} (hm : UnsignedLiteral s m)
    (hn : UnsignedLiteral s n) : m = n :=
  congrArg Conversion.magnitude ((convert_literal hm).symm.trans (convert_literal hn))

/-! ### The longest literal -/

/-- The longest literal at the start of `s`, and its number. -/
structure LongestLiteral (s literal : Bytes) (n : ℕ) : Prop where
  isLiteral : UnsignedLiteral literal n
  starts : literal <+: s
  longest : ∀ literal' n', UnsignedLiteral literal' n' → literal' <+: s →
    literal'.length ≤ literal.length

theorem LongestLiteral.unique {s literal literal' : Bytes} {m n : ℕ}
    (hm : LongestLiteral s literal m) (hn : LongestLiteral s literal' n) : m = n := by
  have hlength : literal.length = literal'.length :=
    le_antisymm (hn.longest _ _ hm.isLiteral hm.starts) (hm.longest _ _ hn.isLiteral hn.starts)
  obtain rfl : literal = literal' :=
    (List.prefix_of_prefix_length_le hm.starts hn.starts hlength.le).eq_of_length hlength
  exact hm.isLiteral.unique hn.isLiteral

/-- Digits at the start are among those that are taken. -/
theorem length_le_digitsOf {base : ℕ} {ds : Bytes} (hdigits : ∀ b ∈ ds, isDigitOf base b = true)
    (rest : Bytes) : ds.length ≤ (digitsOf base (ds ++ rest)).length := by
  rw [digitsOf, List.takeWhile_append_of_pos hdigits, List.length_append]
  exact Nat.le_add_right _ _

theorem digitsOf_ne_nil {base : ℕ} {d : UInt8} (hd : isDigitOf base d = true) (s : Bytes) :
    digitsOf base (d :: s) ≠ [] := by
  rw [digitsOf, List.takeWhile_cons_of_pos hd]
  exact List.cons_ne_nil _ _

theorem take_digitsOf (base : ℕ) (s : Bytes) : s.take (digitsOf base s).length = digitsOf base s :=
  (List.prefix_iff_eq_take.mp (List.takeWhile_prefix _)).symm

theorem isDigitOf_of_mem {base : ℕ} {s : Bytes} {b : UInt8} (h : b ∈ digitsOf base s) :
    isDigitOf base b = true :=
  List.mem_takeWhile_imp h

/-- Where a literal starts, the conversion does not stop short of its end. -/
theorem length_le_literalDigits {s literal : Bytes} {n : ℕ} (hliteral : UnsignedLiteral literal n)
    (hstarts : literal <+: s) :
    literalDigits s ≠ [] ∧ literal.length ≤ (detectBase s).2 + (literalDigits s).length := by
  obtain ⟨rest, rfl⟩ := hstarts
  cases hliteral with
  | @decimal d ds hd hdigits =>
      have hbase : detectBase (d :: ds ++ rest) = (10, 0) := detectBase_decimal hd _
      rw [literalDigits, hbase]
      refine ⟨digitsOf_ne_nil (hdigits d List.mem_cons_self) _, ?_⟩
      exact (length_le_digitsOf hdigits rest).trans (Nat.le_add_left _ _)
  | @octal ds hdigits =>
      cases ds with
      | cons x ds =>
          have hbase : detectBase (48 :: x :: ds ++ rest) = (8, 0) :=
            detectBase_octal (hdigits x List.mem_cons_self) _
          have hall : ∀ b ∈ 48 :: x :: ds, isDigitOf 8 b = true :=
            List.forall_mem_cons.mpr ⟨by decide, hdigits⟩
          rw [literalDigits, hbase]
          exact ⟨digitsOf_ne_nil (by decide) _,
            (length_le_digitsOf hall rest).trans (Nat.le_add_left _ _)⟩
      | nil =>
          -- a lone `0`, which can be the start of a longer literal
          have hne : literalDigits (48 :: rest) ≠ [] := by
            rcases detectBase_cases (48 :: rest) with
              ⟨x, d, rest', heq, -, hd, hbase⟩ | ⟨rest', -, hbase⟩ | ⟨hno, -⟩
            · rw [literalDigits, hbase, heq]
              exact digitsOf_ne_nil hd _
            · rw [literalDigits, hbase]
              exact digitsOf_ne_nil (by decide) _
            · exact absurd rfl (hno rest)
          exact ⟨hne, (List.length_pos_iff.mpr hne).trans_le (Nat.le_add_left _ _)⟩
  | @hexadecimal x d ds hx hdigits =>
      have hd := hdigits d List.mem_cons_self
      have hbase : detectBase (48 :: x :: d :: ds ++ rest) = (16, 2) :=
        detectBase_hexadecimal hx hd _
      have hlength := length_le_digitsOf hdigits rest
      rw [literalDigits, hbase]
      refine ⟨digitsOf_ne_nil hd _, ?_⟩
      show (d :: ds).length + 2 ≤ 2 + (digitsOf 16 (d :: ds ++ rest)).length
      omega

/-- The digits that it takes, with what stands in front of them, are a literal. -/
theorem unsignedLiteral_take {s : Bytes} (h : literalDigits s ≠ []) :
    UnsignedLiteral (s.take ((detectBase s).2 + (literalDigits s).length))
      (numeral (detectBase s).1 (literalDigits s)) := by
  rcases detectBase_cases s with
    ⟨x, d, rest, rfl, hx, hd, hbase⟩ | ⟨rest, rfl, hbase⟩ | ⟨hno, hbase⟩
  · have hdigits : literalDigits (48 :: x :: d :: rest) = d :: digitsOf 16 rest := by
      rw [literalDigits, hbase]
      exact List.takeWhile_cons_of_pos hd
    rw [hdigits, hbase]
    have htake : (48 :: x :: d :: rest).take (2 + (d :: digitsOf 16 rest).length) =
        48 :: x :: d :: digitsOf 16 rest := by
      rw [List.length_cons, Nat.add_comm 2, List.take_succ_cons, List.take_succ_cons,
        List.take_succ_cons, take_digitsOf]
    rw [htake]
    exact .hexadecimal hx (List.forall_mem_cons.mpr ⟨hd, fun b hb => isDigitOf_of_mem hb⟩)
  · have hdigits : literalDigits (48 :: rest) = 48 :: digitsOf 8 rest := by
      rw [literalDigits, hbase]
      rfl
    rw [hdigits, hbase]
    have htake : (48 :: rest).take (0 + (48 :: digitsOf 8 rest).length) = 48 :: digitsOf 8 rest := by
      rw [Nat.zero_add, List.length_cons, List.take_succ_cons, take_digitsOf]
    rw [htake]
    exact .octal fun b hb => isDigitOf_of_mem hb
  · have hdigits : literalDigits s = digitsOf 10 s := by
      rw [literalDigits, hbase]
      rfl
    rw [hdigits] at h
    rw [hdigits, hbase, Nat.zero_add, take_digitsOf]
    cases hs : digitsOf 10 s with
    | nil => exact absurd hs h
    | cons d ds =>
        have hall : ∀ b ∈ d :: ds, isDigitOf 10 b = true :=
          fun b hb => isDigitOf_of_mem (hs ▸ hb)
        refine .decimal ?_ hall
        rintro rfl
        have htake := take_digitsOf 10 s
        rw [hs] at htake
        cases s with
        | nil => cases htake
        | cons b rest =>
            obtain rfl : b = 48 := (List.cons.inj htake).1
            exact hno rest rfl

/-- A conversion takes digits exactly where a literal starts, and then the longest one. -/
theorem longestLiteral_iff {s : Bytes} {n : ℕ} :
    (∃ literal, LongestLiteral s literal n) ↔
      literalDigits s ≠ [] ∧ numeral (detectBase s).1 (literalDigits s) = n := by
  have hlongest : literalDigits s ≠ [] → LongestLiteral s
      (s.take ((detectBase s).2 + (literalDigits s).length))
      (numeral (detectBase s).1 (literalDigits s)) := by
    intro hne
    refine ⟨unsignedLiteral_take hne, List.take_prefix _ _, fun literal' n' h hstarts => ?_⟩
    rw [List.length_take]
    exact le_min (length_le_literalDigits h hstarts).2 hstarts.length_le
  constructor
  · rintro ⟨literal, h⟩
    have hne := (length_le_literalDigits h.isLiteral h.starts).1
    exact ⟨hne, (hlongest hne).unique h⟩
  · rintro ⟨hne, rfl⟩
    exact ⟨_, hlongest hne⟩

/-! ### Strings that start with a number -/

/-- White space, a sign that may be left out, a literal that is as long as can be, and any text:
whether the sign is `-`, and the number of the literal. -/
inductive StartsWithNumber : Bytes → Bool → ℕ → Prop where
  | blank {b : UInt8} {s : Bytes} {negative : Bool} {n : ℕ} : isSpaceByte b = true →
      StartsWithNumber s negative n → StartsWithNumber (b :: s) negative n
  | minus {s literal : Bytes} {n : ℕ} : LongestLiteral s literal n →
      StartsWithNumber (45 :: s) true n
  | plus {s literal : Bytes} {n : ℕ} : LongestLiteral s literal n →
      StartsWithNumber (43 :: s) false n
  | unsigned {s literal : Bytes} {n : ℕ} : LongestLiteral s literal n →
      StartsWithNumber s false n

theorem convertRest_iff {rest : Bytes} {negative negative' : Bool} {skipped n : ℕ} :
    ((convertRest rest negative skipped).consumed ≠ 0 ∧
        (convertRest rest negative skipped).negative = negative' ∧
        (convertRest rest negative skipped).magnitude = n) ↔
      negative = negative' ∧ ∃ literal, LongestLiteral rest literal n := by
  rw [longestLiteral_iff, convertRest]
  split
  · rename_i hnil
    exact iff_of_false (fun h => h.1 rfl) fun h => h.2.1 hnil
  · rename_i hne
    have hpos := List.length_pos_iff.mpr hne
    constructor
    · rintro ⟨-, hnegative, hn⟩
      exact ⟨hnegative, hne, hn⟩
    · rintro ⟨hnegative, -, hn⟩
      exact ⟨by dsimp only; omega, hnegative, hn⟩

/-- A literal starts with a decimal digit. -/
theorem UnsignedLiteral.head {literal : Bytes} {n : ℕ} (h : UnsignedLiteral literal n) :
    ∃ d ds, literal = d :: ds ∧ isDigitOf 10 d = true := by
  cases h with
  | @decimal d ds _ hdigits => exact ⟨d, ds, rfl, hdigits d List.mem_cons_self⟩
  | @octal ds _ => exact ⟨48, ds, rfl, by decide⟩
  | @hexadecimal x d ds _ _ => exact ⟨48, x :: d :: ds, rfl, by decide⟩

/-- A conversion passes white space and a sign and takes the longest literal that follows, if there
is one. -/
theorem startsWithNumber_iff {s : Bytes} {negative : Bool} {n : ℕ} :
    StartsWithNumber s negative n ↔
      (convert 0 s).consumed ≠ 0 ∧ (convert 0 s).negative = negative ∧
        (convert 0 s).magnitude = n := by
  constructor
  · intro h
    induction h with
    | blank hb _ ih =>
        rw [convert_blank hb, if_neg ih.1]
        exact ⟨Nat.succ_ne_zero _, ih.2⟩
    | minus h =>
        rw [convert_signed (Or.inr rfl)]
        exact convertRest_iff.mpr ⟨rfl, _, h⟩
    | plus h =>
        rw [convert_signed (Or.inl rfl)]
        exact convertRest_iff.mpr ⟨rfl, _, h⟩
    | @unsigned s literal n h =>
        obtain ⟨d, ds, rfl, hd⟩ := h.isLiteral.head
        obtain ⟨rest, rfl⟩ := h.starts
        rw [List.cons_append, convert_unsigned (isDigitOf_ten hd)]
        exact convertRest_iff.mpr ⟨rfl, _, h⟩
  · intro h
    induction s with
    | nil => exact absurd rfl h.1
    | cons b s ih =>
        by_cases hb : isSpaceByte b = true
        · rw [convert_blank hb] at h
          by_cases hzero : (convert 0 s).consumed = 0
          · rw [if_pos hzero] at h
            exact absurd rfl h.1
          · rw [if_neg hzero] at h
            exact .blank hb (ih ⟨hzero, h.2⟩)
        · by_cases hsign : b = 43 ∨ b = 45
          · rw [convert_signed hsign, convertRest_iff] at h
            obtain ⟨hnegative, literal, hliteral⟩ := h
            rcases hsign with rfl | rfl
            · obtain rfl : negative = false := hnegative.symm
              exact .plus hliteral
            · obtain rfl : negative = true := hnegative.symm
              exact .minus hliteral
          · rw [not_or] at hsign
            rw [convert_unsigned ⟨Bool.eq_false_iff.mpr hb, hsign⟩, convertRest_iff] at h
            obtain ⟨rfl, literal, hliteral⟩ := h
            exact .unsigned hliteral

end Nvram
