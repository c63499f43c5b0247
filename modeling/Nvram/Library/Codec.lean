import Mathlib.Data.List.Basic
import Mathlib.Algebra.Order.Ring.Nat

/-!
# Self-delimiting byte codecs

A codec is an encoder with a decoder that takes one value off the front of a stream and
returns the rest.  Its round trip is a field, stated for the values that fit the width of
its length and number fields, so a codec without one cannot be built.

* `nat w` is a natural number in `w` bytes, least significant byte first.
* `pair`, `map` and `blob` build records and length-prefixed byte strings.
* `encAll` and `decAll` write and read a whole stream of values.
-/

namespace Codecs

abbrev Stream := List UInt8

/-! ### Little-endian numbers -/

/-- The `w` bytes of `n`, least significant first. -/
def leBytes : ℕ → ℕ → Stream
  | 0, _ => []
  | w + 1, n => UInt8.ofNat n :: leBytes w (n / 256)

def leValue : Stream → ℕ
  | [] => 0
  | b :: bs => b.toNat + 256 * leValue bs

@[simp] theorem leBytes_length (w n : ℕ) : (leBytes w n).length = w := by
  induction w generalizing n with
  | zero => rfl
  | succ w ih => simp only [leBytes, List.length_cons, ih]

theorem leValue_leBytes {w n : ℕ} (h : n < 256 ^ w) : leValue (leBytes w n) = n := by
  induction w generalizing n with
  | zero =>
      rw [pow_zero] at h
      simp only [leBytes, leValue]
      omega
  | succ w ih =>
      have hdiv : n / 256 < 256 ^ w := by
        rw [pow_succ] at h
        exact Nat.div_lt_of_lt_mul (by rw [Nat.mul_comm]; exact h)
      have hlow : (UInt8.ofNat n).toNat = n % 256 := UInt8.toNat_ofNat'
      rw [leBytes, leValue, ih hdiv, hlow]
      omega

theorem leBytes_leValue (bs : Stream) : leBytes bs.length (leValue bs) = bs := by
  induction bs with
  | nil => rfl
  | cons b bs ih =>
      have hb := b.toNat_lt
      have hlow : UInt8.ofNat (b.toNat + 256 * leValue bs) = b := by
        refine UInt8.toNat_inj.mp ?_
        rw [UInt8.toNat_ofNat']
        omega
      have hdiv : (b.toNat + 256 * leValue bs) / 256 = leValue bs := by omega
      rw [List.length_cons, leValue, leBytes, hlow, hdiv, ih]

/-! ### Codecs -/

structure Codec (α : Type) where
  enc : α → Stream
  dec : Stream → Option (α × Stream)
  /-- The values that fit the encoding. -/
  Fits : α → Prop
  dec_enc : ∀ a rest, Fits a → dec (enc a ++ rest) = some (a, rest)

variable {α β : Type}

/-- A number in `w` bytes. -/
def nat (w : ℕ) : Codec ℕ where
  enc := leBytes w
  dec bs := if w ≤ bs.length then some (leValue (bs.take w), bs.drop w) else none
  Fits n := n < 256 ^ w
  dec_enc n rest h := by
    have hle : w ≤ (leBytes w n ++ rest).length := by simp
    have htake : (leBytes w n ++ rest).take w = leBytes w n := by
      rw [List.take_append_of_le_length (by simp), List.take_of_length_le (by simp)]
    have hdrop : (leBytes w n ++ rest).drop w = rest :=
      List.drop_left' (leBytes_length w n)
    rw [if_pos hle, htake, hdrop, leValue_leBytes h]

/-- A byte string behind its length in `w` bytes. -/
def blob (w : ℕ) : Codec Stream where
  enc s := leBytes w s.length ++ s
  dec bs := do
    let (n, rest) ← (nat w).dec bs
    if n ≤ rest.length then some (rest.take n, rest.drop n) else none
  Fits s := s.length < 256 ^ w
  dec_enc s rest h := by
    have hnat : (nat w).dec (leBytes w s.length ++ (s ++ rest)) = some (s.length, s ++ rest) :=
      (nat w).dec_enc s.length (s ++ rest) h
    rw [List.append_assoc, hnat]
    have hle : s.length ≤ (s ++ rest).length := by simp
    simp only [Option.bind_eq_bind, Option.bind_some, if_pos hle, List.take_left,
      List.drop_left]

def pair (c : Codec α) (d : Codec β) : Codec (α × β) where
  enc p := c.enc p.1 ++ d.enc p.2
  dec bs := do
    let (a, rest) ← c.dec bs
    let (b, rest) ← d.dec rest
    some ((a, b), rest)
  Fits p := c.Fits p.1 ∧ d.Fits p.2
  dec_enc p rest h := by
    rw [List.append_assoc, c.dec_enc p.1 _ h.1]
    simp only [Option.bind_eq_bind, Option.bind_some, d.dec_enc p.2 rest h.2]

/-- Along a bijection. -/
def map (c : Codec α) (f : α → β) (g : β → α) (hfg : ∀ b, f (g b) = b) : Codec β where
  enc b := c.enc (g b)
  dec bs := (c.dec bs).map fun p => (f p.1, p.2)
  Fits b := c.Fits (g b)
  dec_enc b rest h := by rw [c.dec_enc (g b) rest h, Option.map_some, hfg]

/-! ### Whole streams -/

namespace Codec

variable (c : Codec α)

def encAll (l : List α) : Stream := l.flatMap c.enc

/-- Decode until nothing is left; `fuel` bounds the number of values. -/
def decAll : ℕ → Stream → Option (List α)
  | _, [] => some []
  | 0, _ :: _ => none
  | fuel + 1, b :: bs => do
    let (a, rest) ← c.dec (b :: bs)
    let l ← decAll fuel rest
    some (a :: l)

theorem decAll_encAll (hne : ∀ a, c.enc a ≠ []) {l : List α} (hl : ∀ a ∈ l, c.Fits a) {fuel : ℕ}
    (hfuel : l.length ≤ fuel) : c.decAll fuel (c.encAll l) = some l := by
  induction l generalizing fuel with
  | nil => simp [encAll, decAll]
  | cons a l ih =>
      have hdec : c.dec (c.enc a ++ c.encAll l) = some (a, c.encAll l) :=
        c.dec_enc a _ (hl a (by simp))
      obtain ⟨fuel, rfl⟩ : ∃ k, fuel = k + 1 := ⟨fuel - 1, by
        rw [List.length_cons] at hfuel
        omega⟩
      have hrest : c.decAll fuel (c.encAll l) = some l :=
        ih (fun b hb => hl b (by simp [hb])) (by simpa using hfuel)
      have henc : c.encAll (a :: l) = c.enc a ++ c.encAll l := by simp [encAll]
      obtain ⟨b, bs, hcons⟩ := List.exists_cons_of_ne_nil (hne a)
      rw [henc]
      rw [hcons] at hdec ⊢
      rw [List.cons_append] at hdec ⊢
      simp only [decAll, hdec, Option.bind_eq_bind, Option.bind_some, hrest]

theorem length_le_encAll (hne : ∀ a, c.enc a ≠ []) (l : List α) :
    l.length ≤ (c.encAll l).length := by
  induction l with
  | nil => simp
  | cons a l ih =>
      have hpos : 0 < (c.enc a).length := List.length_pos_iff.mpr (hne a)
      have henc : c.encAll (a :: l) = c.enc a ++ c.encAll l := by simp [encAll]
      rw [henc, List.length_append, List.length_cons]
      omega

end Codec

end Codecs
