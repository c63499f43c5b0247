import Mathlib.Algebra.Order.Ring.Nat
import Mathlib.Data.List.Basic

/-!
# Records laid out in a buffer

A record of fixed-width parts is the concatenation of the parts.  `span buf pos len` is the
part at a position and `splice buf pos data` stores one.  A writer that fills a blank buffer
part by part, in order, produces the concatenation (`storeAll_filled`, `filled_gap`); a reader
that takes every part at its position takes the buffer apart into the same parts
(`split_flatten_append`, `flatten_split`).
-/

namespace Layout

variable {α : Type}

/-- The `len` elements of a buffer from `pos` on. -/
def span (buf : List α) (pos len : ℕ) : List α := (buf.drop pos).take len

/-- Store `data` from `pos` on. -/
def splice (buf : List α) (pos : ℕ) (data : List α) : List α :=
  buf.take pos ++ data ++ buf.drop (pos + data.length)

theorem length_span {buf : List α} {pos len : ℕ} (h : pos + len ≤ buf.length) :
    (span buf pos len).length = len := by
  rw [span, List.length_take, List.length_drop]
  omega

theorem splice_append {before gap after data : List α} (h : gap.length = data.length) :
    splice (before ++ (gap ++ after)) before.length data = before ++ (data ++ after) := by
  have htake : (before ++ (gap ++ after)).take before.length = before := List.take_left
  have hdrop : (before ++ (gap ++ after)).drop (before.length + data.length) = after := by
    rw [← h, ← List.drop_drop, List.drop_left, List.drop_left]
  rw [splice, htake, hdrop, List.append_assoc]

/-! ### Taking a buffer apart -/

/-- The consecutive parts of a buffer with the given widths. -/
def split : List ℕ → List α → List (List α)
  | [], _ => []
  | w :: ws, buf => buf.take w :: split ws (buf.drop w)

theorem flatten_split (ws : List ℕ) (buf : List α) : (split ws buf).flatten = buf.take ws.sum := by
  induction ws generalizing buf with
  | nil => rfl
  | cons w ws ih =>
      rw [split, List.flatten_cons, ih, List.sum_cons, List.take_add]

theorem split_flatten_append (parts : List (List α)) (rest : List α) :
    split (parts.map List.length) (parts.flatten ++ rest) = parts := by
  induction parts with
  | nil => rfl
  | cons p parts ih =>
      rw [List.map_cons, List.flatten_cons, List.append_assoc, split, List.take_left,
        List.drop_left, ih]

/-! ### Filling a blank buffer -/

/-- A buffer of `n` elements that starts with the given parts and is blank behind them. -/
def filled (blank : α) (n : ℕ) (parts : List (List α)) : List α :=
  parts.flatten ++ List.replicate (n - parts.flatten.length) blank

theorem filled_nil (blank : α) (n : ℕ) : filled blank n [] = List.replicate n blank := rfl

/-- Storing a part behind the ones that are there. -/
theorem splice_filled {blank : α} {n pos : ℕ} {parts : List (List α)} {data : List α}
    (hpos : parts.flatten.length = pos) (hfits : pos + data.length ≤ n) :
    splice (filled blank n parts) pos data = filled blank n (parts ++ [data]) := by
  have hblank : List.replicate (n - pos) blank =
      List.replicate data.length blank ++ List.replicate (n - pos - data.length) blank := by
    rw [← List.replicate_add]
    congr 1
    omega
  have hrest : n - (parts ++ [data]).flatten.length = n - pos - data.length := by
    rw [List.flatten_append, List.length_append, List.flatten_singleton, hpos]
    omega
  rw [filled, filled, hrest, hpos, hblank, ← hpos, splice_append List.length_replicate]
  simp

/-- Store every part at its position, in order. -/
def storeAll (buf : List α) (stores : List (ℕ × List α)) : List α :=
  stores.foldl (fun buf store => splice buf store.1 store.2) buf

/-- Every part is stored where the one before it ends, the first at `pos`. -/
def Placed : ℕ → List (ℕ × List α) → Prop
  | _, [] => True
  | pos, store :: stores => store.1 = pos ∧ Placed (pos + store.2.length) stores

theorem storeAll_filled {blank : α} {n : ℕ} {parts : List (List α)} {stores : List (ℕ × List α)}
    (hplaced : Placed parts.flatten.length stores)
    (hfits : (parts ++ stores.map Prod.snd).flatten.length ≤ n) :
    storeAll (filled blank n parts) stores = filled blank n (parts ++ stores.map Prod.snd) := by
  induction stores generalizing parts with
  | nil => rw [List.map_nil, List.append_nil, storeAll, List.foldl_nil]
  | cons store stores ih =>
      obtain ⟨hpos, hrest⟩ := hplaced
      have hsplit : parts ++ (store :: stores).map Prod.snd =
          (parts ++ [store.2]) ++ stores.map Prod.snd := by
        rw [List.map_cons, List.append_assoc, List.singleton_append]
      have hnext : (parts ++ [store.2]).flatten.length =
          parts.flatten.length + store.2.length := by
        rw [List.flatten_append, List.flatten_singleton, List.length_append]
      rw [hsplit] at hfits ⊢
      have hroom : store.1 + store.2.length ≤ n := by
        rw [hpos, ← hnext]
        rw [List.flatten_append, List.length_append] at hfits
        omega
      rw [storeAll, List.foldl_cons, splice_filled hpos.symm hroom]
      exact ih (by rw [hnext]; exact hrest) hfits

/-- A part that is left blank. -/
theorem filled_gap {blank : α} {n k : ℕ} {parts : List (List α)}
    (hfits : parts.flatten.length + k ≤ n) :
    filled blank n (parts ++ [List.replicate k blank]) = filled blank n parts := by
  have hlen : (parts ++ [List.replicate k blank]).flatten.length = parts.flatten.length + k := by
    simp
  rw [filled, filled, hlen, List.flatten_append, List.flatten_singleton, List.append_assoc,
    ← List.replicate_add]
  congr 2
  omega

/-- The parts of a buffer that is filled to the end. -/
theorem filled_eq_flatten {blank : α} {n : ℕ} {parts : List (List α)}
    (h : parts.flatten.length = n) : filled blank n parts = parts.flatten := by
  rw [filled, h, Nat.sub_self, List.replicate_zero, List.append_nil]

theorem take_filled {blank : α} {n pos : ℕ} {parts : List (List α)}
    (h : parts.flatten.length = pos) : (filled blank n parts).take pos = parts.flatten := by
  rw [filled, ← h, List.take_left]

end Layout
