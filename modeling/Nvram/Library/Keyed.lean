import Mathlib.Data.List.Basic
import Mathlib.Data.List.Nodup

/-!
# Lists as finite maps in insertion order

A list whose elements carry a key.  `put` replaces the element with the same key where it
stands and appends a new one, `erase` drops the element with a key.  On a list without
duplicate keys these are the operations of a finite map, and a batch of edits leaves every
key as the last edit of that key says.
-/

namespace Keyed

variable {α κ : Type} [DecidableEq κ] (key : α → κ)

def get (l : List α) (k : κ) : Option α := l.find? fun a => key a = k

def put (a : α) : List α → List α
  | [] => [a]
  | b :: l => if key b = key a then a :: l else b :: put a l

def erase (l : List α) (k : κ) : List α := l.eraseP fun a => key a = k

/-- No two elements share a key. -/
def Distinct (l : List α) : Prop := (l.map key).Nodup

variable {key} {l : List α} {a b : α} {k : κ}

/-! ### Lookup -/

@[simp] theorem get_nil (k : κ) : get key [] k = none := rfl

theorem get_cons (b : α) (l : List α) (k : κ) :
    get key (b :: l) k = if key b = k then some b else get key l k := by
  by_cases h : key b = k
  · simp [get, h]
  · simp [get, h]

theorem get_eq_none_iff : get key l k = none ↔ k ∉ l.map key := by
  simp [get, List.find?_eq_none, List.mem_map]

theorem key_of_get (h : get key l k = some a) : key a = k := by
  simpa using List.find?_some h

theorem mem_of_get (h : get key l k = some a) : a ∈ l := List.mem_of_find?_eq_some h

/-- Without duplicate keys lookup finds every element. -/
theorem get_of_mem (hl : Distinct key l) (h : a ∈ l) : get key l (key a) = some a := by
  induction l with
  | nil => cases h
  | cons b l ih =>
      obtain ⟨hnot, hrest⟩ := List.nodup_cons.mp hl
      rw [get_cons]
      rcases List.mem_cons.mp h with rfl | hmem
      · rw [if_pos rfl]
      · have hne : key b ≠ key a := fun heq => hnot (heq ▸ List.mem_map_of_mem hmem)
        rw [if_neg hne]
        exact ih hrest hmem

/-! ### Replace or append -/

theorem get_put_self (a : α) (l : List α) : get key (put key a l) (key a) = some a := by
  induction l with
  | nil => simp [put, get_cons]
  | cons b l ih =>
      by_cases h : key b = key a
      · simp [put, h, get_cons]
      · simp [put, h, get_cons, ih]

theorem get_put_of_ne (h : key a ≠ k) (l : List α) : get key (put key a l) k = get key l k := by
  induction l with
  | nil => simp [put, get_cons, h]
  | cons b l ih =>
      by_cases hb : key b = key a
      · simp [put, hb, get_cons, h]
      · simp [put, hb, get_cons, ih]

/-- The keys stay where they are; a new one comes last. -/
theorem map_key_put (a : α) (l : List α) :
    (put key a l).map key = if key a ∈ l.map key then l.map key else l.map key ++ [key a] := by
  induction l with
  | nil => simp [put]
  | cons b l ih =>
      by_cases hb : key b = key a
      · simp [put, hb]
      · have hne : key a ≠ key b := fun h => hb h.symm
        simp only [put, hb, if_false, List.map_cons, ih, List.mem_cons, hne, false_or]
        split
        · rfl
        · rfl

theorem Distinct.put (hl : Distinct key l) (a : α) : Distinct key (put key a l) := by
  unfold Distinct at hl ⊢
  rw [map_key_put]
  split
  · exact hl
  · next hnot => exact List.nodup_append.mpr ⟨hl, List.nodup_singleton _, by
      intro x hx y hy
      rw [List.mem_singleton] at hy
      subst hy
      exact fun h => hnot (h ▸ hx)⟩

variable (key) in
/-- `step` does to a list without duplicate keys what `put` does, in whatever order it leaves
the elements. -/
def Sets (step : List α → α → List α) : Prop :=
  ∀ l a, Distinct key l → Distinct key (step l a) ∧
    ∀ k, get key (step l a) k = if key a = k then some a else get key l k

theorem sets_put : Sets key fun l a => put key a l := by
  intro l a hl
  refine ⟨hl.put a, fun k => ?_⟩
  by_cases h : key a = k
  · rw [if_pos h, ← h, get_put_self]
  · rw [if_neg h, get_put_of_ne h]

/-- After a series of sets a key has the last element that was set under it. -/
theorem Sets.foldl {step : List α → α → List α} (hstep : Sets key step) (as : List α)
    (hl : Distinct key l) :
    Distinct key (as.foldl step l) ∧ ∀ k, get key (as.foldl step l) k =
      (as.filter fun a => key a = k).getLast?.or (get key l k) := by
  induction as generalizing l with
  | nil => exact ⟨hl, fun _ => rfl⟩
  | cons a as ih =>
      obtain ⟨hdistinct, hget⟩ := hstep l a hl
      obtain ⟨hrest, hlast⟩ := ih hdistinct
      refine ⟨hrest, fun k => ?_⟩
      rw [List.foldl_cons, hlast k, hget k]
      by_cases h : key a = k
      · rw [if_pos h, List.filter_cons_of_pos (by simpa using h), List.getLast?_cons]
        cases (as.filter fun b => key b = k).getLast? <;> rfl
      · rw [if_neg h, List.filter_cons_of_neg (by simp [h])]

omit [DecidableEq κ] in
theorem distinct_nil : Distinct key ([] : List α) := List.nodup_nil

/-- Starting from nothing, what is in the list was set. -/
theorem Sets.mem_of_mem_foldl {step : List α → α → List α} (hstep : Sets key step) {as : List α}
    (h : b ∈ as.foldl step []) : b ∈ as := by
  obtain ⟨hdistinct, hget⟩ := hstep.foldl as distinct_nil
  have hb := get_of_mem hdistinct h
  rw [hget, get_nil, Option.or_none] at hb
  exact List.mem_of_mem_filter (List.mem_of_getLast? hb)

/-- Without duplicate keys the last element with a key is the only one. -/
theorem getLast?_filter (hl : Distinct key l) (k : κ) :
    (l.filter fun a => key a = k).getLast? = get key l k := by
  induction l with
  | nil => rfl
  | cons b l ih =>
      obtain ⟨hnot, hrest⟩ := List.nodup_cons.mp hl
      rw [get_cons]
      by_cases hb : key b = k
      · subst hb
        have hnone : l.filter (fun a => key a = key b) = [] := by
          refine List.filter_eq_nil_iff.mpr fun a ha heq => hnot ?_
          have hkey : key a = key b := by simpa using heq
          exact hkey ▸ List.mem_map_of_mem ha
        rw [if_pos rfl, List.filter_cons_of_pos (by simp), hnone]
        rfl
      · rw [if_neg hb, List.filter_cons_of_neg (by simp [hb]), ih hrest]

/-- Setting the elements of a list without duplicate keys, starting from nothing. -/
theorem Sets.get_foldl_of_distinct {step : List α → α → List α} (hstep : Sets key step)
    (hl : Distinct key l) (k : κ) : get key (l.foldl step []) k = get key l k := by
  rw [(hstep.foldl l distinct_nil).2, get_nil, Option.or_none, getLast?_filter hl]

theorem put_of_not_mem (h : key a ∉ l.map key) : put key a l = l ++ [a] := by
  induction l with
  | nil => rfl
  | cons b l ih =>
      have hb : key b ≠ key a := fun heq => h (heq ▸ List.mem_map_of_mem List.mem_cons_self)
      have hl : key a ∉ l.map key := fun hmem => h (List.mem_cons_of_mem _ hmem)
      rw [put, if_neg hb, ih hl, List.cons_append]

/-- An element with a key that is there takes the place of the one with that key. -/
theorem put_of_mem (hl : Distinct key l) (h : key a ∈ l.map key) :
    put key a l = l.map fun b => if key b = key a then a else b := by
  induction l with
  | nil => cases h
  | cons b l ih =>
      obtain ⟨hnot, hrest⟩ := List.nodup_cons.mp hl
      rw [put, List.map_cons]
      by_cases hb : key b = key a
      · have hsame : l.map (fun c => if key c = key a then a else c) = l := by
          refine (List.map_congr_left fun c hc => if_neg fun heq => ?_).trans (List.map_id' l)
          exact hnot (List.mem_map.mpr ⟨c, hc, heq.trans hb.symm⟩)
        rw [if_pos hb, if_pos hb, hsame]
      · have hmem : key a ∈ l.map key := by
          rcases List.mem_cons.mp h with heq | hmem
          · exact absurd heq.symm hb
          · exact hmem
        rw [if_neg hb, if_neg hb, ih hrest hmem]

/-- Putting elements with new keys, one after the other, appends them. -/
theorem foldl_put_append {as : List α} (h : Distinct key (l ++ as)) :
    as.foldl (fun l a => put key a l) l = l ++ as := by
  induction as generalizing l with
  | nil => exact (List.append_nil l).symm
  | cons a as ih =>
      have hsplit : l ++ a :: as = (l ++ [a]) ++ as := by
        rw [List.append_assoc, List.singleton_append]
      have hnew : key a ∉ l.map key := by
        intro hmem
        have hnodup := List.nodup_append.mp
          (List.map_append ▸ h : (l.map key ++ (a :: as).map key).Nodup)
        exact hnodup.2.2 _ hmem _ (by simp) rfl
      rw [List.foldl_cons, put_of_not_mem hnew, ih (hsplit ▸ h), ← hsplit]

/-! ### Erasing -/

theorem get_erase_of_ne {k' : κ} (h : k ≠ k') (l : List α) :
    get key (erase key l k) k' = get key l k' := by
  induction l with
  | nil => rfl
  | cons b l ih =>
      by_cases hb : key b = k
      · simp [erase, hb, get_cons, h]
      · have herase : erase key (b :: l) k = b :: erase key l k := by simp [erase, hb]
        rw [herase, get_cons, get_cons, ih]

theorem get_erase_self (hl : Distinct key l) (k : κ) : get key (erase key l k) k = none := by
  induction l with
  | nil => rfl
  | cons b l ih =>
      obtain ⟨hnot, hrest⟩ := List.nodup_cons.mp hl
      by_cases hb : key b = k
      · have herase : erase key (b :: l) k = l := by simp [erase, hb]
        rw [herase, get_eq_none_iff]
        exact hb ▸ hnot
      · have herase : erase key (b :: l) k = b :: erase key l k := by simp [erase, hb]
        rw [herase, get_cons, if_neg hb]
        exact ih hrest

theorem Distinct.erase (hl : Distinct key l) (k : κ) : Distinct key (erase key l k) :=
  (List.Sublist.map key List.eraseP_sublist).nodup hl

/-! ### Batches of edits -/

variable (key)

inductive Edit (α κ : Type) where
  | put (a : α)
  | erase (k : κ)

namespace Edit

def key? : Edit α κ → κ
  | put a => key a
  | erase k => k

/-- What the edit says about its key. -/
def value : Edit α κ → Option α
  | put a => some a
  | erase _ => none

def apply (l : List α) : Edit α κ → List α
  | put a => Keyed.put key a l
  | erase k => Keyed.erase key l k

end Edit

/-- What the last edit of `k` says, `otherwise` when there is none. -/
def lastOf (otherwise : Option α) (edits : List (Edit α κ)) (k : κ) : Option α :=
  edits.foldl (fun o e => if e.key? key = k then e.value else o) otherwise

theorem lastOf_cons (o : Option α) (e : Edit α κ) (edits : List (Edit α κ)) (k : κ) :
    lastOf key o (e :: edits) k = lastOf key (if e.key? key = k then e.value else o) edits k := rfl

/-- The edits decide a key, whatever was there before, or leave it as it was. -/
theorem lastOf_cases (edits : List (Edit α κ)) (k : κ) :
    (∃ v, ∀ o, lastOf key o edits k = v) ∨ ∀ o, lastOf key o edits k = o := by
  induction edits with
  | nil => exact Or.inr fun _ => rfl
  | cons e edits ih =>
      rcases ih with ⟨v, hv⟩ | hkept
      · refine Or.inl ⟨v, fun o => ?_⟩
        rw [lastOf_cons, hv]
      · by_cases hk : e.key? key = k
        · refine Or.inl ⟨e.value, fun o => ?_⟩
          rw [lastOf_cons, hkept, if_pos hk]
        · refine Or.inr fun o => ?_
          rw [lastOf_cons, hkept, if_neg hk]

/-- Saying it twice says no more. -/
theorem lastOf_lastOf (o : Option α) (edits : List (Edit α κ)) (k : κ) :
    lastOf key (lastOf key o edits k) edits k = lastOf key o edits k := by
  rcases lastOf_cases key edits k with ⟨v, hv⟩ | hkept
  · rw [hv, hv]
  · rw [hkept]

theorem lastOf_of_not_mem {edits : List (Edit α κ)} {k : κ}
    (h : k ∉ edits.map (Edit.key? key)) (o : Option α) : lastOf key o edits k = o := by
  induction edits generalizing o with
  | nil => rfl
  | cons e edits ih =>
      rw [List.map_cons, List.mem_cons, not_or] at h
      have hne : e.key? key ≠ k := fun heq => h.1 heq.symm
      rw [lastOf_cons, if_neg hne]
      exact ih h.2 o

/-- Where no key occurs twice, every edit is the last one of its key. -/
theorem lastOf_of_mem {edits : List (Edit α κ)} (hdistinct : (edits.map (Edit.key? key)).Nodup)
    {e : Edit α κ} (he : e ∈ edits) (o : Option α) :
    lastOf key o edits (e.key? key) = e.value := by
  induction edits generalizing o with
  | nil => cases he
  | cons e' edits ih =>
      obtain ⟨hnot, hrest⟩ := List.nodup_cons.mp hdistinct
      rcases List.mem_cons.mp he with rfl | hmem
      · rw [lastOf_cons, if_pos rfl]
        exact lastOf_of_not_mem key hnot e.value
      · exact ih hrest hmem _

/-- What the last edit says is what was there before, or what an edit says. -/
theorem eq_or_of_lastOf {o : Option α} {edits : List (Edit α κ)} {k : κ} {a : α}
    (h : lastOf key o edits k = some a) : o = some a ∨ lastOf key none edits k = some a := by
  induction edits generalizing o with
  | nil => exact Or.inl h
  | cons e edits ih =>
      rw [lastOf_cons] at h ⊢
      by_cases hk : e.key? key = k
      · rw [if_pos hk] at h ⊢
        exact Or.inr h
      · rw [if_neg hk] at h ⊢
        exact ih h

/-- An element that the edits alone leave was put. -/
theorem mem_of_lastOf {edits : List (Edit α κ)} {k : κ} {a : α}
    (h : lastOf key none edits k = some a) : .put a ∈ edits ∧ key a = k := by
  induction edits with
  | nil => cases h
  | cons e edits ih =>
      rw [lastOf_cons] at h
      rcases eq_or_of_lastOf key h with hfirst | hlast
      · split at hfirst
        · rename_i hk
          cases e with
          | put b =>
              obtain rfl := Option.some.inj hfirst
              exact ⟨List.mem_cons_self, hk⟩
          | erase k' => cases hfirst
        · cases hfirst
      · obtain ⟨hmem, hkey⟩ := ih hlast
        exact ⟨List.mem_cons_of_mem _ hmem, hkey⟩

/-- `step` does to a list without duplicate keys what the edit says, in whatever order it
leaves the elements. -/
def Follows (step : List α → Edit α κ → List α) : Prop :=
  ∀ l e, Distinct key l → Distinct key (step l e) ∧
    ∀ k, get key (step l e) k = if e.key? key = k then e.value else get key l k

variable {key}

theorem follows_apply : Follows key (Edit.apply (κ := κ) key) := by
  intro l e hl
  refine ⟨?_, fun k => ?_⟩
  · cases e with
    | put a => exact hl.put a
    | erase k => exact hl.erase k
  · by_cases h : e.key? key = k
    · rw [if_pos h]
      cases e with
      | put a => exact h ▸ get_put_self a l
      | erase k' => exact h ▸ get_erase_self hl k'
    · rw [if_neg h]
      cases e with
      | put a =>
          have hne : key a ≠ k := h
          exact get_put_of_ne hne l
      | erase k' =>
          have hne : k' ≠ k := h
          exact get_erase_of_ne hne l

/-- After a batch every key is mapped as the last edit of that key says, and a key without
an edit as before. -/
theorem Follows.foldl {step : List α → Edit α κ → List α} (hstep : Follows key step)
    (hl : Distinct key l) (edits : List (Edit α κ)) :
    Distinct key (edits.foldl step l) ∧
      ∀ k, get key (edits.foldl step l) k = lastOf key (get key l k) edits k := by
  induction edits generalizing l with
  | nil => exact ⟨hl, fun _ => rfl⟩
  | cons e edits ih =>
      obtain ⟨hdistinct, hget⟩ := hstep l e hl
      obtain ⟨hrest, hlast⟩ := ih hdistinct
      refine ⟨hrest, fun k => ?_⟩
      rw [List.foldl_cons, hlast k, hget k]
      rfl

end Keyed
