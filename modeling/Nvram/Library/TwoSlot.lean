import Mathlib.Data.List.Basic
import Mathlib.Order.Basic

/-!
# Two slots written in turn

A value is kept in two slots, each empty or holding a value under a counter; the value in
force is one with the largest counter.  A commit writes the slot that is not in force, with
the next counter.  Where the counter cannot grow it starts again from a smaller one, and the
other slot is then overwritten as well.  A write that does not complete leaves its slot as it
was or empty.

The invariant `Safe` says that whatever is in force is the last acknowledged value or one
attempted after it; `Commit.safe` keeps it at every point where a commit can stop.
-/

namespace TwoSlot

variable {α : Type}

/-- A value under a counter, or nothing that can be read. -/
abbrev Slot (α : Type) := Option (ℕ × α)

/-- `a` does not have a larger counter than `b`. -/
def NotAfter (a b : Slot α) : Prop := ∀ c x c' y, a = some (c, x) → b = some (c', y) → c ≤ c'

/-- What is in force: a value with the largest counter, nothing if both slots are empty. -/
def InForce (a b : Slot α) : Option α → Prop
  | none => a = none ∧ b = none
  | some x => (∃ c, a = some (c, x) ∧ NotAfter b a) ∨ ∃ c, b = some (c, x) ∧ NotAfter a b

theorem InForce.symm {a b : Slot α} {z : Option α} (h : InForce a b z) : InForce b a z := by
  cases z with
  | none => exact ⟨h.2, h.1⟩
  | some x => exact Or.symm h

theorem notAfter_none_left (b : Slot α) : NotAfter none b := by
  intro c x c' y h
  cases h

theorem inForce_of_none {b : Slot α} {z : Option α} (h : InForce none b z) :
    z = b.map Prod.snd := by
  cases z with
  | none => rw [h.2, Option.map_none]
  | some x =>
      rcases h with ⟨c, hc, _⟩ | ⟨c, hc, _⟩
      · cases hc
      · rw [hc, Option.map_some]

/-- A strictly larger counter decides. -/
theorem inForce_of_lt {c c' : ℕ} {x y : α} {z : Option α} (hlt : c < c')
    (h : InForce (some (c, x)) (some (c', y)) z) : z = some y := by
  cases z with
  | none => cases h.1
  | some w =>
      rcases h with ⟨d, hd, hle⟩ | ⟨d, hd, _⟩
      · have h' := hle c' y c x rfl (by cases hd; rfl)
        omega
      · cases hd
        rfl

theorem inForce_same {c c' : ℕ} {x : α} {z : Option α}
    (h : InForce (some (c, x)) (some (c', x)) z) : z = some x := by
  cases z with
  | none => cases h.1
  | some w =>
      rcases h with ⟨d, hd, _⟩ | ⟨d, hd, _⟩
      · cases hd
        rfl
      · cases hd
        rfl

/-- Two slots with one counter hold one value. -/
def Agree (a b : Slot α) : Prop := ∀ c x y, a = some (c, x) → b = some (c, y) → x = y

theorem agree_none_left (b : Slot α) : Agree none b := by
  intro c x y h
  cases h

theorem Agree.symm {a b : Slot α} (h : Agree a b) : Agree b a :=
  fun c x y hb ha => (h c y x ha hb).symm

/-- What is in force of slots that agree is unique. -/
theorem InForce.unique {a b : Slot α} (hagree : Agree a b) {z z' : Option α} (h : InForce a b z)
    (h' : InForce a b z') : z = z' := by
  have hne : ∀ {w : Option α} {x : α}, InForce a b none → InForce a b (some x) → w = some x := by
    intro w x hnone hsome
    rcases hsome with ⟨c, hc, _⟩ | ⟨c, hc, _⟩
    · rw [hnone.1] at hc
      cases hc
    · rw [hnone.2] at hc
      cases hc
  cases z with
  | none =>
      cases z' with
      | none => rfl
      | some y => exact hne h h'
  | some x =>
      cases z' with
      | none => exact (hne h' h).symm
      | some y =>
          rcases h with ⟨c, hc, hle⟩ | ⟨c, hc, hle⟩
          · rcases h' with ⟨d, hd, _⟩ | ⟨d, hd, hle'⟩
            · rw [hc] at hd
              cases hd
              rfl
            · have h₁ := hle d y c x hd hc
              have h₂ := hle' c x d y hc hd
              obtain rfl : c = d := by omega
              rw [hagree c x y hc hd]
          · rcases h' with ⟨d, hd, hle'⟩ | ⟨d, hd, _⟩
            · have h₁ := hle d y c x hd hc
              have h₂ := hle' c x d y hc hd
              obtain rfl : c = d := by omega
              rw [hagree c y x hd hc]
            · rw [hc] at hd
              cases hd
              rfl

/-! ### History and invariant -/

/-- The last acknowledged value and the values attempted after it. -/
structure History (α : Type) where
  acked : Option α
  attempted : List α

namespace History

def empty : History α := ⟨none, []⟩

def attempt (h : History α) (x : α) : History α := { h with attempted := x :: h.attempted }

def ack (x : α) : History α := ⟨some x, []⟩

/-- Nothing may be in force only before the first acknowledgement. -/
def Allows (h : History α) : Option α → Prop
  | none => h.acked = none
  | some x => h.acked = some x ∨ x ∈ h.attempted

theorem Allows.attempt {h : History α} {z : Option α} (hz : h.Allows z) (x : α) :
    (h.attempt x).Allows z := by
  cases z with
  | none => exact hz
  | some w => exact hz.imp_right fun hmem => List.mem_cons_of_mem x hmem

theorem allows_attempted (h : History α) (x : α) : (h.attempt x).Allows (some x) :=
  Or.inr List.mem_cons_self

end History

def Bounded (max : ℕ) (a : Slot α) : Prop := ∀ c x, a = some (c, x) → c ≤ max

theorem bounded_none (max : ℕ) : Bounded max (none : Slot α) := by
  intro c x h
  cases h

structure Safe (max : ℕ) (h : History α) (a b : Slot α) : Prop where
  allowed : ∀ z, InForce a b z → h.Allows z
  boundedLeft : Bounded max a
  boundedRight : Bounded max b

theorem Safe.symm {max : ℕ} {h : History α} {a b : Slot α} (hs : Safe max h a b) :
    Safe max h b a :=
  ⟨fun z hz => hs.allowed z hz.symm, hs.boundedRight, hs.boundedLeft⟩

theorem safe_empty (max : ℕ) : Safe max (History.empty : History α) none none := by
  refine ⟨fun z hz => ?_, bounded_none max, bounded_none max⟩
  have hnone : z = none := inForce_of_none hz
  subst hnone
  rfl

/-! ### One commit -/

/-- The counter `next` for a write to `target` while `other` is in force. -/
structure Turn (max : ℕ) (target other : Slot α) (next : ℕ) (reset : Bool) : Prop where
  inForce : NotAfter target other
  alone : other = none → target = none
  bound : next ≤ max
  grows : ∀ c x, other = some (c, x) → c < max → reset = false ∧ next = c + 1
  wraps : ∀ c x, other = some (c, x) → ¬ c < max → reset = true ∧ next < max

/-- What an incomplete write leaves. -/
def Spoiled (old new : Slot α) : Prop := new = old ∨ new = none

/-- The states in which a commit of `x` under counter `next` can end or be stopped; the flag
says whether it was acknowledged. -/
inductive Commit (x : α) (next : ℕ) (reset : Bool) (target other : Slot α) :
    Slot α → Slot α → Bool → Prop where
  | first {target' : Slot α} : Spoiled target target' →
      Commit x next reset target other target' other false
  | between : Commit x next reset target other (some (next, x)) other false
  | single : reset = false → Commit x next reset target other (some (next, x)) other true
  | second {other' : Slot α} : reset = true → Spoiled other other' →
      Commit x next reset target other (some (next, x)) other' false
  | both (acked : Bool) : reset = true →
      Commit x next reset target other (some (next, x)) (some (next, x)) acked

/-- The history after a commit. -/
def History.after (h : History α) (x : α) (acked : Bool) : History α :=
  if acked then History.ack x else h.attempt x

section

variable {max next : ℕ} {h : History α} {target other target' other' : Slot α} {x : α}
  {reset acked : Bool}

/-- While the slot in force is untouched, it stays in force over an empty one. -/
theorem inForce_other (hturn : Turn max target other next reset) {z : Option α}
    (hz : InForce none other z) : InForce target other z := by
  have hval := inForce_of_none hz
  cases other with
  | none =>
      rw [hturn.alone rfl]
      exact hz
  | some p =>
      rw [hval]
      exact Or.inr ⟨p.1, rfl, hturn.inForce⟩

/-- Over a complete first write either the old value or the new one is in force, and the new
one unless the counter was reset. -/
theorem inForce_written (hturn : Turn max target other next reset)
    (hb : Bounded max other) {z : Option α} (hz : InForce (some (next, x)) other z) :
    z = some x ∨ reset = true ∧ InForce target other z := by
  cases other with
  | none => exact Or.inl (by simpa using inForce_of_none hz.symm)
  | some p =>
      obtain ⟨c, y⟩ := p
      by_cases hlt : c < max
      · obtain ⟨_, hnext⟩ := hturn.grows c y rfl hlt
        exact Or.inl (inForce_of_lt (by omega) hz.symm)
      · obtain ⟨hreset, hnext⟩ := hturn.wraps c y rfl hlt
        have hle : c ≤ max := hb c y rfl
        have hval : z = some y := inForce_of_lt (by omega) hz
        rw [hval]
        exact Or.inr ⟨hreset, Or.inr ⟨c, rfl, hturn.inForce⟩⟩

/-- Wherever a commit ends or stops, what is in force is allowed. -/
theorem Commit.safe (hc : Commit x next reset target other target' other' acked)
    (hturn : Turn max target other next reset) (hs : Safe max h target other) :
    Safe max (h.after x acked) target' other' := by
  have hnew : Bounded max (some (next, x)) := fun c y hcy => by
    cases hcy
    exact hturn.bound
  have hwritten : ∀ z, InForce (some (next, x)) other z → (h.attempt x).Allows z := by
    intro z hz
    rcases inForce_written hturn hs.boundedRight hz with rfl | ⟨_, hold⟩
    · exact h.allows_attempted x
    · exact (hs.allowed z hold).attempt x
  cases hc with
  | first hspoiled =>
      rcases hspoiled with rfl | rfl
      · exact ⟨fun z hz => (hs.allowed z hz).attempt x, hs.boundedLeft, hs.boundedRight⟩
      · refine ⟨fun z hz => ?_, bounded_none max, hs.boundedRight⟩
        exact (hs.allowed z (inForce_other hturn hz)).attempt x
  | between => exact ⟨hwritten, hnew, hs.boundedRight⟩
  | single hreset =>
      refine ⟨fun z hz => ?_, hnew, hs.boundedRight⟩
      rcases inForce_written hturn hs.boundedRight hz with rfl | ⟨htrue, _⟩
      · exact Or.inl rfl
      · rw [hreset] at htrue
        cases htrue
  | second hreset hspoiled =>
      rcases hspoiled with rfl | rfl
      · exact ⟨hwritten, hnew, hs.boundedRight⟩
      · refine ⟨fun z hz => ?_, hnew, bounded_none max⟩
        have hval : z = some x := by simpa using inForce_of_none hz.symm
        rw [hval]
        exact h.allows_attempted x
  | both acked hreset =>
      refine ⟨fun z hz => ?_, hnew, hnew⟩
      rw [inForce_same hz]
      cases acked with
      | true => exact Or.inl rfl
      | false => exact h.allows_attempted x

/-- Wherever a commit ends or stops, the new value is in force or what was in force before, and
an acknowledged value is in force for good. -/
theorem Commit.inForce (hc : Commit x next reset target other target' other' acked)
    (hturn : Turn max target other next reset) (hb : Bounded max other) {z : Option α}
    (hz : InForce target' other' z) : z = some x ∨ acked = false ∧ InForce target other z := by
  have hwritten : InForce (some (next, x)) other z → z = some x ∨ InForce target other z :=
    fun h => (inForce_written hturn hb h).imp_right And.right
  cases hc with
  | first hspoiled =>
      rcases hspoiled with rfl | rfl
      · exact Or.inr ⟨rfl, hz⟩
      · exact Or.inr ⟨rfl, inForce_other hturn hz⟩
  | between => exact (hwritten hz).imp_right fun h => ⟨rfl, h⟩
  | single hreset =>
      refine (inForce_written hturn hb hz).imp_right fun h => ?_
      rw [hreset] at h
      cases h.1
  | second _ hspoiled =>
      rcases hspoiled with rfl | rfl
      · exact (hwritten hz).imp_right fun h => ⟨rfl, h⟩
      · exact Or.inl (by simpa using inForce_of_none hz.symm)
  | both acked _ => exact Or.inl (inForce_same hz)

/-- The counter of a new value is not the one of the slot that is left. -/
theorem Turn.agree (hturn : Turn max target other next reset) :
    Agree (some (next, x)) other := by
  intro c y z hy hother
  obtain ⟨rfl, rfl⟩ := Prod.mk.inj (Option.some.inj hy)
  by_cases hlt : next < max
  · obtain ⟨-, hnext⟩ := hturn.grows next z hother hlt
    omega
  · obtain ⟨-, hnext⟩ := hturn.wraps next z hother hlt
    exact absurd hnext hlt

/-- A commit keeps what is in force unique. -/
theorem Commit.agree (hc : Commit x next reset target other target' other' acked)
    (hturn : Turn max target other next reset) (hagree : Agree target other) :
    Agree target' other' := by
  cases hc with
  | first hspoiled =>
      rcases hspoiled with rfl | rfl
      · exact hagree
      · exact agree_none_left other
  | between => exact hturn.agree
  | single _ => exact hturn.agree
  | second _ hspoiled =>
      rcases hspoiled with rfl | rfl
      · exact hturn.agree
      · exact (agree_none_left _).symm
  | both acked _ =>
      intro c y z hy hz
      rw [hy] at hz
      exact (Prod.mk.inj (Option.some.inj hz)).2

end

end TwoSlot
