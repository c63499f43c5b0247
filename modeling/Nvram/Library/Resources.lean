import Nvram.Library.Interp
import Mathlib.Algebra.Order.Group.Multiset

/-!
# Programs that hold resources

A `Protocol` says which resource an operation works on, which one it gives back, and which one
its response hands out.  Its monitor is the multiset of the resources that are held: only what is
held is worked on or given back.

* `Owns P owned Q p` is a triple: beside whatever else is held, `p` starts with `owned` and ends
  with what satisfies `Q`.  What else is held stays as it is.
* `owns_op` is the rule for one operation, `owns_seq` the one for sequences, `Owns.frame` puts
  more beside.
* `Protocol.sum` is the protocol of two signatures side by side.
-/

namespace Effects

variable {S T : Sig} {H α β : Type}

/-- What operations do with resources. -/
structure Protocol (S : Sig) (H : Type) where
  uses : S.Op → Option H
  frees : S.Op → Option H
  takes : (o : S.Op) → S.Res o → Option H

namespace Protocol

variable [DecidableEq H] (P : Protocol S H)

/-- The operation works on `h` or gives it back. -/
def Touches (o : S.Op) (h : H) : Prop := P.uses o = some h ∨ P.frees o = some h

/-- What is held after an operation. -/
def after (held : Multiset H) (o : S.Op) (r : S.Res o) : Multiset H :=
  let kept := match P.frees o with
    | some h => held.erase h
    | none => held
  match P.takes o r with
  | some h => h ::ₘ kept
  | none => kept

/-- Only what is held is touched. -/
def monitor : Monitor S (Multiset H) where
  allows held o := ∀ h, P.Touches o h → h ∈ held
  next := P.after

/-- The operation has nothing to do with resources. -/
def Quiet (o : S.Op) : Prop := P.uses o = none ∧ P.frees o = none ∧ ∀ r, P.takes o r = none

variable {P} {o : S.Op} {held more : Multiset H}

theorem after_of_quiet (ho : P.Quiet o) (held : Multiset H) (r : S.Res o) :
    P.after held o r = held := by
  simp only [after, ho.2.1, ho.2.2 r]

theorem Quiet.allows (ho : P.Quiet o) (held : Multiset H) : P.monitor.allows held o := by
  intro h hh
  rcases hh with hh | hh
  · rw [ho.1] at hh
    cases hh
  · rw [ho.2.1] at hh
    cases hh

/-- An operation that is allowed leaves alone what is held beside. -/
theorem after_add (ho : P.monitor.allows held o) (more : Multiset H) (r : S.Res o) :
    P.after (held + more) o r = P.after held o r + more := by
  have hkept : ∀ h, P.frees o = some h → (held + more).erase h = held.erase h + more :=
    fun h hh => Multiset.erase_add_left_pos more (ho h (Or.inr hh))
  unfold after
  cases hfrees : P.frees o with
  | none =>
      cases P.takes o r with
      | none => rfl
      | some h => exact (Multiset.cons_add h held more).symm
  | some h =>
      simp only [hkept h hfrees]
      cases P.takes o r with
      | none => rfl
      | some h' => exact (Multiset.cons_add h' _ more).symm

/-- Both protocols, on the same resources. -/
def sum (P : Protocol S H) (P' : Protocol T H) : Protocol (S.sum T) H where
  uses
    | .inl o => P.uses o
    | .inr o => P'.uses o
  frees
    | .inl o => P.frees o
    | .inr o => P'.frees o
  takes o r :=
    match o, r with
    | .inl o, r => P.takes o r
    | .inr o, r => P'.takes o r

end Protocol

/-- Beside whatever else is held, `p` starts with `owned` and ends with what satisfies `Q`. -/
def Owns [DecidableEq H] (P : Protocol S H) (owned : Multiset H) (Q : Multiset H → α → Prop)
    (p : Prog S α) : Prop :=
  ∀ more, Monitored P.monitor (fun held a => ∃ left, held = left + more ∧ Q left a) p
    (owned + more)

section

variable [DecidableEq H] {P : Protocol S H} {owned : Multiset H} {Q : Multiset H → α → Prop}

theorem owns_ret {a : α} (h : Q owned a) : Owns P owned Q (.ret a) := fun _ => ⟨owned, rfl, h⟩

theorem owns_op {o : S.Op} {k : S.Res o → Prog S α} (ho : ∀ h, P.Touches o h → h ∈ owned)
    (hk : ∀ r, Owns P (P.after owned o r) Q (k r)) : Owns P owned Q (.op o k) := by
  intro more
  refine ⟨fun h hh => Multiset.mem_add.mpr (Or.inl (ho h hh)), fun r => ?_⟩
  rw [show P.monitor.next (owned + more) o r = P.after owned o r + more from
    Protocol.after_add ho more r]
  exact hk r more

theorem owns_quiet {o : S.Op} {k : S.Res o → Prog S α} (ho : P.Quiet o)
    (hk : ∀ r, Owns P owned Q (k r)) : Owns P owned Q (.op o k) :=
  owns_op (ho.allows owned) fun r => by
    rw [Protocol.after_of_quiet ho]
    exact hk r

theorem Owns.mono {Q' : Multiset H → α → Prop} {p : Prog S α} (h : Owns P owned Q p)
    (hQ : ∀ left a, Q left a → Q' left a) : Owns P owned Q' p :=
  fun more => (h more).mono fun _ a ⟨left, hleft, ha⟩ => ⟨left, hleft, hQ left a ha⟩

/-- Sequencing rule: `R` holds between the two parts. -/
theorem owns_seq {R : Multiset H → α → Prop} {Q : Multiset H → β → Prop} {p : Prog S α}
    {f : α → Prog S β} (hp : Owns P owned R p) (hf : ∀ left a, R left a → Owns P left Q (f a)) :
    Owns P owned Q (p >>= f) := by
  intro more
  refine monitored_seq (hp more) fun held a ha => ?_
  obtain ⟨left, rfl, ha⟩ := ha
  exact hf left a ha more

/-- Frame rule. -/
theorem Owns.frame {p : Prog S α} (h : Owns P owned Q p) (more : Multiset H) :
    Owns P (owned + more) (fun left a => ∃ l, left = l + more ∧ Q l a) p := by
  intro rest
  rw [add_assoc]
  refine (h (more + rest)).mono fun held a ha => ?_
  obtain ⟨left, rfl, ha⟩ := ha
  exact ⟨left + more, (add_assoc left more rest).symm, left, rfl, ha⟩

/-- A program over the second of two signatures. -/
theorem Owns.right {L : Protocol S H} {P : Protocol T H} {p : Prog T α} (h : Owns P owned Q p) :
    Owns (L.sum P) owned Q (p.right S) := by
  intro more
  refine ((h more).interp (J := Eq) (fun held held' o ho heq => ?_) rfl).mono
    fun held a ⟨held', heq, ha⟩ => heq ▸ ha
  subst heq
  exact ⟨ho, fun r => rfl⟩

end

end Effects
