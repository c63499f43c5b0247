import Nvram.Library.Prog
import Mathlib.Logic.Function.Basic

/-!
# Interleaved programs over a shared outside

A family of programs, one for each process, takes turns at single operations on one shared
outside.

* A `Monitor` reads the operations of one program with their responses.  `Monitored` says
  that every operation the program can issue is one the monitor allows where it stands;
  `Monitored.runs` is what this says of one run.
* `Pool` holds what every process has left to do, the state of its monitor and the shared
  state.  `Pool.Reach` is reachability by steps of any process in any order, each step
  meeting a given condition on the state before it.
* `Pool.Reach.invariant` is the rule for invariants: it is enough to look at one operation
  that the monitor allows.
* `Leaves` is a part of a run, and `Pool.Reach.leaves` reads off the part that one process
  has run.
* `Pool.advance` executes a schedule with a deterministic outside.
-/

namespace Effects

variable {S : Sig} {α β I M σ : Type}

/-- An automaton over the operations of a program and their responses. -/
structure Monitor (S : Sig) (M : Type) where
  allows : M → S.Op → Prop
  next : M → (o : S.Op) → S.Res o → M

/-- However it is answered, `p` issues only what the monitor allows, from `m` on, and ends in
`Q`. -/
def Monitored (mon : Monitor S M) (Q : M → α → Prop) : Prog S α → M → Prop
  | .ret a, m => Q m a
  | .op o k, m => mon.allows m o ∧ ∀ r, Monitored mon Q (k r) (mon.next m o r)

section

variable {mon : Monitor S M} {m : M}

@[simp] theorem monitored_ret {Q : M → α → Prop} {a : α} :
    Monitored mon Q (.ret a) m ↔ Q m a := Iff.rfl

theorem monitored_op {Q : M → α → Prop} {o : S.Op} {k : S.Res o → Prog S α} :
    Monitored mon Q (.op o k) m ↔
      mon.allows m o ∧ ∀ r, Monitored mon Q (k r) (mon.next m o r) := Iff.rfl

theorem Monitored.mono {Q Q' : M → α → Prop} {p : Prog S α} (h : Monitored mon Q p m)
    (hQ : ∀ m a, Q m a → Q' m a) : Monitored mon Q' p m := by
  induction p generalizing m with
  | ret a => exact hQ m a h
  | op o k ih => exact ⟨h.1, fun r => ih r (h.2 r)⟩

theorem monitored_bind {Q : M → β → Prop} {p : Prog S α} {f : α → Prog S β} :
    Monitored mon Q (p >>= f) m ↔ Monitored mon (fun m a => Monitored mon Q (f a) m) p m := by
  induction p generalizing m with
  | ret a => rfl
  | op o k ih => simp only [Prog.op_bind, monitored_op, ih]

/-- Sequencing rule: `R` holds between the two parts. -/
theorem monitored_seq {R : M → α → Prop} {Q : M → β → Prop} {p : Prog S α} {f : α → Prog S β}
    (hp : Monitored mon R p m) (hf : ∀ m a, R m a → Monitored mon Q (f a) m) :
    Monitored mon Q (p >>= f) m :=
  monitored_bind.mpr (hp.mono hf)

/-- Operations that the monitor allows and does not notice. -/
theorem Confined.monitored {P : S.Op → Prop} {Q : α → Prop} {p : Prog S α}
    (h : Confined P Q p) (hP : ∀ o, P o → mon.allows m o ∧ ∀ r, mon.next m o r = m) :
    Monitored mon (fun m' a => m' = m ∧ Q a) p m := by
  induction p with
  | ret a => exact ⟨rfl, h⟩
  | op o k ih =>
      obtain ⟨hallows, hnext⟩ := hP o h.1
      refine ⟨hallows, fun r => ?_⟩
      rw [hnext r]
      exact ih r (h.2 r)

/-- Operations that the monitor allows and that keep `J`. -/
theorem Confined.keeps {P : S.Op → Prop} {Q : α → Prop} {J : M → Prop} {p : Prog S α}
    (h : Confined P Q p)
    (hP : ∀ m o, P o → J m → mon.allows m o ∧ ∀ r, J (mon.next m o r)) (hm : J m) :
    Monitored mon (fun m' a => J m' ∧ Q a) p m := by
  induction p generalizing m with
  | ret a => exact ⟨hm, h⟩
  | op o k ih =>
      obtain ⟨hallows, hnext⟩ := hP m o h.1 hm
      exact ⟨hallows, fun r => ih r (h.2 r) (hnext r)⟩

end

namespace Monitor

variable (mon : Monitor S M)

/-- The monitor allows every operation of a run where it stands then. -/
def Follows : M → List (Event S) → Prop
  | _, [] => True
  | m, e :: evs => mon.allows m e.op ∧ Follows (mon.next m e.op e.res) evs

/-- Where the monitor stands after a run. -/
def after : M → List (Event S) → M
  | m, [] => m
  | m, e :: evs => after (mon.next m e.op e.res) evs

instance decidableFollows [∀ m o, Decidable (mon.allows m o)] :
    ∀ m evs, Decidable (mon.Follows m evs)
  | _, [] => .isTrue trivial
  | m, e :: evs =>
    have : Decidable (mon.Follows (mon.next m e.op e.res) evs) := decidableFollows _ evs
    inferInstanceAs (Decidable (_ ∧ _))

end Monitor

theorem Monitored.runs {mon : Monitor S M} {Q : M → α → Prop} {p : Prog S α} {m : M}
    (hp : Monitored mon Q p m) {evs : List (Event S)} {a : α} (h : Runs p evs a) :
    mon.Follows m evs ∧ Q (mon.after m evs) a := by
  induction h generalizing m with
  | ret a => exact ⟨trivial, hp⟩
  | op _ ih =>
      obtain ⟨hfollows, hQ⟩ := ih (hp.2 _)
      exact ⟨⟨hp.1, hfollows⟩, hQ⟩

/-- Two monitors side by side. -/
def Monitor.prod {M' : Type} (mon : Monitor S M) (mon' : Monitor S M') : Monitor S (M × M') where
  allows m o := mon.allows m.1 o ∧ mon'.allows m.2 o
  next m o r := (mon.next m.1 o r, mon'.next m.2 o r)

theorem Monitored.prod {M' : Type} {mon : Monitor S M} {mon' : Monitor S M'} {Q : M → α → Prop}
    {Q' : M' → α → Prop} {p : Prog S α} {m : M} {m' : M'} (h : Monitored mon Q p m)
    (h' : Monitored mon' Q' p m') :
    Monitored (mon.prod mon') (fun m a => Q m.1 a ∧ Q' m.2 a) p (m, m') := by
  induction p generalizing m m' with
  | ret a => exact ⟨h, h'⟩
  | op o k ih => exact ⟨⟨h.1, h'.1⟩, fun r => ih r (h.2 r) (h'.2 r)⟩

/-- A monitor that allows nothing but operations in `P`. -/
def Monitor.only (mon : Monitor S M) (P : S.Op → Prop) : Monitor S M where
  allows m o := mon.allows m o ∧ P o
  next := mon.next

theorem Monitored.only {mon : Monitor S M} {Q : M → α → Prop} {P : S.Op → Prop} {R : α → Prop}
    {p : Prog S α} {m : M} (h : Monitored mon Q p m) (hP : Confined P R p) :
    Monitored (mon.only P) Q p m := by
  induction p generalizing m with
  | ret a => exact h
  | op o k ih => exact ⟨⟨h.1, hP.1⟩, fun r => ih r (h.2 r) (hP.2 r)⟩

/-- Answered as `evs` records, `p` issues the operations of `evs` and has `q` left to do. -/
inductive Leaves : Prog S α → List (Event S) → Prog S α → Prop where
  | refl (p : Prog S α) : Leaves p [] p
  | op {o : S.Op} {k : S.Res o → Prog S α} {r : S.Res o} {evs : List (Event S)}
      {q : Prog S α} : Leaves (k r) evs q → Leaves (.op o k) (⟨o, r⟩ :: evs) q

theorem Leaves.trans {p q q' : Prog S α} {evs evs' : List (Event S)} (h : Leaves p evs q)
    (h' : Leaves q evs' q') : Leaves p (evs ++ evs') q' := by
  induction h with
  | refl p => exact h'
  | op _ ih => exact .op (ih h')

/-- A run is what leaves nothing to do. -/
theorem leaves_ret_iff {p : Prog S α} {evs : List (Event S)} {a : α} :
    Leaves p evs (.ret a) ↔ Runs p evs a := by
  constructor
  · intro h
    generalize hq : Prog.ret a = q at h
    induction h with
    | refl p =>
        subst hq
        exact .ret a
    | op _ ih => exact .op (ih hq)
  · intro h
    induction h with
    | ret a => exact .refl _
    | op _ ih => exact .op ih

/-- A shared outside: what can happen when a process issues an operation. -/
structure Shared (S : Sig) (I σ : Type) where
  step : I → σ → (o : S.Op) → S.Res o → σ → Prop

/-- What every process has left to do, where its monitor stands, and the shared state. -/
structure Pool (S : Sig) (α I M σ : Type) where
  prog : I → Prog S α
  mon : I → M
  shared : σ

namespace Pool

variable [DecidableEq I]

/-- Process `i` has received the response `r` to `o` and goes on with `p`. -/
def resume (mon : Monitor S M) (c : Pool S α I M σ) (i : I) (o : S.Op) (r : S.Res o)
    (p : Prog S α) (t : σ) : Pool S α I M σ where
  prog := Function.update c.prog i p
  mon := Function.update c.mon i (mon.next (c.mon i) o r)
  shared := t

@[simp] theorem resume_prog_self (mon : Monitor S M) (c : Pool S α I M σ) (i : I) (o : S.Op)
    (r : S.Res o) (p : Prog S α) (t : σ) : (c.resume mon i o r p t).prog i = p :=
  Function.update_self ..

theorem resume_prog_of_ne {i j : I} (h : i ≠ j) (mon : Monitor S M) (c : Pool S α I M σ)
    (o : S.Op) (r : S.Res o) (p : Prog S α) (t : σ) :
    (c.resume mon j o r p t).prog i = c.prog i :=
  Function.update_of_ne h ..

/-- Reachable from `c₀` by steps that meet `ok`. -/
inductive Reach (mon : Monitor S M) (W : Shared S I σ) (ok : σ → I → S.Op → Prop)
    (c₀ : Pool S α I M σ) : Pool S α I M σ → Prop where
  | start : Reach mon W ok c₀ c₀
  | step {c : Pool S α I M σ} {i : I} {o : S.Op} {k : S.Res o → Prog S α} {r : S.Res o}
      {t : σ} : Reach mon W ok c₀ c → c.prog i = .op o k → ok c.shared i o →
      W.step i c.shared o r t → Reach mon W ok c₀ (c.resume mon i o r (k r) t)

variable {mon : Monitor S M} {W : Shared S I σ} {ok : σ → I → S.Op → Prop}
  {c₀ c : Pool S α I M σ}

theorem Reach.trans {c₁ : Pool S α I M σ} (h₁ : Reach mon W ok c₀ c₁)
    (h : Reach mon W ok c₁ c) : Reach mon W ok c₀ c := by
  induction h with
  | start => exact h₁
  | step _ hprog hok hstep ih => exact .step ih hprog hok hstep

/-- Where the monitor holds of every program, an invariant of the monitor states and the
shared state need only be kept by the single operations that the monitor allows. -/
theorem Reach.invariant {Q : M → α → Prop} {Inv : (I → M) → σ → Prop}
    (hprogs : ∀ i, Monitored mon Q (c₀.prog i) (c₀.mon i)) (hinit : Inv c₀.mon c₀.shared)
    (hstep : ∀ ms s i o r t, Inv ms s → mon.allows (ms i) o → ok s i o → W.step i s o r t →
      Inv (Function.update ms i (mon.next (ms i) o r)) t)
    (h : Reach mon W ok c₀ c) :
    Inv c.mon c.shared ∧ ∀ i, Monitored mon Q (c.prog i) (c.mon i) := by
  induction h with
  | start => exact ⟨hinit, hprogs⟩
  | step _ hprog hok hW ih =>
      rename_i c i o k r t _
      obtain ⟨hInv, hprogs⟩ := ih
      have hi : Monitored mon Q (.op o k) (c.mon i) := hprog ▸ hprogs i
      refine ⟨hstep _ _ i o r t hInv hi.1 hok hW, fun j => ?_⟩
      by_cases hj : j = i
      · subst hj
        simpa only [resume, Function.update_self] using hi.2 r
      · simpa only [resume, Function.update_of_ne hj] using hprogs j

/-- Where the monitor holds of every program, it holds of what is left of each. -/
theorem Reach.monitored {Q : M → α → Prop}
    (hprogs : ∀ i, Monitored mon Q (c₀.prog i) (c₀.mon i)) (h : Reach mon W ok c₀ c) (i : I) :
    Monitored mon Q (c.prog i) (c.mon i) := by
  induction h with
  | start => exact hprogs i
  | step _ hprog hok hstep ih =>
      rename_i c j o k r t _
      by_cases hij : i = j
      · subst hij
        rw [hprog] at ih
        simpa only [resume, Function.update_self] using ih.2 r
      · simpa only [resume, Function.update_of_ne hij] using ih

/-- What process `i` has run since, with answers as the steps give them. -/
theorem Reach.leaves {A : (o : S.Op) → S.Res o → Prop} {i : I}
    (hA : ∀ s o r t, ok s i o → W.step i s o r t → A o r) (h : Reach mon W ok c₀ c) :
    ∃ evs, Leaves (c₀.prog i) evs (c.prog i) ∧ ∀ ev ∈ evs, A ev.op ev.res := by
  induction h with
  | start => exact ⟨[], .refl _, fun ev hev => by cases hev⟩
  | step _ hprog hok hstep ih =>
      rename_i c j o k r t _
      obtain ⟨evs, hleaves, hevs⟩ := ih
      by_cases hj : i = j
      · subst hj
        rw [hprog] at hleaves
        refine ⟨evs ++ [⟨o, r⟩], ?_, ?_⟩
        · rw [resume_prog_self]
          exact hleaves.trans (.op (.refl _))
        · intro ev hev
          rcases List.mem_append.mp hev with hev | hev
          · exact hevs ev hev
          · obtain rfl := List.mem_singleton.mp hev
            exact hA _ _ _ _ hok hstep
      · refine ⟨evs, ?_, hevs⟩
        rw [resume_prog_of_ne hj]
        exact hleaves

/-! ### Schedules -/

/-- One step of process `i` with the outside `h`; nothing once its program has returned. -/
def advance (mon : Monitor S M) (h : I → Handler S σ) (c : Pool S α I M σ) (i : I) :
    Pool S α I M σ :=
  match c.prog i with
  | .ret _ => c
  | .op o k => c.resume mon i o (h i o c.shared).1 (k (h i o c.shared).1) (h i o c.shared).2

/-- Whether every step of the schedule meets `ok`. -/
def Meets (mon : Monitor S M) (h : I → Handler S σ) (ok : σ → I → S.Op → Prop) :
    List I → Pool S α I M σ → Prop
  | [], _ => True
  | i :: is, c =>
    (match c.prog i with
      | .ret _ => True
      | .op o _ => ok c.shared i o) ∧ Meets mon h ok is (c.advance mon h i)

instance instDecidableMeets [∀ s i o, Decidable (ok s i o)] {h : I → Handler S σ} :
    (schedule : List I) → (c : Pool S α I M σ) → Decidable (Meets mon h ok schedule c)
  | [], _ => .isTrue trivial
  | i :: is, c =>
    have : Decidable (Meets mon h ok is (c.advance mon h i)) := instDecidableMeets is _
    have : Decidable (match c.prog i with
        | .ret _ => True
        | .op o _ => ok c.shared i o) :=
      match c.prog i with
      | .ret _ => .isTrue trivial
      | .op o _ => inferInstanceAs (Decidable (ok c.shared i o))
    inferInstanceAs (Decidable (_ ∧ _))

theorem reach_foldl_advance {h : I → Handler S σ}
    (hW : ∀ i s o, W.step i s o (h i o s).1 (h i o s).2) (schedule : List I)
    {c : Pool S α I M σ} (hmeets : Meets mon h ok schedule c) :
    Reach mon W ok c (schedule.foldl (advance mon h) c) := by
  induction schedule generalizing c with
  | nil => exact .start
  | cons i is ih =>
      obtain ⟨hok, hrest⟩ := hmeets
      refine Reach.trans ?_ (ih hrest)
      unfold advance
      split
      · exact .start
      · rename_i o k hprog
        rw [hprog] at hok
        exact .step .start hprog hok (hW i c.shared o)

end Pool

end Effects
