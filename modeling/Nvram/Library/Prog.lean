import Mathlib.Logic.Basic
import Mathlib.Data.List.Basic

/-!
# Programs over an effect signature

A sequential program that calls an outside system is a finite tree: it returns a value,
or it issues one operation and continues with the response.  The signature lists the
operations and, for each, the type of its responses.

* `Prog` is the tree with its monad structure; the monad laws are `LawfulMonad`.
* `Runs p evs a` gives the complete runs of `p` against an outside that may answer
  anything: `evs` is the list of operations issued with the responses received.
* `Confined P Q p` says that every operation `p` can issue satisfies `P` and every value it
  can return `Q`; `Under A Q p` that the values satisfy `Q` when the responses satisfy `A`.
* `World` fixes which responses are possible in a state and how the state moves, and what
  may have happened to the state when the process is stopped inside an operation.
  `Exec` is execution in a world, a stop being possible at every operation; `wp` is the
  precondition transformer for it, with one postcondition for a return and one for a stop.
* `run` executes a program with a deterministic `Handler`.
-/

namespace Effects

/-- Operations, and the responses each one can receive. -/
structure Sig where
  Op : Type
  Res : Op → Type

/-- A finite program over the signature `S` that returns an `α`. -/
inductive Prog (S : Sig) (α : Type) : Type where
  | ret (a : α) : Prog S α
  | op (o : S.Op) (k : S.Res o → Prog S α) : Prog S α

variable {S : Sig} {α β σ : Type}

namespace Prog

def bind : Prog S α → (α → Prog S β) → Prog S β
  | .ret a, f => f a
  | .op o k, f => .op o fun r => bind (k r) f

instance : Monad (Prog S) where
  pure := .ret
  bind := bind

/-- Issue one operation and return its response. -/
def call (o : S.Op) : Prog S (S.Res o) := .op o .ret

@[simp] theorem pure_eq (a : α) : (pure a : Prog S α) = .ret a := rfl

@[simp] theorem ret_bind (a : α) (f : α → Prog S β) : (Prog.ret a >>= f) = f a := rfl

@[simp] theorem op_bind (o : S.Op) (k : S.Res o → Prog S α) (f : α → Prog S β) :
    (Prog.op o k >>= f) = .op o fun r => k r >>= f := rfl

@[simp] theorem call_bind (o : S.Op) (f : S.Res o → Prog S β) : (call o >>= f) = .op o f := rfl

theorem bind_ret (p : Prog S α) : (p >>= Prog.ret) = p := by
  induction p with
  | ret a => rfl
  | op o k ih => simp only [op_bind, ih]

theorem bind_assoc {γ : Type} (p : Prog S α) (f : α → Prog S β) (g : β → Prog S γ) :
    (p >>= f >>= g) = (p >>= fun a => f a >>= g) := by
  induction p with
  | ret a => rfl
  | op o k ih => simp only [op_bind, ih]

instance : LawfulMonad (Prog S) :=
  LawfulMonad.mk' (Prog S) (fun p => bind_ret p) (fun _ _ => rfl) bind_assoc

end Prog

/-! ### Runs against an arbitrary outside -/

/-- One operation together with the response it received. -/
structure Event (S : Sig) where
  op : S.Op
  res : S.Res op

/-- `Runs p evs a`: answered as `evs` records, `p` issues exactly the operations of `evs`
and returns `a`. -/
inductive Runs : Prog S α → List (Event S) → α → Prop where
  | ret (a : α) : Runs (.ret a) [] a
  | op {o : S.Op} {k : S.Res o → Prog S α} {r : S.Res o} {evs : List (Event S)} {a : α} :
      Runs (k r) evs a → Runs (.op o k) (⟨o, r⟩ :: evs) a

@[simp] theorem runs_ret_iff {a b : α} {evs : List (Event S)} :
    Runs (.ret a : Prog S α) evs b ↔ evs = [] ∧ b = a := by
  constructor
  · intro h
    cases h
    exact ⟨rfl, rfl⟩
  · rintro ⟨rfl, rfl⟩
    exact .ret b

theorem runs_op_iff {o : S.Op} {k : S.Res o → Prog S α} {evs : List (Event S)} {a : α} :
    Runs (.op o k) evs a ↔ ∃ r rest, evs = ⟨o, r⟩ :: rest ∧ Runs (k r) rest a := by
  constructor
  · intro h
    cases h with
    | op h => exact ⟨_, _, rfl, h⟩
  · rintro ⟨r, rest, rfl, h⟩
    exact .op h

/-- A run of a sequence is a run of its first part followed by a run of the rest. -/
theorem runs_bind_iff {p : Prog S α} {f : α → Prog S β} {evs : List (Event S)} {b : β} :
    Runs (p >>= f) evs b ↔
      ∃ evs₁ evs₂ a, evs = evs₁ ++ evs₂ ∧ Runs p evs₁ a ∧ Runs (f a) evs₂ b := by
  induction p generalizing evs with
  | ret a =>
      constructor
      · intro h
        exact ⟨[], evs, a, rfl, .ret a, h⟩
      · rintro ⟨evs₁, evs₂, a', rfl, h₁, h₂⟩
        obtain ⟨rfl, rfl⟩ := runs_ret_iff.mp h₁
        exact h₂
  | op o k ih =>
      rw [Prog.op_bind, runs_op_iff]
      constructor
      · rintro ⟨r, rest, rfl, h⟩
        obtain ⟨evs₁, evs₂, a, rfl, h₁, h₂⟩ := (ih r).mp h
        exact ⟨⟨o, r⟩ :: evs₁, evs₂, a, rfl, .op h₁, h₂⟩
      · rintro ⟨evs₁, evs₂, a, rfl, h₁, h₂⟩
        obtain ⟨r, rest, rfl, hk⟩ := runs_op_iff.mp h₁
        exact ⟨r, rest ++ evs₂, rfl, (ih r).mpr ⟨rest, evs₂, a, rfl, hk, h₂⟩⟩

/-! ### Which operations a program can issue -/

/-- However it is answered, `p` issues operations in `P` only, and returns values in `Q`. -/
def Confined (P : S.Op → Prop) (Q : α → Prop) : Prog S α → Prop
  | .ret a => Q a
  | .op o k => P o ∧ ∀ r, Confined P Q (k r)

@[simp] theorem confined_ret {P : S.Op → Prop} {Q : α → Prop} {a : α} :
    Confined P Q (.ret a : Prog S α) ↔ Q a := Iff.rfl

theorem confined_op {P : S.Op → Prop} {Q : α → Prop} {o : S.Op} {k : S.Res o → Prog S α} :
    Confined P Q (.op o k) ↔ P o ∧ ∀ r, Confined P Q (k r) := Iff.rfl

theorem confined_bind {P : S.Op → Prop} {Q : β → Prop} {p : Prog S α} {f : α → Prog S β} :
    Confined P Q (p >>= f) ↔ Confined P (fun a => Confined P Q (f a)) p := by
  induction p with
  | ret a => rfl
  | op o k ih => simp only [Prog.op_bind, confined_op, ih]

theorem Confined.mono {P P' : S.Op → Prop} {Q Q' : α → Prop} {p : Prog S α}
    (h : Confined P Q p) (hP : ∀ o, P o → P' o) (hQ : ∀ a, Q a → Q' a) : Confined P' Q' p := by
  induction p with
  | ret a => exact hQ a h
  | op o k ih => exact ⟨hP o h.1, fun r => ih r (h.2 r)⟩

/-- Sequencing rule: `R` holds of what the first part returns. -/
theorem confined_seq {P : S.Op → Prop} {R : α → Prop} {Q : β → Prop} {p : Prog S α}
    {f : α → Prog S β} (hp : Confined P R p) (hf : ∀ a, R a → Confined P Q (f a)) :
    Confined P Q (p >>= f) :=
  confined_bind.mpr (hp.mono (fun _ h => h) hf)

theorem Confined.runs {P : S.Op → Prop} {Q : α → Prop} {p : Prog S α} (hp : Confined P Q p)
    {evs : List (Event S)} {a : α} (h : Runs p evs a) : (∀ e ∈ evs, P e.op) ∧ Q a := by
  induction h with
  | ret a => exact ⟨by simp, hp⟩
  | op h ih =>
      obtain ⟨hops, hres⟩ := ih (hp.2 _)
      refine ⟨fun e he => ?_, hres⟩
      rcases List.mem_cons.mp he with rfl | he
      · exact hp.1
      · exact hops e he

/-! ### Constrained responses -/

/-- Every run of `p` whose responses all satisfy `A` returns a value in `Q`. -/
def Under (A : (o : S.Op) → S.Res o → Prop) (Q : α → Prop) : Prog S α → Prop
  | .ret a => Q a
  | .op o k => ∀ r, A o r → Under A Q (k r)

@[simp] theorem under_ret {A : (o : S.Op) → S.Res o → Prop} {Q : α → Prop} {a : α} :
    Under A Q (.ret a : Prog S α) ↔ Q a := Iff.rfl

theorem under_op {A : (o : S.Op) → S.Res o → Prop} {Q : α → Prop} {o : S.Op}
    {k : S.Res o → Prog S α} : Under A Q (.op o k) ↔ ∀ r, A o r → Under A Q (k r) := Iff.rfl

theorem under_bind {A : (o : S.Op) → S.Res o → Prop} {Q : β → Prop} {p : Prog S α}
    {f : α → Prog S β} : Under A Q (p >>= f) ↔ Under A (fun a => Under A Q (f a)) p := by
  induction p with
  | ret a => rfl
  | op o k ih => simp only [Prog.op_bind, under_op, ih]

theorem Under.mono {A : (o : S.Op) → S.Res o → Prop} {Q Q' : α → Prop} {p : Prog S α}
    (h : Under A Q p) (hQ : ∀ a, Q a → Q' a) : Under A Q' p := by
  induction p with
  | ret a => exact hQ a h
  | op o k ih => exact fun r hr => ih r (h r hr)

/-- Sequencing rule: `R` holds of what the first part returns. -/
theorem under_seq {A : (o : S.Op) → S.Res o → Prop} {Q : β → Prop} {R : α → Prop}
    {p : Prog S α} {f : α → Prog S β} (hp : Under A R p) (hf : ∀ a, R a → Under A Q (f a)) :
    Under A Q (p >>= f) :=
  under_bind.mpr (hp.mono hf)

/-- A program whose values are in `Q` however it is answered. -/
theorem Confined.under {A : (o : S.Op) → S.Res o → Prop} {P : S.Op → Prop} {Q : α → Prop}
    {p : Prog S α} (h : Confined P Q p) : Under A Q p := by
  induction p with
  | ret a => exact h
  | op o k ih => exact fun r _ => ih r (h.2 r)

theorem under_true {A : (o : S.Op) → S.Res o → Prop} (p : Prog S α) :
    Under A (fun _ => True) p := by
  induction p with
  | ret a => trivial
  | op o k ih => exact fun r _ => ih r

theorem under_iff_runs {A : (o : S.Op) → S.Res o → Prop} {Q : α → Prop} {p : Prog S α} :
    Under A Q p ↔ ∀ evs a, Runs p evs a → (∀ e ∈ evs, A e.op e.res) → Q a := by
  induction p with
  | ret a =>
      constructor
      · intro h evs b hb _
        obtain ⟨rfl, rfl⟩ := runs_ret_iff.mp hb
        exact h
      · intro h
        exact h [] a (.ret a) (by simp)
  | op o k ih =>
      constructor
      · intro h evs b hb hA
        obtain ⟨r, rest, rfl, hk⟩ := runs_op_iff.mp hb
        have hr : A o r := hA ⟨o, r⟩ (by simp)
        exact (ih r).mp (h r hr) rest b hk fun e he => hA e (by simp [he])
      · intro h r hr
        refine (ih r).mpr fun evs b hb hA => h (⟨o, r⟩ :: evs) b (.op hb) fun e he => ?_
        rcases List.mem_cons.mp he with rfl | he
        · exact hr
        · exact hA e he

/-! ### Worlds, execution with stops, and preconditions -/

/-- What the outside does: `step s o r t` is a completed operation, `halt s o t` a stop of
the process while `o` is in progress, which leaves the outside in `t`. -/
structure World (S : Sig) (σ : Type) where
  step : σ → (o : S.Op) → S.Res o → σ → Prop
  halt : σ → S.Op → σ → Prop

/-- Execution in a world: a returned value, or `none` when the process was stopped. -/
inductive Exec (W : World S σ) : Prog S α → σ → Option α → σ → Prop where
  | ret (a : α) (s : σ) : Exec W (.ret a) s (some a) s
  | step {o : S.Op} {k : S.Res o → Prog S α} {r : S.Res o} {s t u : σ} {out : Option α} :
      W.step s o r t → Exec W (k r) t out u → Exec W (.op o k) s out u
  | halt {o : S.Op} {k : S.Res o → Prog S α} {s t : σ} :
      W.halt s o t → Exec W (.op o k) s none t

/-- An execution in a world is one in a world that sees less of the state. -/
theorem Exec.map {τ : Type} {W : World S σ} {W' : World S τ} (f : σ → τ)
    (hstep : ∀ s o r t, W.step s o r t → W'.step (f s) o r (f t))
    (hhalt : ∀ s o t, W.halt s o t → W'.halt (f s) o (f t)) {p : Prog S α} {s t : σ}
    {out : Option α} (h : Exec W p s out t) : Exec W' p (f s) out (f t) := by
  induction h with
  | ret a s => exact .ret a (f s)
  | step hW _ ih => exact .step (hstep _ _ _ _ hW) ih
  | halt hW => exact .halt (hhalt _ _ _ hW)

theorem Exec.bind {W : World S σ} {p : Prog S β} {f : β → Prog S α} {b : β} {s t u : σ}
    {out : Option α} (h : Exec W p s (some b) t) (hf : Exec W (f b) t out u) :
    Exec W (p >>= f) s out u := by
  induction p generalizing s with
  | ret a =>
      cases h
      exact hf
  | op o k ih =>
      cases h with
      | step hW h => exact .step hW (ih _ h)

/-- A program that is stopped in its first part is stopped. -/
theorem Exec.bind_halted {W : World S σ} {p : Prog S β} {f : β → Prog S α} {s t : σ}
    (h : Exec W p s none t) : Exec W (p >>= f) s none t := by
  induction p generalizing s with
  | ret a => cases h
  | op o k ih =>
      cases h with
      | step hW h => exact .step hW (ih _ h)
      | halt hW => exact .halt hW

/-- Every execution of `p` from `s` that returns ends in `Q`, and every stop leaves `C`. -/
def wp (W : World S σ) (Q : α → σ → Prop) (C : σ → Prop) : Prog S α → σ → Prop
  | .ret a, s => Q a s
  | .op o k, s => (∀ t, W.halt s o t → C t) ∧ ∀ r t, W.step s o r t → wp W Q C (k r) t

variable {W : World S σ} {Q : α → σ → Prop} {C : σ → Prop} {s : σ}

@[simp] theorem wp_ret {a : α} : wp W Q C (.ret a) s ↔ Q a s := Iff.rfl

theorem wp_op {o : S.Op} {k : S.Res o → Prog S α} :
    wp W Q C (.op o k) s ↔
      (∀ t, W.halt s o t → C t) ∧ ∀ r t, W.step s o r t → wp W Q C (k r) t := Iff.rfl

theorem wp_bind {p : Prog S β} {f : β → Prog S α} :
    wp W Q C (p >>= f) s ↔ wp W (fun b t => wp W Q C (f b) t) C p s := by
  induction p generalizing s with
  | ret b => rfl
  | op o k ih => simp only [Prog.op_bind, wp_op, ih]

theorem wp_mono {Q' : α → σ → Prop} {C' : σ → Prop} {p : Prog S α}
    (hQ : ∀ a t, Q a t → Q' a t) (hC : ∀ t, C t → C' t) (h : wp W Q C p s) :
    wp W Q' C' p s := by
  induction p generalizing s with
  | ret a => exact hQ a s h
  | op o k ih => exact ⟨fun t ht => hC t (h.1 t ht), fun r t ht => ih r (h.2 r t ht)⟩

/-- Sequencing rule: `R` holds between the two parts. -/
theorem wp_seq {p : Prog S β} {f : β → Prog S α} {R : β → σ → Prop}
    (hp : wp W R C p s) (hf : ∀ b t, R b t → wp W Q C (f b) t) : wp W Q C (p >>= f) s :=
  wp_bind.mpr (wp_mono hf (fun _ h => h) hp)

/-- What a program returns however it is answered it returns in every world. -/
theorem wp_confined {P : S.Op → Prop} {R : α → Prop} {p : Prog S α} (hp : Confined P R p)
    (h : wp W Q C p s) : wp W (fun a t => R a ∧ Q a t) C p s := by
  induction p generalizing s with
  | ret a => exact ⟨hp, h⟩
  | op o k ih => exact ⟨h.1, fun r t ht => ih r (hp.2 r) (h.2 r t ht)⟩

/-- The transformer is exact for execution with stops. -/
theorem wp_iff_exec {p : Prog S α} :
    wp W Q C p s ↔
      (∀ a t, Exec W p s (some a) t → Q a t) ∧ (∀ t, Exec W p s none t → C t) := by
  induction p generalizing s with
  | ret a =>
      constructor
      · intro h
        refine ⟨fun b t hb => ?_, fun t ht => by cases ht⟩
        cases hb
        exact h
      · intro h
        exact h.1 a s (.ret a s)
  | op o k ih =>
      constructor
      · rintro ⟨hC, hQ⟩
        refine ⟨fun a t ha => ?_, fun t ht => ?_⟩
        · cases ha with
          | step hs he => exact ((ih _).mp (hQ _ _ hs)).1 a t he
        · cases ht with
          | step hs he => exact ((ih _).mp (hQ _ _ hs)).2 t he
          | halt hh => exact hC t hh
      · rintro ⟨hQ, hC⟩
        refine ⟨fun t ht => hC t (.halt ht), fun r t ht => (ih r).mpr ⟨?_, ?_⟩⟩
        · exact fun a u hu => hQ a u (.step ht hu)
        · exact fun u hu => hC u (.step ht hu)

/-- A result about constrained responses holds in every world that constrains them so while
the operations the program can issue keep `I`. -/
theorem wp_of_under {A : (o : S.Op) → S.Res o → Prop} {R : α → Prop} {P : S.Op → Prop}
    {I : σ → Prop} {R' : α → Prop}
    (hstep : ∀ s o r t, I s → P o → W.step s o r t → A o r ∧ I t)
    (hhalt : ∀ s o t, I s → P o → W.halt s o t → C t)
    {p : Prog S α} (hp : Confined P R' p) (hu : Under A R p) (hs : I s) :
    wp W (fun a t => R a ∧ I t) C p s := by
  induction p generalizing s with
  | ret a => exact ⟨hu, hs⟩
  | op o k ih =>
      refine ⟨fun t ht => hhalt s o t hs hp.1 ht, fun r t ht => ?_⟩
      obtain ⟨hA, hI⟩ := hstep s o r t hs hp.1 ht
      exact ih r (hp.2 r) (hu r hA) hI

/-- Operations that leave the state alone leave it alone together. -/
theorem wp_fixed {P : S.Op → Prop} {R : α → Prop}
    (hstep : ∀ o r t, P o → W.step s o r t → t = s) (hhalt : ∀ o t, P o → W.halt s o t → t = s)
    {p : Prog S α} (hp : Confined P R p) (hs : C s) :
    wp W (fun a t => R a ∧ t = s) C p s := by
  refine wp_of_under (I := fun t => t = s) (A := fun _ _ => True) (fun t o r u ht ho hu => ?_)
    (fun t o u ht ho hu => ?_) hp hp.under rfl
  · subst ht
    exact ⟨trivial, hstep o r u ho hu⟩
  · subst ht
    rw [hhalt o u ho hu]
    exact hs

/-- A program runs to its end where every operation it can issue has a response. -/
theorem exists_exec {P : S.Op → Prop} {I : σ → Prop} {R : α → Prop}
    (hstep : ∀ s o, I s → P o → ∃ r t, W.step s o r t ∧ I t) {p : Prog S α}
    (hp : Confined P R p) (hs : I s) : ∃ a t, Exec W p s (some a) t := by
  induction p generalizing s with
  | ret a => exact ⟨a, s, .ret a s⟩
  | op o k ih =>
      obtain ⟨r, t, hr, ht⟩ := hstep s o hs hp.1
      obtain ⟨a, u, hu⟩ := ih r (hp.2 r) ht
      exact ⟨a, u, .step hr hu⟩

/-! ### Deterministic handlers -/

/-- A deterministic outside. -/
abbrev Handler (S : Sig) (σ : Type) := (o : S.Op) → σ → S.Res o × σ

/-- Execute with a deterministic handler. -/
def run (h : Handler S σ) : Prog S α → σ → α × σ
  | .ret a, s => (a, s)
  | .op o k, s => run h (k (h o s).1) (h o s).2

variable {h : Handler S σ}

@[simp] theorem run_ret (a : α) (s : σ) : run h (.ret a : Prog S α) s = (a, s) := rfl

theorem run_op (o : S.Op) (k : S.Res o → Prog S α) (s : σ) :
    run h (.op o k) s = run h (k (h o s).1) (h o s).2 := rfl

theorem run_bind (p : Prog S α) (f : α → Prog S β) (s : σ) :
    run h (p >>= f) s = run h (f (run h p s).1) (run h p s).2 := by
  induction p generalizing s with
  | ret a => rfl
  | op o k ih => simp only [Prog.op_bind, run_op, ih]

/-- The world of a handler: one response, and no stops. -/
def World.ofHandler (h : Handler S σ) : World S σ where
  step s o r t := h o s = (r, t)
  halt _ _ _ := False

/-- In the world of a handler the precondition transformer is evaluation. -/
theorem wp_ofHandler {p : Prog S α} :
    wp (World.ofHandler h) Q C p s ↔ Q (run h p s).1 (run h p s).2 := by
  induction p generalizing s with
  | ret a => rfl
  | op o k ih =>
      rw [wp_op, run_op, ← ih]
      constructor
      · intro hw
        exact hw.2 _ _ rfl
      · intro hw
        refine ⟨fun t ht => ht.elim, fun r t ht => ?_⟩
        have hr : h o s = (r, t) := ht
        rwa [hr] at hw

/-- The operations a run issues, with the handler's responses. -/
def trace (h : Handler S σ) : Prog S α → σ → List (Event S)
  | .ret _, _ => []
  | .op o k, s => ⟨o, (h o s).1⟩ :: trace h (k (h o s).1) (h o s).2

/-- The execution with a handler is a run. -/
theorem runs_trace (h : Handler S σ) (p : Prog S α) (s : σ) : Runs p (trace h p s) (run h p s).1 := by
  induction p generalizing s with
  | ret a => exact .ret a
  | op o k ih => exact .op (ih _ _)

/-- The handler that also notes the operations in question. -/
def logging (keep : S.Op → Bool) (h : Handler S σ) : Handler S (σ × List S.Op) := fun o s =>
  ((h o s.1).1, (h o s.1).2, if keep o then s.2 ++ [o] else s.2)

theorem run_logging (keep : S.Op → Bool) (h : Handler S σ) (p : Prog S α) (s : σ)
    (log : List S.Op) : run (logging keep h) p (s, log) =
      ((run h p s).1, (run h p s).2, log ++ ((trace h p s).map Event.op).filter keep) := by
  induction p generalizing s log with
  | ret a => simp [trace]
  | op o k ih =>
      rw [run_op, run_op, trace, List.map_cons]
      by_cases ho : keep o = true
      · simp only [logging, if_pos ho]
        rw [ih, List.filter_cons_of_pos ho, List.append_assoc]
        rfl
      · simp only [logging, if_neg ho]
        rw [ih, List.filter_cons_of_neg ho]

/-- Two runs from related states agree when every operation the program can issue answers
the same in related states and keeps them related. -/
theorem run_related {P : S.Op → Prop} {Q : α → Prop} {R : σ → σ → Prop}
    (hstep : ∀ o s t, P o → R s t → (h o s).1 = (h o t).1 ∧ R (h o s).2 (h o t).2)
    {p : Prog S α} (hp : Confined P Q p) {s t : σ} (hst : R s t) :
    (run h p s).1 = (run h p t).1 ∧ trace h p s = trace h p t ∧
      R (run h p s).2 (run h p t).2 := by
  induction p generalizing s t with
  | ret a => exact ⟨rfl, rfl, hst⟩
  | op o k ih =>
      obtain ⟨hr, ht⟩ := hstep o s t hp.1 hst
      obtain ⟨hval, htrace, hrel⟩ := ih (h o s).1 (hp.2 _) ht
      rw [run_op, run_op, trace, trace, ← hr]
      exact ⟨hval, by rw [htrace], hrel⟩

/-- What a sequence of operations is answered. -/
def responses (h : Handler S σ) : List S.Op → σ → List (Event S)
  | [], _ => []
  | o :: os, s => ⟨o, (h o s).1⟩ :: responses h os (h o s).2

/-- No sequence of operations in `P` tells the two states apart. -/
def Indistinguishable (h : Handler S σ) (P : S.Op → Prop) (s t : σ) : Prop :=
  ∀ os : List S.Op, (∀ o ∈ os, P o) → responses h os s = responses h os t

theorem Indistinguishable.step {P : S.Op → Prop} {s t : σ} (hst : Indistinguishable h P s t)
    {o : S.Op} (ho : P o) :
    (h o s).1 = (h o t).1 ∧ Indistinguishable h P (h o s).2 (h o t).2 := by
  have hone : (h o s).1 = (h o t).1 := by
    have hresponses := hst [o] (by simpa using ho)
    simpa [responses] using hresponses
  refine ⟨hone, fun os hos => ?_⟩
  have hresponses := hst (o :: os) (by simpa using ⟨ho, hos⟩)
  simp only [responses, List.cons.injEq] at hresponses
  exact hresponses.2

theorem Indistinguishable.mono {P P' : S.Op → Prop} {s t : σ} (hst : Indistinguishable h P s t)
    (hP : ∀ o, P' o → P o) : Indistinguishable h P' s t :=
  fun os hos => hst os fun o ho => hP o (hos o ho)

/-- A relation that the operations in `P` keep and cannot see through. -/
theorem indistinguishable_of_related {P : S.Op → Prop} {R : σ → σ → Prop}
    (hstep : ∀ o s t, P o → R s t → (h o s).1 = (h o t).1 ∧ R (h o s).2 (h o t).2)
    {s t : σ} (hst : R s t) : Indistinguishable h P s t := by
  intro os hos
  induction os generalizing s t with
  | nil => rfl
  | cons o os ih =>
      obtain ⟨hone, hrest⟩ := hstep o s t (hos o List.mem_cons_self) hst
      simp only [responses, hone, ih hrest fun o ho => hos o (List.mem_cons_of_mem _ ho)]

/-- A program that issues operations in `P` only runs the same from states that these do not
tell apart. -/
theorem run_indistinguishable {P : S.Op → Prop} {Q : α → Prop} {p : Prog S α}
    (hp : Confined P Q p) {s t : σ} (hst : Indistinguishable h P s t) :
    (run h p s).1 = (run h p t).1 ∧ trace h p s = trace h p t := by
  have hrelated := run_related (h := h) (R := Indistinguishable h P)
    (fun o s t ho hR => hR.step ho) hp hst
  exact ⟨hrelated.1, hrelated.2.1⟩

/-- A result about constrained responses holds of the run on a handler that answers so while
the operations the program can issue keep `I`. -/
theorem run_of_under {A : (o : S.Op) → S.Res o → Prop} {R Q : α → Prop} {P : S.Op → Prop}
    {I : σ → Prop} (hstep : ∀ o s, I s → P o → A o (h o s).1 ∧ I (h o s).2) {p : Prog S α}
    (hp : Confined P Q p) (hu : Under A R p) {s : σ} (hs : I s) :
    R (run h p s).1 ∧ I (run h p s).2 := by
  have hw : wp (World.ofHandler h) (fun a t => R a ∧ I t) (fun _ => True) p s := by
    have hstep' : ∀ s o r t, I s → P o → (World.ofHandler h).step s o r t → A o r ∧ I t := by
      intro s o r t hs ho hr
      have hr' : h o s = (r, t) := hr
      have hboth := hstep o s hs ho
      rwa [hr'] at hboth
    exact wp_of_under hstep' (fun _ _ _ _ _ _ => trivial) hp hu hs
  exact wp_ofHandler.mp hw

/-- What every issued operation preserves, the run preserves. -/
theorem run_preserves {P : S.Op → Prop} {Q : α → Prop} {I : σ → Prop}
    (hstep : ∀ o s, P o → I s → I (h o s).2) {p : Prog S α} (hp : Confined P Q p) {s : σ}
    (hs : I s) : I (run h p s).2 := by
  induction p generalizing s with
  | ret a => exact hs
  | op o k ih => exact ih _ (hp.2 _) (hstep o s hp.1 hs)

end Effects
