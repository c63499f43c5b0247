import Mathlib.Data.List.Forall2

/-!
# Simulation of runs

A machine takes inputs one after the other, and every step of it shows something.  A relation
between the states of a specification and those of the machine is a simulation for an input if
every step on it is matched: the specification has a step on the same input that shows the same,
and the states after it are related again.

* `observations` runs the machine and keeps what each step shows and the state that it leaves;
  `finalState` is the last of these states.
* `SpecRun` is a run of the specification, with the same two for each step.
* `Matches.exists_run` is the simulation rule: every run of the machine is one of the
  specification.
-/

namespace Effects

variable {I O σ τ : Type}

/-- What each step of a run shows, with the state that it leaves. -/
def observations (step : I → σ → O × σ) : List I → σ → List (O × σ)
  | [], _ => []
  | i :: ins, s => step i s :: observations step ins (step i s).2

/-- The state that a run leaves. -/
def finalState (step : I → σ → O × σ) (ins : List I) (s : σ) : σ :=
  ins.foldl (fun s i => (step i s).2) s

/-- A run of the specification, with what each step shows and the state that it leaves. -/
inductive SpecRun (spec : τ → I → O → τ → Prop) : τ → List I → List (O × τ) → Prop where
  | nil (t : τ) : SpecRun spec t [] []
  | cons {t t' : τ} {i : I} {ins : List I} {shown : O} {rest : List (O × τ)} :
      spec t i shown t' → SpecRun spec t' ins rest →
      SpecRun spec t (i :: ins) ((shown, t') :: rest)

/-- The step on the input is matched from all related states. -/
def Matches (step : I → σ → O × σ) (spec : τ → I → O → τ → Prop) (R : τ → σ → Prop) (i : I) :
    Prop :=
  ∀ t s, R t s → ∃ t', spec t i (step i s).1 t' ∧ R t' (step i s).2

/-- Where the steps on all inputs are matched, every run is one of the specification: it shows the
same, and goes through related states. -/
theorem Matches.exists_run {step : I → σ → O × σ} {spec : τ → I → O → τ → Prop}
    {R : τ → σ → Prop} {ins : List I} (hstep : ∀ i ∈ ins, Matches step spec R i) {t : τ} {s : σ}
    (h : R t s) :
    ∃ outs, SpecRun spec t ins outs ∧
      List.Forall₂ (fun (p : O × σ) (out : O × τ) => p.1 = out.1 ∧ R out.2 p.2)
        (observations step ins s) outs := by
  induction ins generalizing t s with
  | nil => exact ⟨[], .nil t, .nil⟩
  | cons i ins ih =>
      obtain ⟨t', hspec, hrelated⟩ := hstep i List.mem_cons_self t s h
      have hrest : ∀ i' ∈ ins, Matches step spec R i' := by
        intro i' hi'
        exact hstep i' (List.mem_cons_of_mem _ hi')
      obtain ⟨outs, hrun, hall⟩ := ih hrest hrelated
      exact ⟨((step i s).1, t') :: outs, .cons hspec hrun, .cons ⟨rfl, hrelated⟩ hall⟩

end Effects
