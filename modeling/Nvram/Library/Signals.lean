import Nvram.Library.Interp

/-!
# Programs that a signal can end

A signal can come before every operation of a program.  The program is given up then: the system
issues the operation that the state of its monitor calls for, such as the close of a descriptor,
and the value is the one of a program that was ended.

* `Prog.mortal` is a program with its signals.
* `Monitored.mortal` and `wp_mortal` say what carries over: a program that is ended has kept to its
  monitor, and leaves what it can leave when it is stopped.
-/

namespace Effects

variable {S : Sig} {α M σ : Type}

/-- Asks whether a signal has come. -/
abbrev signalSig : Sig := ⟨Unit, fun _ => Bool⟩

/-- A signal can come at any time and changes nothing. -/
def signalWorld (σ : Type) : World signalSig σ where
  step s _ _ t := t = s
  halt s _ t := t = s

theorem signalWorld_private (σ : Type) (o : signalSig.Op) : (signalWorld σ).Private o :=
  ⟨fun _ _ _ h => h, fun _ _ _ _ _ => rfl, fun _ _ h => h⟩

/-- What the system does with a program that a signal has ended. -/
def Prog.ended (cleanup : Option S.Op) (dead : α) : Prog (S.sum signalSig) α :=
  match cleanup with
  | some o => .op (S := S.sum signalSig) (.inl o) fun _ => .ret dead
  | none => .ret dead

/-- The program, ended by a signal before any of its operations. -/
def Prog.mortal (mon : Monitor S M) (cleanup : M → Option S.Op) (dead : α) :
    Prog S α → M → Prog (S.sum signalSig) α
  | .ret a, _ => .ret a
  | .op o k, m => .op (S := S.sum signalSig) (.inr ()) fun (signal : Bool) =>
    if signal then Prog.ended (cleanup m) dead
    else .op (S := S.sum signalSig) (.inl o) fun r =>
      Prog.mortal mon cleanup dead (k r) (mon.next m o r)

section

variable {mon : Monitor S M} {cleanup : M → Option S.Op} {dead : α}

theorem Monitored.mortal (hclean : ∀ m o, cleanup m = some o → mon.allows m o)
    {Q : M → α → Prop} {p : Prog S α} {m : M} (h : Monitored mon Q p m) :
    Monitored (mon.left signalSig fun _ => True) (fun _ _ => True)
      (p.mortal mon cleanup dead m) m := by
  induction p generalizing m with
  | ret a => trivial
  | op o k ih =>
      refine ⟨trivial, fun signal => ?_⟩
      cases signal with
      | false => exact ⟨h.1, fun r => ih r (h.2 r)⟩
      | true =>
          show Monitored _ _ (Prog.ended (cleanup m) dead) m
          unfold Prog.ended
          cases hm : cleanup m with
          | none => trivial
          | some o' => exact ⟨hclean m o' hm, fun _ => trivial⟩

/-- Where every operation can be stopped without effect, and the operation of the system keeps what
a stop leaves, the end by a signal is one of the stops. -/
theorem wp_mortal {W : World S σ} {V : World (S.sum signalSig) σ} {Q : α → σ → Prop} {C : σ → Prop}
    (hstep : ∀ s o r t, V.step s (.inl o) r t → W.step s o r t)
    (hhalt : ∀ s o t, V.halt s (.inl o) t → W.halt s o t)
    (hsignal : ∀ s r t, V.step s (.inr ()) r t → t = s)
    (hnone : ∀ s t, V.halt s (.inr ()) t → t = s) (hself : ∀ s o, W.halt s o s)
    (hclean : ∀ m o s, cleanup m = some o → C s →
      (∀ t, W.halt s o t → C t) ∧ ∀ r t, W.step s o r t → C t)
    {p : Prog S α} {m : M} {s : σ} (h : wp W Q C p s) :
    wp V (fun a t => Q a t ∨ a = dead ∧ C t) C (p.mortal mon cleanup dead m) s := by
  induction p generalizing m s with
  | ret a => exact Or.inl h
  | op o k ih =>
      have hC : C s := h.1 s (hself s o)
      refine ⟨fun t ht => ?_, fun signal t ht => ?_⟩
      · rw [hnone s t ht]
        exact hC
      rw [hsignal s signal t ht]
      cases signal with
      | false =>
          exact ⟨fun u hu => h.1 u (hhalt s o u hu), fun r u hu => ih r (h.2 r u (hstep s o r u hu))⟩
      | true =>
          show wp V _ C (Prog.ended (cleanup m) dead) s
          unfold Prog.ended
          cases hm : cleanup m with
          | none => exact Or.inr ⟨rfl, hC⟩
          | some o' =>
              obtain ⟨hhalts, hsteps⟩ := hclean m o' s hm hC
              exact ⟨fun u hu => hhalts u (hhalt s o' u hu),
                fun r u hu => Or.inr ⟨rfl, hsteps r u (hstep s o' r u hu)⟩⟩

end

end Effects
