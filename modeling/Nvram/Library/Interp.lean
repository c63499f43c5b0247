import Nvram.Library.Serial

/-!
# Programs whose operations are programs

A layer implements the operations of one signature by programs over another.  The program that
runs on top of it issues the operations of the layer.

* `Sig.sum` puts two signatures side by side; `Prog.right` is a program over the second one,
  `World.sum`, `Monitor.left` and `Monitor.right` give the sum a world and monitors.
* `Prog.interp` replaces every operation by its implementation; `run_interp` and
  `Monitored.interp` say what carries over from the operations to the program.
* `wp_interp` is the rule for refinement: where the implementation of every operation that a
  monitor allows does in the lower world what the operation does in the upper one, a program does
  so too.
* `Shared.left` and `Region.sum` are the same for a lock beside a store.
-/

namespace Effects

variable {S T : Sig} {α β I L M σ τ : Type}

/-! ### Two signatures side by side -/

/-- The operations of both. -/
@[reducible] def Sig.sum (S T : Sig) : Sig where
  Op := S.Op ⊕ T.Op
  Res
    | .inl o => S.Res o
    | .inr o => T.Res o

/-- Both kinds of operations on one state. -/
def World.sum (W : World S σ) (K : World T σ) : World (S.sum T) σ where
  step s o r t :=
    match o, r with
    | .inl o, r => W.step s o r t
    | .inr o, r => K.step s o r t
  halt s o t :=
    match o with
    | .inl o => W.halt s o t
    | .inr o => K.halt s o t

/-- The monitor does not see the operations of `T`, and allows them in `inner`. -/
def Monitor.left (mon : Monitor S M) (T : Sig) (inner : M → Prop) : Monitor (S.sum T) M where
  allows m
    | .inl o => mon.allows m o
    | .inr _ => inner m
  next m o r :=
    match o, r with
    | .inl o, r => mon.next m o r
    | .inr _, _ => m

/-- The monitor does not see the operations of `S`. -/
def Monitor.right (S : Sig) (mon : Monitor T M) : Monitor (S.sum T) M where
  allows m
    | .inl _ => True
    | .inr o => mon.allows m o
  next m o r :=
    match o, r with
    | .inl _, _ => m
    | .inr o, r => mon.next m o r

/-! ### Interpretation -/

/-- An implementation of the operations of `S`. -/
abbrev Layer (S T : Sig) := (o : S.Op) → Prog T (S.Res o)

/-- Every operation replaced by its implementation. -/
def Prog.interp (f : Layer S T) : Prog S α → Prog T α
  | .ret a => .ret a
  | .op o k => f o >>= fun r => interp f (k r)

/-- A program over the second of two signatures. -/
def Prog.right (S : Sig) (p : Prog T α) : Prog (S.sum T) α :=
  p.interp fun o => Prog.call (S := S.sum T) (.inr o)

namespace Prog

@[simp] theorem interp_ret (f : Layer S T) (a : α) : (Prog.ret a).interp f = .ret a := rfl

@[simp] theorem interp_op (f : Layer S T) (o : S.Op) (k : S.Res o → Prog S α) :
    (Prog.op o k).interp f = f o >>= fun r => (k r).interp f := rfl

@[simp] theorem interp_bind (f : Layer S T) (p : Prog S α) (g : α → Prog S β) :
    (p >>= g).interp f = p.interp f >>= fun a => (g a).interp f := by
  induction p with
  | ret a => rfl
  | op o k ih => simp only [op_bind, interp_op, ih, bind_assoc]

@[simp] theorem right_ret (a : α) : (Prog.ret a : Prog T α).right S = .ret a := rfl

@[simp] theorem right_op (o : T.Op) (k : T.Res o → Prog T α) :
    (Prog.op o k).right S = .op (S := S.sum T) (.inr o) fun r => (k r).right S := rfl

@[simp] theorem right_bind (p : Prog T α) (g : α → Prog T β) :
    (p >>= g).right S = p.right S >>= fun a => (g a).right S := interp_bind _ p g

end Prog

/-- A handler that runs the implementations. -/
theorem run_interp {h : Handler S σ} {h' : Handler T σ} {f : Layer S T}
    (hf : ∀ o s, run h' (f o) s = h o s) (p : Prog S α) (s : σ) :
    run h' (p.interp f) s = run h p s := by
  induction p generalizing s with
  | ret a => rfl
  | op o k ih => rw [Prog.interp_op, run_bind, hf, run_op, ih]

/-- A monitor of the operations is followed when each implementation keeps its own monitor in the
relation `J` to the first one. -/
theorem Monitored.interp {N : Type} {mon : Monitor S M} {mon' : Monitor T N} {J : M → N → Prop}
    {Q : M → α → Prop} {f : Layer S T}
    (hf : ∀ m n o, mon.allows m o → J m n →
      Monitored mon' (fun n' r => J (mon.next m o r) n') (f o) n)
    {p : Prog S α} {m : M} {n : N} (hp : Monitored mon Q p m) (hJ : J m n) :
    Monitored mon' (fun n' a => ∃ m', J m' n' ∧ Q m' a) (p.interp f) n := by
  induction p generalizing m n with
  | ret a => exact ⟨m, hJ, hp⟩
  | op o k ih =>
      refine monitored_seq (hf m n o hp.1 hJ) fun n' r hJ' => ?_
      exact ih r (hp.2 r) hJ'

/-- What the implementation of every operation keeps, the program keeps. -/
theorem Confined.monitored_interp {mon : Monitor T M} {P : S.Op → Prop} {Q : α → Prop}
    {J : M → Prop} {f : Layer S T}
    (hf : ∀ o m, P o → J m → Monitored mon (fun m' _ => J m') (f o) m) {p : Prog S α}
    (hp : Confined P Q p) {m : M} (hm : J m) :
    Monitored mon (fun m' a => J m' ∧ Q a) (p.interp f) m := by
  induction p generalizing m with
  | ret a => exact ⟨hm, hp⟩
  | op o k ih => exact monitored_seq (hf o m hp.1 hm) fun m' r hm' => ih r (hp.2 r) hm'

/-- A program over the second signature does what its monitor says. -/
theorem Monitored.right {mon : Monitor T M} {Q : M → α → Prop} {p : Prog T α} {m : M}
    (h : Monitored mon Q p m) : Monitored (mon.right S) Q (p.right S) m := by
  induction p generalizing m with
  | ret a => exact h
  | op o k ih => exact ⟨h.1, fun r => ih r (h.2 r)⟩

/-- Operations of the second signature are not seen. -/
theorem monitored_right {mon : Monitor S M} (inner : M → Prop) {m : M} (hm : inner m)
    (p : Prog T α) : Monitored (mon.left T inner) (fun m' _ => m' = m) (p.right S) m := by
  induction p with
  | ret a => rfl
  | op o k ih => exact ⟨hm, ih⟩

theorem wp_right {W : World S σ} {K : World T σ} {Q : α → σ → Prop} {C : σ → Prop}
    {p : Prog T α} {s : σ} (h : wp K Q C p s) : wp (W.sum K) Q C (p.right S) s := by
  induction p generalizing s with
  | ret a => exact h
  | op o k ih => exact ⟨h.1, fun r t ht => ih r (h.2 r t ht)⟩

/-- Refinement: `J` relates the monitor and the upper state to the lower one between two
operations, `D` the states after a stop. -/
theorem wp_interp {mon : Monitor S M} {W : World S σ} {V : World T τ} {f : Layer S T}
    {J : M → σ → τ → Prop} {D : σ → τ → Prop}
    (hf : ∀ m o s t, mon.allows m o → J m s t →
      wp V (fun r t' => ∃ s', W.step s o r s' ∧ J (mon.next m o r) s' t')
        (fun t' => ∃ s', W.halt s o s' ∧ D s' t') (f o) t)
    {R : M → α → Prop} {Q : α → σ → Prop} {C : σ → Prop} {p : Prog S α} {m : M} {s : σ} {t : τ}
    (hp : Monitored mon R p m) (h : wp W Q C p s) (hJ : J m s t) :
    wp V (fun a t' => ∃ m' s', Q a s' ∧ J m' s' t') (fun t' => ∃ s', C s' ∧ D s' t')
      (p.interp f) t := by
  induction p generalizing m s t with
  | ret a => exact ⟨m, s, h, hJ⟩
  | op o k ih =>
      rw [Prog.interp_op, wp_bind]
      refine wp_mono (fun r t' hr => ?_) (fun t' hstop => ?_) (hf m o s t hp.1 hJ)
      · obtain ⟨s', hstep, hJ'⟩ := hr
        exact ih r (hp.2 r) (h.2 r s' hstep) hJ'
      · obtain ⟨s', hhalt, hD⟩ := hstop
        exact ⟨s', h.1 s' hhalt, hD⟩

/-! ### A lock beside a store -/

/-- The operations of `T` are none of the control part. -/
def Shared.left (control : Shared S I L) (T : Sig) : Shared (S.sum T) I L where
  step i s o r t :=
    match o, r with
    | .inl o, r => control.step i s o r t
    | .inr _, _ => t = s

/-- A region is one of the sum where the operations of `T` are private, or only allowed inside. -/
def Region.sum {mon : Monitor S M} {W : World S σ} (R : Region mon W) (K : World T σ)
    {inner : M → Prop} (hinner : ∀ m o, inner m → R.inside m ∨ K.Private o) :
    Region (mon.left T inner) (W.sum K) where
  entered := R.entered
  inside := R.inside
  entered_of_inside := R.entered_of_inside
  entered_next
    | .inl o, r, h => R.entered_next o r h
    | .inr _, _, h => h
  inside_of_next
    | .inl o, r, h, hentered => R.inside_of_next o r h hentered
    | .inr _, _, h, _ => h
  inside_of_entry
    | .inl o, r, h, hnot => R.inside_of_entry o r h hnot
    | .inr _, _, h, hnot => absurd h hnot
  isPrivate {m o} hallows hnot := by
    cases o with
    | inl o =>
        have hprivate := R.isPrivate hallows hnot
        exact ⟨fun s r t h => hprivate.kept s r t h, fun s r t h => hprivate.anywhere s r t h,
          fun s t h => hprivate.halted s t h⟩
    | inr o =>
        have hprivate := (hinner m o hallows).resolve_left hnot
        exact ⟨fun s r t h => hprivate.kept s r t h, fun s r t h => hprivate.anywhere s r t h,
          fun s t h => hprivate.halted s t h⟩

end Effects
