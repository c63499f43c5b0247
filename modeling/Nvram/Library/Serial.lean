import Nvram.Library.Interleave
import Mathlib.Data.List.Nodup

/-!
# Serialisability under a lock

The processes of a pool share a control part, such as a lock, and a store.  A process gets at
the store only while it is inside a region that no two processes are in at once, and it enters
the region at most once.  Then every reachable state is one that the processes reach when they
run one after the other, in the order in which they entered.

* `World.watch` is a world with a monitor that looks on.
* `Part` is a part of an execution in a world: what is left of the program, and the state.
* `Steps` takes one step for each of a list, in turn; a step of `Comes` is a process that runs by
  itself as far as it has come.
* `Pool.Enters` is reachability that records which processes enter, in the order in which they do.
* `Region` says which monitor states are inside, and that outside nothing but `Private`
  operations is allowed.
* `Serial` is what holds of a state with its order of entries; `Serial.stay` and `Serial.enter`
  keep it, and `Pool.Enters.serial` and `Pool.Enters.serial_from` are what follows for whole runs.
* `Pool.Enters.simulates` is the rule for a specification that every process meets by itself.
-/

namespace Effects

variable {S : Sig} {α I L M σ : Type}

/-! ### A monitor beside a world -/

/-- The world with a monitor that looks on. -/
def World.watch (W : World S σ) (mon : Monitor S M) : World S (σ × M) where
  step s o r t := W.step s.1 o r t.1 ∧ t.2 = mon.next s.2 o r
  halt s o t := W.halt s.1 o t.1 ∧ t.2 = s.2

/-- What a program does in a world and where its monitor stands then, taken together. -/
theorem wp_watch {W : World S σ} {mon : Monitor S M} {Q : α → σ → Prop} {C : σ → Prop}
    {R : M → α → Prop} {p : Prog S α} {s : σ} {m : M} (hp : wp W Q C p s)
    (hm : Monitored mon R p m) :
    wp (W.watch mon) (fun a t => Q a t.1 ∧ R t.2 a) (fun t => C t.1) p (s, m) := by
  induction p generalizing s m with
  | ret a => exact ⟨hp, hm⟩
  | op o k ih =>
      refine ⟨fun t ht => hp.1 t.1 ht.1, fun r t ht => ?_⟩
      obtain ⟨t, m'⟩ := t
      obtain ⟨hW, rfl⟩ := ht
      exact ih r (hp.2 r t hW) (hm.2 r)

/-- A monitor that sees less may look on instead. -/
theorem Exec.watch_map {M' : Type} {W : World S σ} {mon : Monitor S M} {mon' : Monitor S M'}
    (f : M → M') (hnext : ∀ m o r, f (mon.next m o r) = mon'.next (f m) o r) {p : Prog S α}
    {s t : σ × M} {out : Option α} (h : Exec (W.watch mon) p s out t) :
    Exec (W.watch mon') p (s.1, f s.2) out (t.1, f t.2) := by
  have hstep : ∀ s o r t, (W.watch mon).step s o r t →
      (W.watch mon').step (s.1, f s.2) o r (t.1, f t.2) :=
    fun s o r t h => ⟨h.1, (congrArg f h.2).trans (hnext s.2 o r)⟩
  have hhalt : ∀ s o t, (W.watch mon).halt s o t →
      (W.watch mon').halt (s.1, f s.2) o (t.1, f t.2) :=
    fun s o t h => ⟨h.1, congrArg f h.2⟩
  exact h.map (fun s => (s.1, f s.2)) hstep hhalt

/-! ### Parts of executions -/

/-- From `s`, what `p` has issued so far leaves `q` to do and the state `t`. -/
inductive Part (W : World S σ) : Prog S α → σ → Prog S α → σ → Prop where
  | refl (p : Prog S α) (s : σ) : Part W p s p s
  | step {o : S.Op} {k : S.Res o → Prog S α} {r : S.Res o} {s t u : σ} {q : Prog S α} :
      W.step s o r t → Part W (k r) t q u → Part W (.op o k) s q u

namespace Part

variable {W : World S σ} {p q q' : Prog S α} {s t u : σ}

theorem trans (h : Part W p s q t) (h' : Part W q t q' u) : Part W p s q' u := by
  induction h with
  | refl p s => exact h'
  | step hstep _ ih => exact .step hstep (ih h')

/-- One more operation. -/
theorem snoc {o : S.Op} {k : S.Res o → Prog S α} {r : S.Res o}
    (h : Part W p s (.op o k) t) (hstep : W.step t o r u) : Part W p s (k r) u :=
  h.trans (.step hstep (.refl _ _))

/-- A part goes on as its rest does. -/
theorem exec (h : Part W p s q t) {out : Option α} (hq : Exec W q t out u) :
    Exec W p s out u := by
  induction h with
  | refl p s => exact hq
  | step hstep _ ih => exact .step hstep (ih hq)

end Part

/-- What is left of a program: its value, or nothing while it has not returned. -/
def Prog.value? : Prog S α → Option α
  | .ret a => some a
  | .op _ _ => none

/-- Where an operation can be stopped without effect, a part is an execution that stops. -/
theorem Part.exec_value {W : World S σ} (hhalt : ∀ s o, W.halt s o s) {p q : Prog S α} {s t : σ}
    (h : Part W p s q t) : Exec W p s q.value? t := by
  cases q with
  | ret a => exact h.exec (.ret a t)
  | op o k => exact h.exec (.halt (hhalt t o))

/-- A program with its monitor comes from `start` to `now`, and the state from `s` to `t`. -/
def Comes (W : World S σ) (mon : Monitor S M) (start now : Prog S α × M) (s t : σ) : Prop :=
  Part (W.watch mon) start.1 (s, start.2) now.1 (t, now.2)

/-- One step for each of a list, in turn. -/
inductive Steps {X : Type} (Step : I → X → X → Prop) : List I → X → X → Prop where
  | nil (x : X) : Steps Step [] x x
  | snoc {order : List I} {i : I} {x y z : X} : Steps Step order x y → Step i y z →
      Steps Step (order ++ [i]) x z

namespace Steps

variable {X Y : Type} {Step Step' : I → X → X → Prop} {order : List I} {i : I} {x y : X}

theorem of_snoc (h : Steps Step (order ++ [i]) x y) :
    ∃ z, Steps Step order x z ∧ Step i z y := by
  generalize hfull : order ++ [i] = full at h
  cases h with
  | nil x => simp at hfull
  | snoc hfront hlast =>
      obtain ⟨rfl, hi⟩ := List.append_inj' hfull rfl
      obtain rfl := List.singleton_inj.mp hi
      exact ⟨_, hfront, hlast⟩

theorem mono (h : Steps Step order x y)
    (hstep : ∀ j ∈ order, ∀ u v, Step j u v → Step' j u v) : Steps Step' order x y := by
  induction h with
  | nil x => exact .nil x
  | snoc _ hlast ih =>
      refine .snoc (ih fun j hj => hstep j (List.mem_append_left _ hj)) ?_
      exact hstep _ (by simp) _ _ hlast

/-- Where every step is one of a specification, the list takes the steps of the specification. -/
theorem simulates {T : I → Y → Y → Prop} {J : Y → X → Prop} (h : Steps Step order x y)
    (hstep : ∀ i ∈ order, ∀ u x y, J u x → Step i x y → ∃ v, T i u v ∧ J v y) {u : Y}
    (hu : J u x) : ∃ v, Steps T order u v ∧ J v y := by
  induction h with
  | nil x => exact ⟨u, .nil u, hu⟩
  | snoc _ hlast ih =>
      obtain ⟨v, hsteps, hv⟩ := ih (fun j hj => hstep j (List.mem_append_left _ hj)) hu
      obtain ⟨w, hlast, hw⟩ := hstep _ (by simp) v _ _ hv hlast
      exact ⟨w, hsteps.snoc hlast, hw⟩

end Steps

/-! ### The order of entries -/

namespace Pool

section

variable [DecidableEq I]

/-- Reachable from `c₀` by steps that meet `ok`; `order` are the processes whose monitors come to
`entered`, in the order in which they come there. -/
inductive Enters (mon : Monitor S M) (W : Shared S I σ) (ok : σ → I → S.Op → Prop)
    (entered : M → Prop) (c₀ : Pool S α I M σ) : Pool S α I M σ → List I → Prop where
  | start : Enters mon W ok entered c₀ c₀ []
  | stay {c : Pool S α I M σ} {order : List I} {i : I} {o : S.Op} {k : S.Res o → Prog S α}
      {r : S.Res o} {t : σ} : Enters mon W ok entered c₀ c order → c.prog i = .op o k →
      ok c.shared i o → W.step i c.shared o r t →
      (entered (mon.next (c.mon i) o r) → entered (c.mon i)) →
      Enters mon W ok entered c₀ (c.resume mon i o r (k r) t) order
  | enter {c : Pool S α I M σ} {order : List I} {i : I} {o : S.Op} {k : S.Res o → Prog S α}
      {r : S.Res o} {t : σ} : Enters mon W ok entered c₀ c order → c.prog i = .op o k →
      ok c.shared i o → W.step i c.shared o r t → ¬ entered (c.mon i) →
      entered (mon.next (c.mon i) o r) →
      Enters mon W ok entered c₀ (c.resume mon i o r (k r) t) (order ++ [i])

variable {mon : Monitor S M} {W : Shared S I σ} {ok : σ → I → S.Op → Prop} {entered : M → Prop}
  {c₀ c c' : Pool S α I M σ} {order more : List I}

theorem Enters.reach (h : Enters mon W ok entered c₀ c order) : Reach mon W ok c₀ c := by
  induction h with
  | start => exact .start
  | stay _ hprog hok hstep _ ih => exact .step ih hprog hok hstep
  | enter _ hprog hok hstep _ _ ih => exact .step ih hprog hok hstep

/-- Whatever is reached is reached with some order of entries. -/
theorem Reach.exists_enters (h : Reach mon W ok c₀ c) :
    ∃ order, Enters mon W ok entered c₀ c order := by
  induction h with
  | start => exact ⟨[], .start⟩
  | step _ hprog hok hstep ih =>
      rename_i c i o k r t _
      obtain ⟨order, horder⟩ := ih
      by_cases hentry : entered (mon.next (c.mon i) o r) ∧ ¬ entered (c.mon i)
      · exact ⟨order ++ [i], .enter horder hprog hok hstep hentry.2 hentry.1⟩
      · exact ⟨order, .stay horder hprog hok hstep fun hnow => by_contra fun hnot =>
          hentry ⟨hnow, hnot⟩⟩

/-- What happens afterwards extends the order. -/
theorem Enters.trans (h : Enters mon W ok entered c₀ c order)
    (h' : Enters mon W ok entered c c' more) :
    Enters mon W ok entered c₀ c' (order ++ more) := by
  induction h' with
  | start => rwa [List.append_nil]
  | stay _ hprog hok hstep hsame ih => exact .stay ih hprog hok hstep hsame
  | enter _ hprog hok hstep hnot hnow ih =>
      rw [← List.append_assoc]
      exact .enter ih hprog hok hstep hnot hnow

/-- The processes that come to `entered` along a schedule, in the order in which they do. -/
def entries (mon : Monitor S M) (h : I → Handler S σ) (entered : M → Prop)
    [DecidablePred entered] : List I → Pool S α I M σ → List I
  | [], _ => []
  | i :: is, c =>
    if entered ((c.advance mon h i).mon i) ∧ ¬ entered (c.mon i) then
      i :: entries mon h entered is (c.advance mon h i)
    else entries mon h entered is (c.advance mon h i)

theorem enters_foldl_advance [DecidablePred entered] {h : I → Handler S σ}
    (hW : ∀ i s o, W.step i s o (h i o s).1 (h i o s).2) (schedule : List I)
    {c : Pool S α I M σ} (hmeets : Meets mon h ok schedule c) :
    Enters mon W ok entered c (schedule.foldl (advance mon h) c)
      (entries mon h entered schedule c) := by
  induction schedule generalizing c with
  | nil => exact .start
  | cons i is ih =>
      obtain ⟨hok, hrest⟩ := hmeets
      have hend := ih hrest
      rw [List.foldl_cons, entries]
      cases hprog : c.prog i with
      | ret a =>
          have hsame : c.advance mon h i = c := by
            unfold advance
            rw [hprog]
          rw [hsame] at hend ⊢
          rwa [if_neg fun hentry => hentry.2 hentry.1]
      | op o k =>
          rw [hprog] at hok
          have hnext : c.advance mon h i = c.resume mon i o (h i o c.shared).1
              (k (h i o c.shared).1) (h i o c.shared).2 := by
            unfold advance
            rw [hprog]
          have hmon : (c.advance mon h i).mon i = mon.next (c.mon i) o (h i o c.shared).1 := by
            rw [hnext]
            exact Function.update_self ..
          rw [hmon]
          rw [hnext] at hend ⊢
          split
          · rename_i hentry
            exact (Enters.start.enter hprog hok (hW i c.shared o) hentry.2 hentry.1).trans hend
          · rename_i hentry
            exact (Enters.start.stay hprog hok (hW i c.shared o) fun hnow => by_contra fun hnot =>
              hentry ⟨hnow, hnot⟩).trans hend

end

end Pool

/-! ### A lock beside a store -/

/-- A shared control part beside a store: both have a say in every answer. -/
def Shared.beside (control : Shared S I L) (W : World S σ) : Shared S I (L × σ) where
  step i s o r t := control.step i s.1 o r t.1 ∧ W.step s.2 o r t.2

/-- The answer does not depend on the store, and the store stays as it is. -/
structure World.Private (W : World S σ) (o : S.Op) : Prop where
  kept : ∀ s r t, W.step s o r t → t = s
  anywhere : ∀ s r t, W.step s o r t → ∀ u, W.step u o r u
  halted : ∀ s t, W.halt s o t → t = s

namespace Pool

/-- A process with its monitor. -/
def process (c : Pool S α I M σ) (i : I) : Prog S α × M := (c.prog i, c.mon i)

variable [DecidableEq I] (mon : Monitor S M) (c : Pool S α I M σ)

theorem resume_mon_self (i : I) (o : S.Op) (r : S.Res o) (p : Prog S α) (t : σ) :
    (c.resume mon i o r p t).mon i = mon.next (c.mon i) o r :=
  Function.update_self ..

theorem resume_mon_of_ne {i j : I} (h : i ≠ j) (o : S.Op) (r : S.Res o) (p : Prog S α) (t : σ) :
    (c.resume mon j o r p t).mon i = c.mon i :=
  Function.update_of_ne h ..

theorem resume_process_self (i : I) (o : S.Op) (r : S.Res o) (p : Prog S α) (t : σ) :
    (c.resume mon i o r p t).process i = (p, mon.next (c.mon i) o r) := by
  rw [process, resume_prog_self, resume_mon_self]

/-- What another process has done so far is as it was. -/
theorem resume_process_of_ne {i j : I} (h : i ≠ j) (o : S.Op) (r : S.Res o) (p : Prog S α)
    (t : σ) : (c.resume mon j o r p t).process i = c.process i := by
  rw [process, resume_prog_of_ne h, resume_mon_of_ne mon c h, process]

end Pool

/-- A region of monitor states outside which the store is not touched.  It is entered once. -/
structure Region (mon : Monitor S M) (W : World S σ) where
  entered : M → Prop
  inside : M → Prop
  entered_of_inside : ∀ {m}, inside m → entered m
  entered_next : ∀ {m} o r, entered m → entered (mon.next m o r)
  inside_of_next : ∀ {m} o r, inside (mon.next m o r) → entered m → inside m
  inside_of_entry : ∀ {m} o r, entered (mon.next m o r) → ¬ entered m → inside (mon.next m o r)
  isPrivate : ∀ {m o}, mon.allows m o → ¬ inside m → W.Private o

/-- The state is one of a serial execution: the processes that have entered run in the order
of their entries, and the others have not touched the store. -/
structure Serial {mon : Monitor S M} {W : World S σ} (R : Region mon W)
    (c₀ c : Pool S α I M (L × σ)) (order : List I) : Prop where
  nodup : order.Nodup
  mem_iff : ∀ i, i ∈ order ↔ R.entered (c.mon i)
  last : ∀ i, R.inside (c.mon i) → order.getLast? = some i
  chain : Steps (fun i => Comes W mon (c₀.process i) (c.process i)) order c₀.shared.2 c.shared.2
  untouched : ∀ i, i ∉ order → ∀ s, Comes W mon (c₀.process i) (c.process i) s s

namespace Serial

variable {mon : Monitor S M} {W : World S σ} {R : Region mon W} {c₀ c : Pool S α I M (L × σ)}
  {order : List I}

theorem start {c₀ : Pool S α I M (L × σ)} (houtside : ∀ i, ¬ R.entered (c₀.mon i)) :
    Serial R c₀ c₀ [] where
  nodup := List.nodup_nil
  mem_iff i := ⟨fun h => (by cases h), fun h => (houtside i h).elim⟩
  last i h := (houtside i (R.entered_of_inside h)).elim
  chain := .nil _
  untouched _ _ s := .refl _ _

section

variable [DecidableEq I] (h : Serial R c₀ c order) {i : I} {o : S.Op} {k : S.Res o → Prog S α}
  {r : S.Res o} {l : L} {t : σ} (hprog : c.prog i = .op o k)

include h

/-- Entries and the process inside, when the entries stay the same. -/
theorem kept (hsame : R.entered (mon.next (c.mon i) o r) ↔ R.entered (c.mon i)) :
    (∀ j, j ∈ order ↔ R.entered ((c.resume mon i o r (k r) (l, t)).mon j)) ∧
      ∀ j, R.inside ((c.resume mon i o r (k r) (l, t)).mon j) → order.getLast? = some j := by
  refine ⟨fun j => ?_, fun j hj => ?_⟩
  · by_cases hji : j = i
    · subst hji
      rw [Pool.resume_mon_self, hsame]
      exact h.mem_iff j
    · rw [Pool.resume_mon_of_ne mon c hji]
      exact h.mem_iff j
  · by_cases hji : j = i
    · subst hji
      rw [Pool.resume_mon_self] at hj
      exact h.last j (R.inside_of_next o r hj (hsame.mp (R.entered_of_inside hj)))
    · rw [Pool.resume_mon_of_ne mon c hji] at hj
      exact h.last j hj

include hprog

omit h in
/-- One more operation of a process. -/
theorem comes_snoc {s u v : σ} (hcomes : Comes W mon (c₀.process i) (c.process i) s u)
    (hW : W.step u o r v) :
    Comes W mon (c₀.process i) ((c.resume mon i o r (k r) (l, t)).process i) s v := by
  rw [Comes, Pool.process, Pool.process, hprog] at hcomes
  rw [Pool.resume_process_self]
  exact hcomes.snoc ⟨hW, rfl⟩

omit h in
/-- A private operation can be issued wherever the process stands in the serial order. -/
theorem comes_private (hprivate : W.Private o) (hW : W.step c.shared.2 o r c.shared.2) {j : I}
    {s u : σ} (hcomes : Comes W mon (c₀.process j) (c.process j) s u) :
    Comes W mon (c₀.process j) ((c.resume mon i o r (k r) (l, t)).process j) s u := by
  by_cases hj : j = i
  · subst hj
    exact comes_snoc hprog hcomes (hprivate.anywhere _ _ _ hW u)
  · rwa [Pool.resume_process_of_ne mon c hj]

/-- The process inside is the last one of the order, and goes on there. -/
theorem step_inside (hinside : R.inside (c.mon i)) (hW : W.step c.shared.2 o r t) :
    Serial R c₀ (c.resume mon i o r (k r) (l, t)) order := by
  have hentered := R.entered_of_inside hinside
  obtain ⟨hmem, hlast⟩ := h.kept (k := k) (r := r) (l := l) (t := t)
    ⟨fun _ => hentered, fun _ => R.entered_next o r hentered⟩
  obtain ⟨front, hfront⟩ := List.getLast?_eq_some_iff.mp (h.last i hinside)
  have hnodup := h.nodup
  have hchain := h.chain
  rw [hfront] at hnodup hchain
  obtain ⟨u, hbefore, hnow⟩ := hchain.of_snoc
  refine ⟨h.nodup, hmem, hlast, ?_, fun j hj s => ?_⟩
  · rw [hfront]
    refine .snoc (hbefore.mono fun j hj u v hcomes => ?_) (comes_snoc hprog hnow hW)
    have hji : j ≠ i := by
      rintro rfl
      exact (List.nodup_append.mp hnodup).2.2 j hj j List.mem_cons_self rfl
    rwa [Pool.resume_process_of_ne mon c hji]
  · have hji : j ≠ i := by
      rintro rfl
      exact hj ((h.mem_iff j).mpr hentered)
    rw [Pool.resume_process_of_ne mon c hji]
    exact h.untouched j hj s

section

variable (hprivate : W.Private o) (hW : W.step c.shared.2 o r c.shared.2)

include hprivate hW

/-- A private operation of a process that does not enter. -/
theorem step_private (hsame : R.entered (mon.next (c.mon i) o r) ↔ R.entered (c.mon i)) :
    Serial R c₀ (c.resume mon i o r (k r) (l, c.shared.2)) order := by
  obtain ⟨hmem, hlast⟩ := h.kept (k := k) (l := l) (t := c.shared.2) hsame
  refine ⟨h.nodup, hmem, hlast, ?_, fun j hj s => ?_⟩
  · exact h.chain.mono fun j _ u v => comes_private hprog hprivate hW
  · exact comes_private hprog hprivate hW (h.untouched j hj s)

/-- A process that enters is appended to the order. -/
theorem step_entry (henters : R.entered (mon.next (c.mon i) o r)) (hnot : ¬ R.entered (c.mon i))
    (hexcl : ∀ j, R.inside ((c.resume mon i o r (k r) (l, c.shared.2)).mon j) → j = i) :
    Serial R c₀ (c.resume mon i o r (k r) (l, c.shared.2)) (order ++ [i]) := by
  have hfresh : i ∉ order := fun hi => hnot ((h.mem_iff i).mp hi)
  have huntouched : ∀ j, j ∉ order → ∀ s, Comes W mon (c₀.process j)
      ((c.resume mon i o r (k r) (l, c.shared.2)).process j) s s :=
    fun j hj s => comes_private hprog hprivate hW (h.untouched j hj s)
  refine ⟨?_, fun j => ?_, fun j hj => ?_, ?_, fun j hj => ?_⟩
  · rw [← List.concat_eq_append]
    exact h.nodup.concat hfresh
  · rw [List.mem_append, List.mem_singleton]
    by_cases hji : j = i
    · subst hji
      rw [Pool.resume_mon_self]
      exact iff_of_true (Or.inr rfl) henters
    · rw [Pool.resume_mon_of_ne mon c hji, ← h.mem_iff j]
      simp [hji]
  · rw [hexcl j hj, List.getLast?_concat]
  · exact .snoc (h.chain.mono fun j _ u v => comes_private hprog hprivate hW)
      (huntouched i hfresh _)
  · rw [List.mem_append, not_or] at hj
    exact huntouched j hj.1

end

/-- One operation of a process that does not enter. -/
theorem stay (hallows : mon.allows (c.mon i) o) (hW : W.step c.shared.2 o r t)
    (hsame : R.entered (mon.next (c.mon i) o r) → R.entered (c.mon i)) :
    Serial R c₀ (c.resume mon i o r (k r) (l, t)) order := by
  by_cases hinside : R.inside (c.mon i)
  · exact h.step_inside hprog hinside hW
  · have hprivate := R.isPrivate hallows hinside
    obtain rfl : t = c.shared.2 := hprivate.kept _ _ _ hW
    exact h.step_private hprog hprivate hW ⟨hsame, R.entered_next o r⟩

/-- The operation with which a process enters. -/
theorem enter (hallows : mon.allows (c.mon i) o) (hW : W.step c.shared.2 o r t)
    (hnot : ¬ R.entered (c.mon i)) (henters : R.entered (mon.next (c.mon i) o r))
    (hexcl : ∀ j, R.inside ((c.resume mon i o r (k r) (l, t)).mon j) →
      R.inside ((c.resume mon i o r (k r) (l, t)).mon i) → j = i) :
    Serial R c₀ (c.resume mon i o r (k r) (l, t)) (order ++ [i]) := by
  have hprivate := R.isPrivate hallows fun hinside => hnot (R.entered_of_inside hinside)
  obtain rfl : t = c.shared.2 := hprivate.kept _ _ _ hW
  refine h.step_entry hprog hprivate hW henters hnot fun j hj => hexcl j hj ?_
  rw [Pool.resume_mon_self]
  exact R.inside_of_entry o r henters hnot

end

end Serial

/-! ### All processes stopped at once -/

/-- No process is in an operation, or one is in the operation that it has issued. -/
def Pool.Stopped (W : World S σ) (c : Pool S α I M (L × σ)) (t : σ) : Prop :=
  t = c.shared.2 ∨ ∃ i o k, c.prog i = .op o k ∧ W.halt c.shared.2 o t

/-- When all processes are stopped, each that has entered has executed to its value or to a stop,
in the order of the entries. -/
theorem Serial.execs {mon : Monitor S M} {W : World S σ} {R : Region mon W}
    {c₀ c : Pool S α I M (L × σ)} {order : List I} (h : Serial R c₀ c order)
    (hself : ∀ s o, W.halt s o s) {Q : M → α → Prop}
    (hprogs : ∀ i, Monitored mon Q (c.prog i) (c.mon i)) {t : σ} (hstop : c.Stopped W t) :
    Steps (fun i s t => Exec (W.watch mon) (c₀.prog i) (s, c₀.mon i) (c.prog i).value?
      (t, c.mon i)) order c₀.shared.2 t := by
  have hwatch : ∀ s o, (W.watch mon).halt s o s := fun s o => ⟨hself s.1 o, rfl⟩
  have hexec : ∀ i u v, Comes W mon (c₀.process i) (c.process i) u v →
      Exec (W.watch mon) (c₀.prog i) (u, c₀.mon i) (c.prog i).value? (v, c.mon i) :=
    fun i u v hcomes => hcomes.exec_value hwatch
  rcases hstop with rfl | ⟨i, o, k, hprog, hhalt⟩
  · exact h.chain.mono fun i _ => hexec i
  · have hallows := hprogs i
    rw [hprog] at hallows
    by_cases hinside : R.inside (c.mon i)
    · obtain ⟨front, hfront⟩ := List.getLast?_eq_some_iff.mp (h.last i hinside)
      have hchain := h.chain
      rw [hfront] at hchain ⊢
      obtain ⟨u, hbefore, hlast⟩ := hchain.of_snoc
      refine .snoc (hbefore.mono fun i _ => hexec i) ?_
      rw [Comes, Pool.process, Pool.process, hprog] at hlast
      rw [hprog]
      exact hlast.exec (.halt ⟨hhalt, rfl⟩)
    · rw [(R.isPrivate hallows.1 hinside).halted _ _ hhalt]
      exact h.chain.mono fun i _ => hexec i

/-! ### Runs -/

namespace Pool.Enters

variable [DecidableEq I] {mon : Monitor S M} {control : Shared S I L} {W : World S σ}
  {ok : L × σ → I → S.Op → Prop} {c₀ c c' : Pool S α I M (L × σ)} {R : Region mon W}
  {Q : M → α → Prop} {order more : List I}

/-- From a state with a serial order on, the order is extended by those that enter. -/
theorem serial_from (hprogs : ∀ i, Monitored mon Q (c₀.prog i) (c₀.mon i))
    (hexcl : ∀ c, Pool.Reach mon (control.beside W) ok c₀ c →
      ∀ i j, R.inside (c.mon i) → R.inside (c.mon j) → i = j)
    (h : Pool.Reach mon (control.beside W) ok c₀ c) (horder : Serial R c₀ c order)
    (h' : Pool.Enters mon (control.beside W) ok R.entered c c' more) :
    Serial R c₀ c' (order ++ more) := by
  induction h' with
  | start => rwa [List.append_nil]
  | stay hbefore hprog hok hW hsame ih =>
      rename_i c₁ more i o k r t
      have hmonitored := (h.trans hbefore.reach).monitored hprogs i
      rw [hprog] at hmonitored
      exact ih.stay hprog hmonitored.1 hW.2 hsame
  | enter hbefore hprog hok hW hnot hnow ih =>
      rename_i c₁ more i o k r t
      have hreach := h.trans hbefore.reach
      have hmonitored := hreach.monitored hprogs i
      rw [hprog] at hmonitored
      rw [← List.append_assoc]
      exact ih.enter hprog hmonitored.1 hW.2 hnot hnow
        fun j hj hi => hexcl _ (hreach.step hprog hok hW) j i hj hi

/-- Every reachable state is one of a serial execution in the order of the entries. -/
theorem serial (hprogs : ∀ i, Monitored mon Q (c₀.prog i) (c₀.mon i))
    (houtside : ∀ i, ¬ R.entered (c₀.mon i))
    (hexcl : ∀ c, Pool.Reach mon (control.beside W) ok c₀ c →
      ∀ i j, R.inside (c.mon i) → R.inside (c.mon j) → i = j)
    (h : Pool.Enters mon (control.beside W) ok R.entered c₀ c order) : Serial R c₀ c order :=
  serial_from hprogs hexcl .start (Serial.start houtside) h

/-- Where every process that has entered does by itself what a specification does, the pool does
so in the order of the entries, wherever it is stopped. -/
theorem simulates {Y : Type} {T : I → Y → Y → Prop} {J : Y → σ → Prop}
    (hprogs : ∀ i, Monitored mon Q (c₀.prog i) (c₀.mon i))
    (houtside : ∀ i, ¬ R.entered (c₀.mon i))
    (hexcl : ∀ c, Pool.Reach mon (control.beside W) ok c₀ c →
      ∀ i j, R.inside (c.mon i) → R.inside (c.mon j) → i = j)
    (hself : ∀ s o, W.halt s o s)
    (h : Pool.Enters mon (control.beside W) ok R.entered c₀ c order) {t : σ}
    (hstop : c.Stopped W t)
    (hexec : ∀ i, R.entered (c.mon i) → ∀ y u v, J y u →
      Exec (W.watch mon) (c₀.prog i) (u, c₀.mon i) (c.prog i).value? (v, c.mon i) →
      ∃ y', T i y y' ∧ J y' v) {y : Y} (hy : J y c₀.shared.2) :
    ∃ y', order.Nodup ∧ (∀ i, i ∈ order ↔ R.entered (c.mon i)) ∧ Steps T order y y' ∧ J y' t := by
  have horder := h.serial hprogs houtside hexcl
  obtain ⟨y', hsteps, hend⟩ := (horder.execs hself (h.reach.monitored hprogs) hstop).simulates
    (fun i hi y u v hu hi' => hexec i ((horder.mem_iff i).mp hi) y u v hu hi') hy
  exact ⟨y', horder.nodup, horder.mem_iff, hsteps, hend⟩

end Pool.Enters

end Effects
