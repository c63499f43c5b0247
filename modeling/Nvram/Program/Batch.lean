import Nvram.Program.Frame
import Nvram.Answers
import Nvram.Libnvram.Laws

/-!
# What a batch of changes leaves

A set and a delete are edits of the list of the writable side.  Where libnvram's lists are
finite maps, a batch leaves every key as the last edit of that key says.  The lemmas hold of
an outside on which setting an entry may fail as well as of one on which it does not.
-/

namespace Nvram

open Effects

/-! ### Edits -/

/-- A set or a delete as an edit of a list. -/
def Operation.edit? : Operation → Option (Keyed.Edit Entry Bytes)
  | .set key value => some (.put ⟨key.bytesZ, value.bytesZ⟩)
  | .del key => some (.erase key.bytesZ)
  | _ => none

theorem Operation.Changes.exists_edit {it : Operation} (h : it.Changes) :
    ∃ e, it.edit? = some e := by
  cases it with
  | set key value => exact ⟨_, rfl⟩
  | del key => exact ⟨_, rfl⟩
  | list => exact h.elim
  | get key => exact h.elim

/-- The edits of a batch. -/
def edits (operations : List Operation) : List (Keyed.Edit Entry Bytes) :=
  operations.filterMap Operation.edit?

section

variable (lib : Libnvram)

/-- The list after an edit; `none` where the source finds nothing to do. -/
def editList (list : List Entry) : Keyed.Edit Entry Bytes → Option (List Entry)
  | .put entry =>
    if (lib.listGet list entry.key).map Entry.value = some entry.value then none
    else some (lib.listSet list entry)
  | .erase key => lib.listRemove list key

/-- The list after a batch. -/
def editAll (list : List Entry) (batch : List (Keyed.Edit Entry Bytes)) : List Entry :=
  batch.foldl (fun l e => (editList lib l e).getD l) list

variable {lib}

/-- An edit finds nothing to do exactly when the list already says what it says. -/
theorem editList_eq_none_iff (hl : lib.ListLaws) {list : List Entry}
    (hlist : Keyed.Distinct Entry.key list) (e : Keyed.Edit Entry Bytes) :
    editList lib list e = none ↔ Keyed.get Entry.key list (e.key? Entry.key) = e.value := by
  cases e with
  | put entry =>
      simp only [editList, Keyed.Edit.key?, Keyed.Edit.value, hl.listGet list entry.key hlist]
      constructor
      · intro h
        split_ifs at h with hsame
        obtain ⟨found, hfound, hvalue⟩ := Option.map_eq_some_iff.mp hsame
        have hkey := Keyed.key_of_get hfound
        rw [hfound]
        cases found
        cases entry
        simp only at hkey hvalue
        rw [hkey, hvalue]
      · intro h
        rw [if_pos (by rw [h]; rfl)]
  | erase key =>
      simp only [editList, Keyed.Edit.key?, Keyed.Edit.value]
      cases hget : Keyed.get Entry.key list key with
      | none => simp [hl.listRemove_none list key hlist hget]
      | some entry =>
          obtain ⟨rest, hrest, _⟩ := hl.listRemove_some list key entry hlist hget
          simp [hrest]

theorem follows_editList (hl : lib.ListLaws) :
    Keyed.Follows Entry.key fun l e => (editList lib l e).getD l := by
  intro list e hlist
  cases hedit : editList lib list e with
  | none =>
      have hvalue := (editList_eq_none_iff hl hlist e).mp hedit
      simp only [hedit, Option.getD_none]
      refine ⟨hlist, fun k => ?_⟩
      by_cases hk : e.key? Entry.key = k
      · rw [if_pos hk, ← hk, hvalue]
      · rw [if_neg hk]
  | some rest =>
      simp only [hedit, Option.getD_some]
      cases e with
      | put entry =>
          simp only [editList] at hedit
          split_ifs at hedit
          obtain rfl := Option.some.inj hedit
          exact hl.listSet list entry hlist
      | erase key =>
          have hremove : lib.listRemove list key = some rest := hedit
          cases hget : Keyed.get Entry.key list key with
          | none =>
              rw [hl.listRemove_none list key hlist hget] at hremove
              cases hremove
          | some entry =>
              obtain ⟨rest', hrest, hdistinct, hget'⟩ :=
                hl.listRemove_some list key entry hlist hget
              obtain rfl := Option.some.inj (hrest.symm.trans hremove)
              exact ⟨hdistinct, hget'⟩

/-- A batch leaves every key as its last edit says, and the other keys alone. -/
theorem editAll_spec (hl : lib.ListLaws) {list : List Entry}
    (hlist : Keyed.Distinct Entry.key list) (batch : List (Keyed.Edit Entry Bytes)) :
    Keyed.Distinct Entry.key (editAll lib list batch) ∧
      ∀ k, Keyed.get Entry.key (editAll lib list batch) k =
        Keyed.lastOf Entry.key (Keyed.get Entry.key list k) batch k :=
  (follows_editList hl).foldl hlist batch

/-- A batch without anything to do leaves the list as it is. -/
theorem editAll_of_idle {list : List Entry} {batch : List (Keyed.Edit Entry Bytes)}
    (h : ∀ e ∈ batch, editList lib list e = none) : editAll lib list batch = list := by
  induction batch with
  | nil => rfl
  | cons e batch ih =>
      have hsame : (editList lib list e).getD list = list := by
        rw [h e List.mem_cons_self, Option.getD_none]
      unfold editAll
      rw [List.foldl_cons, hsame]
      exact ih fun e' he' => h e' (List.mem_cons_of_mem _ he')

end

/-! ### Edits as the program makes them -/

/-- The list of the side that the mode writes. -/
def ExecState.side (mode : Mode) (st : ExecState) : List Entry :=
  if mode.systemWrite then st.listSystem else st.listUser

/-- Store a list that has changed. -/
def ExecState.store (mode : Mode) (st : ExecState) (list : List Entry) : ExecState :=
  if mode.systemWrite then { st with listSystem := list, writePerformed := true }
  else { st with listUser := list, writePerformed := true }

/-- The state after an edit. -/
def ExecState.edit (lib : Libnvram) (mode : Mode) (st : ExecState)
    (e : Keyed.Edit Entry Bytes) : ExecState :=
  match editList lib (st.side mode) e with
  | none => st
  | some list => st.store mode list

@[simp] theorem ExecState.side_store (mode : Mode) (st : ExecState) (list : List Entry) :
    (st.store mode list).side mode = list := by
  unfold side store
  split <;> rfl

@[simp] theorem ExecState.writePerformed_store (mode : Mode) (st : ExecState)
    (list : List Entry) : (st.store mode list).writePerformed = true := by
  unfold store
  split <;> rfl

theorem ExecState.side_edit (lib : Libnvram) (mode : Mode) (st : ExecState)
    (e : Keyed.Edit Entry Bytes) :
    (st.edit lib mode e).side mode = (editList lib (st.side mode) e).getD (st.side mode) := by
  unfold edit
  split
  · rename_i hnone
    rw [hnone, Option.getD_none]
  · rename_i list hsome
    rw [hsome, Option.getD_some, side_store]

/-- The side after a batch, whether or not an edit found something to do. -/
theorem ExecState.side_foldl_edit (lib : Libnvram) (mode : Mode) (st : ExecState)
    (batch : List (Keyed.Edit Entry Bytes)) :
    (batch.foldl (ExecState.edit lib mode) st).side mode = editAll lib (st.side mode) batch := by
  induction batch generalizing st with
  | nil => rfl
  | cons e batch ih =>
      rw [List.foldl_cons, ih, side_edit]
      rfl

/-- An edit that is carried out sets the flag for good. -/
theorem ExecState.performed_foldl_edit (lib : Libnvram) (mode : Mode) {st : ExecState}
    (hst : st.writePerformed = true) (batch : List (Keyed.Edit Entry Bytes)) :
    (batch.foldl (ExecState.edit lib mode) st).writePerformed = true := by
  induction batch generalizing st with
  | nil => exact hst
  | cons e batch ih =>
      rw [List.foldl_cons]
      apply ih
      unfold edit
      split
      · exact hst
      · exact writePerformed_store mode st _

/-- A batch without anything to do leaves the state as it was. -/
theorem ExecState.foldl_edit_of_idle (lib : Libnvram) (mode : Mode) {st : ExecState}
    {batch : List (Keyed.Edit Entry Bytes)}
    (h : ∀ e ∈ batch, editList lib (st.side mode) e = none) :
    batch.foldl (ExecState.edit lib mode) st = st := by
  induction batch with
  | nil => rfl
  | cons e batch ih =>
      have hsame : st.edit lib mode e = st := by simp only [edit, h e List.mem_cons_self]
      rw [List.foldl_cons, hsame]
      exact ih fun e' he' => h e' (List.mem_cons_of_mem _ he')

/-- A write is performed exactly when some edit finds something to do in the list as it was
before the batch. -/
theorem ExecState.not_performed_iff (lib : Libnvram) (mode : Mode) {st : ExecState}
    (hst : st.writePerformed = false) (batch : List (Keyed.Edit Entry Bytes)) :
    (batch.foldl (ExecState.edit lib mode) st).writePerformed = false ↔
      ∀ e ∈ batch, editList lib (st.side mode) e = none := by
  constructor
  · intro h
    induction batch with
    | nil => simp
    | cons e batch ih =>
        rw [List.foldl_cons] at h
        cases hedit : editList lib (st.side mode) e with
        | none =>
            have hsame : st.edit lib mode e = st := by simp only [edit, hedit]
            rw [hsame] at h
            simpa [hedit] using ih h
        | some list =>
            have hstore : st.edit lib mode e = st.store mode list := by simp only [edit, hedit]
            rw [hstore, performed_foldl_edit lib mode (writePerformed_store mode st list)] at h
            cases h
  · intro h
    rw [foldl_edit_of_idle lib mode h]
    exact hst

/-- A batch of sets and deletes prints nothing and touches no section. -/
theorem inner_executeEach (lib : Libnvram) (mode : Mode) {operations : List Operation}
    (hops : ∀ it ∈ operations, it.Changes) (st : ExecState) :
    Confined Call.Inner (fun _ => True) (executeEach lib mode operations st) := by
  induction operations generalizing st with
  | nil => trivial
  | cons it ops ih =>
      have hit : Confined Call.Inner (fun _ => True) (it.execute lib mode st) := by
        cases it with
        | set key value =>
            exact (inner_execSet lib mode key value st).mono (fun _ h => h) fun _ _ => trivial
        | del key =>
            exact (inner_execDel lib mode key st).mono (fun _ h => h) fun _ _ => trivial
        | list => exact (hops .list List.mem_cons_self).elim
        | get key => exact (hops (.get key) List.mem_cons_self).elim
      refine confined_seq hit fun r _ => ?_
      cases r with
      | error e => trivial
      | ok st' => exact ih (fun it' hit' => hops it' (List.mem_cons_of_mem _ hit')) st'

section

variable {lib : Libnvram} {mode : Mode} {v : View} {fails : Prop}
  {A : (o : Call) → Call.Res o → Prop} (hA : Truthful lib v fails A)

include hA

theorem under_addListEntry (listName : String) (list : List Entry) (key value : CString) :
    Under A (fun r => r = .ok (editList lib list (.put ⟨key.bytesZ, value.bytesZ⟩)) ∨
        Failed fails r)
      (addListEntry lib listName list key value) := by
  simp only [addListEntry, prDbg_bind, editList]
  intro _ _
  split
  · exact Or.inl rfl
  · simp only [libnvramListSet_bind]
    intro r hr
    rcases hA.listSet list _ r hr with rfl | ⟨hfails, e, rfl⟩
    · exact Or.inl rfl
    · exact fun _ _ => Or.inr ⟨hfails, e, rfl⟩

/-- A set or a delete executes as its edit. -/
theorem under_execute_edit (hmode : mode.systemWrite = true ∨ mode.userWrite = true)
    {it : Operation} {e : Keyed.Edit Entry Bytes} (he : it.edit? = some e) (st : ExecState) :
    Under A (fun r => r = .ok (st.edit lib mode e) ∨ Failed fails r)
      (it.execute lib mode st) := by
  cases it with
  | list => cases he
  | get key => cases he
  | set key value =>
      obtain rfl := Option.some.inj he
      simp only [Operation.execute, execSet]
      cases hsw : mode.systemWrite with
      | true =>
          rw [if_pos rfl]
          refine under_seq (under_addListEntry hA _ _ _ _) fun r hr => ?_
          rcases hr with rfl | ⟨hfails, e, rfl⟩
          · simp only [ExecState.edit, ExecState.side, ExecState.store, hsw, if_true]
            cases editList lib st.listSystem _ with
            | none => exact Or.inl rfl
            | some list => exact fun _ _ => Or.inl rfl
          · exact Or.inr ⟨hfails, e, rfl⟩
      | false =>
          have huw : mode.userWrite = true := hmode.resolve_left (by simp [hsw])
          rw [if_neg Bool.false_ne_true, if_pos huw]
          refine under_seq (under_addListEntry hA _ _ _ _) fun r hr => ?_
          rcases hr with rfl | ⟨hfails, e, rfl⟩
          · simp only [ExecState.edit, ExecState.side, ExecState.store, hsw, Bool.false_eq_true,
              if_false]
            cases editList lib st.listUser _ with
            | none => exact Or.inl rfl
            | some list => exact fun _ _ => Or.inl rfl
          · exact Or.inr ⟨hfails, e, rfl⟩
  | del key =>
      obtain rfl := Option.some.inj he
      simp only [Operation.execute, execDel, removeListEntry]
      cases hsw : mode.systemWrite with
      | true =>
          rw [if_pos rfl]
          intro _ _
          simp only [ExecState.edit, ExecState.side, ExecState.store, hsw, if_true, editList]
          cases lib.listRemove st.listSystem key.bytesZ with
          | none => exact Or.inl rfl
          | some list => exact fun _ _ => Or.inl rfl
      | false =>
          have huw : mode.userWrite = true := hmode.resolve_left (by simp [hsw])
          rw [if_neg Bool.false_ne_true, if_pos huw]
          intro _ _
          simp only [ExecState.edit, ExecState.side, ExecState.store, hsw, Bool.false_eq_true,
            if_false, editList]
          cases lib.listRemove st.listUser key.bytesZ with
          | none => exact Or.inl rfl
          | some list => exact fun _ _ => Or.inl rfl

/-- A batch of sets and deletes executes as its edits. -/
theorem under_executeEach_edits (hmode : mode.systemWrite = true ∨ mode.userWrite = true)
    {operations : List Operation} (hops : ∀ it ∈ operations, it.Changes) (st : ExecState) :
    Under A (fun r => r = .ok ((edits operations).foldl (ExecState.edit lib mode) st) ∨
        Failed fails r)
      (executeEach lib mode operations st) := by
  induction operations generalizing st with
  | nil => exact Or.inl rfl
  | cons it ops ih =>
      obtain ⟨e, he⟩ := (hops it List.mem_cons_self).exists_edit
      have hrest : edits (it :: ops) = e :: edits ops := by simp [edits, he]
      rw [hrest]
      refine under_seq (under_execute_edit hA hmode he st) fun r hr => ?_
      rcases hr with rfl | ⟨hfails, e', rfl⟩
      · exact ih (fun it' hit' => hops it' (List.mem_cons_of_mem _ hit')) _
      · exact Or.inr ⟨hfails, e', rfl⟩

end

end Nvram
