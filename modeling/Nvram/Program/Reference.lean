import Nvram.Program.Invocation

/-!
# The reference machine

What the program is for: a system map and a user map from C strings to C strings.  A batch of
sets and deletes leaves every key of one map as the last operation on it says.  A get answers
from the system map, else from the user map, and a list prints both.  `Represents` says when a
list of libnvram stands for a map.
-/

namespace Nvram

/-- What every key is set to. -/
abbrev Settings := CString → Option CString

/-- The settings of the system side (`true`) and of the user side. -/
abbrev Maps := Bool → Settings

/-! ### Changes -/

/-- What an operation says about a key: its value, or that it has none. -/
def Operation.setting? (key : CString) : Operation → Option (Option CString)
  | .set k value => if k = key then some (some value) else none
  | .del k => if k = key then some none else none
  | _ => none

/-- The settings after a batch: every key is as the last operation on it says. -/
def Settings.after (m : Settings) (operations : List Operation) : Settings := fun key =>
  (operations.filterMap (Operation.setting? key)).getLast?.getD (m key)

/-- The maps after a batch on the side that the mode writes. -/
def Maps.after (maps : Maps) (mode : Mode) (operations : List Operation) : Maps :=
  Function.update maps mode.systemWrite ((maps mode.systemWrite).after operations)

/-! ### Queries -/

/-- The settings in some order, every key once. -/
structure Enumerates (texts : List (CString × CString)) (m : Settings) : Prop where
  distinct : (texts.map Prod.fst).Nodup
  mem_iff : ∀ key value, (key, value) ∈ texts ↔ m key = some value

section

variable (maps : Maps) (mode : Mode)

/-- The value that a get finds: the one of the system side, else the one of the user side, of
those that may be read. -/
def visible (key : CString) : Option CString :=
  (if mode.systemRead then maps true key else none).or
    (if mode.userRead then maps false key else none)

variable (texts : Bool → List (CString × CString))

/-- What a list prints: the system side, then the user side, of those that may be read. -/
def listing : Bytes :=
  (if mode.systemRead then (texts true).flatMap textRow else []) ++
    (if mode.userRead then (texts false).flatMap textRow else [])

/-- What a batch of queries prints, and whether it succeeds; it ends at a key that is not
found. -/
def answer : List Operation → Bytes × Bool
  | [] => ([], true)
  | .get key :: operations =>
    match visible maps mode key with
    | none => ([], false)
    | some value => (value.bytes ++ newline :: (answer operations).1, (answer operations).2)
  | .list :: operations =>
    (listing mode texts ++ (answer operations).1, (answer operations).2)
  | _ :: operations => answer operations

end

/-! ### Steps -/

/-- One call of the program, with arguments as the system passes them: none is longer than an
`int` can say. -/
structure Invocation where
  env : Environ
  args : List CString
  short : ∀ arg ∈ args, arg.strlen < intMax

/-- What is seen of an invocation: whether it succeeded, and what it printed. -/
structure Observation where
  success : Bool
  printed : Bytes
  deriving DecidableEq

section

variable (lib : Libnvram) (crc32 : Bytes → UInt32) (cfg : BuildConfig)

/-- One step of the reference machine. -/
inductive RefStep (maps : Maps) (inv : Invocation) : Observation → Maps → Prop where
  /-- A rejected invocation changes nothing. -/
  | rejected : ¬ Proceeds lib crc32 cfg inv.env inv.args → RefStep maps inv ⟨false, []⟩ maps
  /-- An accepted batch of sets and deletes changes the map of the side that the mode writes. -/
  | changes {items : List Item} : Proceeds lib crc32 cfg inv.env inv.args →
      commandLine inv.args = some items → (∀ it ∈ requested items, it.Changes) →
      RefStep maps inv ⟨true, []⟩ (maps.after (lastMode items) (requested items))
  /-- An accepted batch of gets, or of lists, is answered. -/
  | shows {items : List Item} {texts : Bool → List (CString × CString)} :
      Proceeds lib crc32 cfg inv.env inv.args →
      commandLine inv.args = some items → (∀ it ∈ requested items, it.Shows) →
      (∀ system, Enumerates (texts system) (maps system)) →
      RefStep maps inv
        ⟨(answer maps (lastMode items) texts (requested items)).2,
          (answer maps (lastMode items) texts (requested items)).1⟩ maps

/-- A run of the reference machine, with what is seen of every invocation and the maps that it
leaves. -/
inductive RefRun : Maps → List Invocation → List (Observation × Maps) → Prop where
  | nil (maps : Maps) : RefRun maps [] []
  | cons {maps maps' : Maps} {inv : Invocation} {invs : List Invocation} {seen : Observation}
      {rest : List (Observation × Maps)} :
      RefStep lib crc32 cfg maps inv seen maps' → RefRun maps' invs rest →
      RefRun maps (inv :: invs) ((seen, maps') :: rest)

end

/-! ### The lists of libnvram as maps -/

/-- The list has the settings of the map, as entries of C strings. -/
structure Represents (list : List Entry) (m : Settings) : Prop where
  distinct : Keyed.Distinct Entry.key list
  texts : ∀ e ∈ list, ∃ t, e = textEntry t
  get : ∀ key, Keyed.get Entry.key list key.bytesZ = (m key).map fun value => textEntry (key, value)

theorem represents_nil : Represents [] fun _ => none :=
  ⟨Keyed.distinct_nil, fun _ h => (by cases h), fun _ => rfl⟩

theorem textEntry_injective : Function.Injective textEntry := by
  intro t t' h
  have hkey : t.1.bytesZ = t'.1.bytesZ := congrArg Entry.key h
  have hvalue : t.2.bytesZ = t'.2.bytesZ := congrArg Entry.value h
  exact Prod.ext (CString.bytesZ_injective hkey) (CString.bytesZ_injective hvalue)

/-- A list that stands for a map is an enumeration of it. -/
theorem Represents.exists_texts {list : List Entry} {m : Settings} (h : Represents list m) :
    ∃ texts, list = texts.map textEntry ∧ Enumerates texts m := by
  have htexts : ∃ texts : List (CString × CString), list = texts.map textEntry := by
    refine ⟨list.map fun e => (CString.ofBuf e.key, CString.ofBuf e.value), ?_⟩
    rw [List.map_map]
    refine (List.map_id' list).symm.trans (List.map_congr_left fun e he => ?_)
    obtain ⟨t, rfl⟩ := h.texts e he
    simp only [Function.comp_apply, textEntry, CString.ofBuf_bytesZ]
  obtain ⟨texts, rfl⟩ := htexts
  refine ⟨texts, rfl, ?_, fun key value => ?_⟩
  · have hkeys : (texts.map textEntry).map Entry.key = (texts.map Prod.fst).map CString.bytesZ := by
      rw [List.map_map, List.map_map]
      rfl
    have hnodup := h.distinct
    rw [Keyed.Distinct, hkeys] at hnodup
    exact hnodup.of_map
  · constructor
    · intro hmem
      have hentry : textEntry (key, value) ∈ texts.map textEntry := List.mem_map_of_mem hmem
      have hfound : Keyed.get Entry.key (texts.map textEntry) key.bytesZ =
          some (textEntry (key, value)) := Keyed.get_of_mem h.distinct hentry
      rw [h.get key] at hfound
      obtain ⟨value', hvalue', heq⟩ := Option.map_eq_some_iff.mp hfound
      rw [hvalue', (Prod.mk.inj (textEntry_injective heq)).2]
    · intro hsome
      have hfound := h.get key
      rw [hsome, Option.map_some] at hfound
      obtain ⟨t, ht, heq⟩ := List.mem_map.mp (Keyed.mem_of_get hfound)
      rwa [← textEntry_injective heq]

/-- What one operation says about a key of C strings is what its edit says about the entry. -/
theorem lastOf_edit (it : Operation) (operations : List Operation) (key : CString)
    (o : Option CString) :
    Keyed.lastOf Entry.key (o.map fun value => textEntry (key, value)) (edits (it :: operations))
        key.bytesZ =
      Keyed.lastOf Entry.key (((it.setting? key).getD o).map fun value => textEntry (key, value))
        (edits operations) key.bytesZ := by
  have hne : ∀ {k : CString}, k ≠ key → k.bytesZ ≠ key.bytesZ :=
    fun h heq => h (CString.bytesZ_injective heq)
  cases it with
  | list => rfl
  | get k => rfl
  | set k value =>
      show Keyed.lastOf Entry.key
        (if k.bytesZ = key.bytesZ then some (textEntry (k, value)) else _) _ _ = _
      by_cases hk : k = key
      · subst hk
        rw [if_pos rfl, Operation.setting?, if_pos rfl]
        rfl
      · rw [if_neg (hne hk), Operation.setting?, if_neg hk]
        rfl
  | del k =>
      show Keyed.lastOf Entry.key (if k.bytesZ = key.bytesZ then none else _) _ _ = _
      by_cases hk : k = key
      · subst hk
        rw [if_pos rfl, Operation.setting?, if_pos rfl]
        rfl
      · rw [if_neg (hne hk), Operation.setting?, if_neg hk]
        rfl

theorem after_cons (it : Operation) (operations : List Operation) (key : CString)
    (o : Option CString) :
    (((it :: operations).filterMap (Operation.setting? key)).getLast?).getD o =
      ((operations.filterMap (Operation.setting? key)).getLast?).getD ((it.setting? key).getD o) := by
  cases hsetting : it.setting? key with
  | none => rw [List.filterMap_cons_none hsetting, Option.getD_none]
  | some v =>
      rw [List.filterMap_cons_some hsetting, List.getLast?_cons, Option.getD_some]
      rfl

theorem lastOf_edits (operations : List Operation) (key : CString) (o : Option CString) :
    Keyed.lastOf Entry.key (o.map fun value => textEntry (key, value)) (edits operations) key.bytesZ =
      ((operations.filterMap (Operation.setting? key)).getLast?.getD o).map
        fun value => textEntry (key, value) := by
  induction operations generalizing o with
  | nil => rfl
  | cons it ops ih => rw [lastOf_edit, ih, after_cons]

/-- A batch does to a list that stands for a map what it does to the map. -/
theorem Represents.editAll {lib : Libnvram} (hl : lib.ListLaws) {list : List Entry} {m : Settings}
    (h : Represents list m) (operations : List Operation) :
    Represents (Nvram.editAll lib list (edits operations)) (m.after operations) := by
  obtain ⟨hdistinct, hget⟩ := editAll_spec hl h.distinct (edits operations)
  refine ⟨hdistinct, fun e he => ?_, fun key => ?_⟩
  · have hlast := Keyed.get_of_mem hdistinct he
    rw [hget] at hlast
    rcases Keyed.eq_or_of_lastOf Entry.key hlast with hold | hnew
    · exact h.texts e (Keyed.mem_of_get hold)
    · obtain ⟨hput, -⟩ := Keyed.mem_of_lastOf Entry.key hnew
      obtain ⟨it, -, hedit⟩ := List.mem_filterMap.mp hput
      cases it with
      | set key value =>
          cases hedit
          exact ⟨(key, value), rfl⟩
      | del key => cases hedit
      | list => cases hedit
      | get key => cases hedit
  · rw [hget, h.get key]
    exact lastOf_edits operations key (m key)

end Nvram
