import Nvram.Library.Simulation
import Nvram.Program.Queries

/-!
# The reference machine of a format that may refuse

A format may refuse settings, change them on the way, or leave a section that cannot be loaded
again.  `Keeps` says what becomes of settings that are committed, and each side of the machine
holds settings or nothing that can be loaded.
-/

namespace Nvram

open Effects Errno

/-- What the sides hold: settings, or nothing that can be loaded. -/
abbrev Kept := Bool → Option Settings

/-- The settings of the sides; a side that cannot be loaded has none. -/
def Kept.maps (kept : Kept) : Maps := fun system => (kept system).getD fun _ => none

theorem Kept.maps_of_some {kept : Kept} {system : Bool} {m : Settings} (h : kept system = some m) :
    kept.maps system = m := by
  rw [maps, h, Option.getD_some]

theorem Kept.maps_of_none {kept : Kept} {system : Bool} (h : kept system = none) :
    kept.maps system = fun _ => none := by
  rw [maps, h, Option.getD_none]

/-- What becomes of settings that are committed; settings without a result are refused. -/
abbrev Keeps := Settings → Option Settings → Prop

/-- The settings already say what the operations say. -/
def Settings.Idle (m : Settings) (operations : List Operation) : Prop :=
  ∀ it ∈ operations, ∀ key o, it.setting? key = some o → m key = o

theorem Settings.Idle.after_eq {m : Settings} {operations : List Operation}
    (h : m.Idle operations) : m.after operations = m := by
  funext key
  unfold Settings.after
  cases hlast : (operations.filterMap (Operation.setting? key)).getLast? with
  | none => rw [Option.getD_none]
  | some setting =>
      obtain ⟨it, hit, hsetting⟩ := List.mem_filterMap.mp (List.mem_of_getLast? hlast)
      rw [Option.getD_some]
      exact (h it hit key setting hsetting).symm

theorem Settings.after_append (m : Settings) (operations operations' : List Operation) :
    m.after (operations ++ operations') = (m.after operations).after operations' := by
  funext key
  unfold Settings.after
  rw [List.filterMap_append, List.getLast?_append]
  cases (operations'.filterMap (Operation.setting? key)).getLast? with
  | none => rw [Option.none_or, Option.getD_none]
  | some setting => rw [Option.some_or, Option.getD_some, Option.getD_some]

/-- The list of a side stands for what the side holds. -/
def Holds (loads : List Entry → Prop) : Option Settings → Prop
  | some m => ∃ list, loads list ∧ Represents list m
  | none => ∀ list, ¬ loads list

/-! ### Steps -/

section

variable (lib : Libnvram) (crc32 : Bytes → UInt32) (cfg : BuildConfig)

/-- The invocation gets to the lock, and the sides that it reaches can be loaded. -/
structure Starts (kept : Kept) (inv : Invocation) (items : List Item) : Prop where
  proceeds : Proceeds lib crc32 cfg inv.env inv.args
  arguments : commandLine inv.args = some items
  loaded : ∀ system, (lastMode items).reaches system = true → (kept system).isSome = true

/-- One step of the machine. -/
inductive KeepStep (keeps : Keeps) (kept : Kept) (inv : Invocation) : Observation → Kept → Prop
    where
  /-- A rejected invocation changes nothing. -/
  | rejected : ¬ Proceeds lib crc32 cfg inv.env inv.args → KeepStep keeps kept inv ⟨false, []⟩ kept
  /-- Nor does one that reaches a side that cannot be loaded. -/
  | unloaded {items : List Item} {system : Bool} : Proceeds lib crc32 cfg inv.env inv.args →
      commandLine inv.args = some items → (lastMode items).reaches system = true →
      kept system = none → KeepStep keeps kept inv ⟨false, []⟩ kept
  /-- A batch of sets and deletes without anything to do commits nothing. -/
  | idle {items : List Item} {m : Settings} : Starts lib crc32 cfg kept inv items →
      (∀ it ∈ requested items, it.Changes) → kept (lastMode items).systemWrite = some m →
      m.Idle (requested items) → KeepStep keeps kept inv ⟨true, []⟩ kept
  /-- Settings that are committed become what the format keeps of them. -/
  | committed {items : List Item} {m : Settings} {o : Option Settings} :
      Starts lib crc32 cfg kept inv items → (∀ it ∈ requested items, it.Changes) →
      kept (lastMode items).systemWrite = some m → ¬ m.Idle (requested items) →
      keeps (m.after (requested items)) o →
      KeepStep keeps kept inv ⟨true, []⟩ (Function.update kept (lastMode items).systemWrite o)
  /-- Settings that the format refuses leave the side as it was. -/
  | refused {items : List Item} {m : Settings} : Starts lib crc32 cfg kept inv items →
      (∀ it ∈ requested items, it.Changes) → kept (lastMode items).systemWrite = some m →
      ¬ m.Idle (requested items) → (∀ o, ¬ keeps (m.after (requested items)) o) →
      KeepStep keeps kept inv ⟨false, []⟩ kept
  /-- A batch of gets, or of lists, is answered. -/
  | shows {items : List Item} {texts : Bool → List (CString × CString)} :
      Starts lib crc32 cfg kept inv items → (∀ it ∈ requested items, it.Shows) →
      (∀ system, Enumerates (texts system) (kept.maps system)) →
      KeepStep keeps kept inv
        ⟨(answer kept.maps (lastMode items) texts (requested items)).2,
          (answer kept.maps (lastMode items) texts (requested items)).1⟩ kept

end

/-! ### The lists of libnvram -/

theorem Holds.congr {loads loads' : List Entry → Prop} {o : Option Settings} (h : Holds loads o)
    (hsame : ∀ list, loads' list ↔ loads list) : Holds loads' o := by
  obtain rfl : loads' = loads := funext fun list => propext (hsame list)
  exact h

/-- Setting one text. -/
def Settings.put (m : Settings) (t : CString × CString) : Settings :=
  Function.update m t.1 (some t.2)

theorem Represents.set {lib : Libnvram} (hl : lib.ListLaws) {list : List Entry} {m : Settings}
    (h : Represents list m) (t : CString × CString) :
    Represents (lib.listSet list (textEntry t)) (m.put t) := by
  obtain ⟨hdistinct, hget⟩ := hl.listSet list (textEntry t) h.distinct
  refine ⟨hdistinct, fun e he => ?_, fun key => ?_⟩
  · have hfound := Keyed.get_of_mem hdistinct he
    rw [hget] at hfound
    split_ifs at hfound
    · exact ⟨t, (Option.some.inj hfound).symm⟩
    · exact h.texts e (Keyed.mem_of_get hfound)
  · rw [hget, Settings.put]
    by_cases hkey : key = t.1
    · subst hkey
      have hsame : (textEntry t).key = t.1.bytesZ := rfl
      rw [if_pos hsame, Function.update_self]
      rfl
    · have hne : (textEntry t).key ≠ key.bytesZ := fun heq =>
        hkey (CString.bytesZ_injective heq).symm
      rw [if_neg hne, Function.update_of_ne hkey, h.get]

/-- The settings that texts leave when they are set one after the other. -/
def settingsOf (texts : List (CString × CString)) : Settings :=
  texts.foldl Settings.put fun _ => none

theorem Represents.foldl_set {lib : Libnvram} (hl : lib.ListLaws) {list : List Entry}
    {m : Settings} (h : Represents list m) (texts : List (CString × CString)) :
    Represents ((texts.map textEntry).foldl lib.listSet list)
      (texts.foldl Settings.put m) := by
  induction texts generalizing list m with
  | nil => exact h
  | cons t texts ih => exact ih (h.set hl t)

theorem represents_settingsOf {lib : Libnvram} (hl : lib.ListLaws)
    (texts : List (CString × CString)) :
    Represents ((texts.map textEntry).foldl lib.listSet []) (settingsOf texts) :=
  represents_nil.foldl_set hl texts

/-- What a key is mapped to is one of the texts. -/
theorem mem_of_foldl_put {texts : List (CString × CString)} {m : Settings} {key value : CString}
    (h : texts.foldl Settings.put m key = some value) :
    (key, value) ∈ texts ∨ m key = some value := by
  induction texts generalizing m with
  | nil => exact Or.inr h
  | cons t texts ih =>
      rcases ih h with hmem | hset
      · exact Or.inl (List.mem_cons_of_mem t hmem)
      · unfold Settings.put at hset
        by_cases hkey : key = t.1
        · subst hkey
          rw [Function.update_self] at hset
          obtain rfl := Option.some.inj hset
          exact Or.inl List.mem_cons_self
        · rw [Function.update_of_ne hkey] at hset
          exact Or.inr hset

theorem mem_of_settingsOf {texts : List (CString × CString)} {key value : CString}
    (h : settingsOf texts key = some value) : (key, value) ∈ texts :=
  (mem_of_foldl_put h).resolve_right fun hnone => by cases hnone

theorem foldl_put_of_not_mem {texts : List (CString × CString)} {key : CString}
    (hkey : key ∉ texts.map Prod.fst) (m : Settings) :
    texts.foldl Settings.put m key = m key := by
  induction texts generalizing m with
  | nil => rfl
  | cons t texts ih =>
      rw [List.map_cons, List.mem_cons, not_or] at hkey
      rw [List.foldl_cons, ih hkey.2, Settings.put, Function.update_of_ne hkey.1]

/-- Of distinct keys each has the value that it is set to. -/
theorem foldl_put_of_mem {texts : List (CString × CString)}
    (hdistinct : (texts.map Prod.fst).Nodup) {t : CString × CString} (ht : t ∈ texts)
    (m : Settings) : texts.foldl Settings.put m t.1 = some t.2 := by
  induction texts generalizing m with
  | nil => cases ht
  | cons t' texts ih =>
      obtain ⟨hfresh, hrest⟩ := List.nodup_cons.mp hdistinct
      rcases List.mem_cons.mp ht with rfl | ht
      · rw [List.foldl_cons, foldl_put_of_not_mem hfresh, Settings.put, Function.update_self]
      · exact ih hrest ht (m.put t')

/-- Setting the texts of settings one after the other gives the settings. -/
theorem Enumerates.settingsOf_eq {texts : List (CString × CString)} {m : Settings}
    (h : Enumerates texts m) : settingsOf texts = m := by
  funext key
  cases hkey : m key with
  | some value =>
      exact foldl_put_of_mem h.distinct ((h.mem_iff key value).mpr hkey) _
  | none =>
      cases hvalue : settingsOf texts key with
      | none => rfl
      | some value =>
          have hmem := (h.mem_iff key value).mp (mem_of_settingsOf hvalue)
          rw [hkey] at hmem
          cases hmem

/-- What holds of the texts holds of the settings. -/
theorem Enumerates.forall_iff {texts : List (CString × CString)} {m : Settings}
    (h : Enumerates texts m) {P : CString × CString → Prop} :
    (∀ t ∈ texts, P t) ↔ ∀ key value, m key = some value → P (key, value) := by
  constructor
  · intro hall key value hvalue
    exact hall (key, value) ((h.mem_iff key value).mpr hvalue)
  · intro hall t ht
    exact hall t.1 t.2 ((h.mem_iff t.1 t.2).mp ht)

/-- The list of the texts of settings stands for them. -/
theorem Enumerates.represents {texts : List (CString × CString)} {m : Settings}
    (h : Enumerates texts m) : Represents (texts.map textEntry) m := by
  have hdistinct : Keyed.Distinct Entry.key (texts.map textEntry) := by
    have hkeys : (texts.map textEntry).map Entry.key =
        (texts.map Prod.fst).map CString.bytesZ := by
      rw [List.map_map, List.map_map]
      rfl
    rw [Keyed.Distinct, hkeys]
    exact h.distinct.map CString.bytesZ_injective
  refine ⟨hdistinct, fun e he => ?_, fun key => ?_⟩
  · obtain ⟨t, -, rfl⟩ := List.mem_map.mp he
    exact ⟨t, rfl⟩
  · cases hkey : m key with
    | some value =>
        exact Keyed.get_of_mem hdistinct (List.mem_map_of_mem ((h.mem_iff key value).mpr hkey))
    | none =>
        cases hget : Keyed.get Entry.key (texts.map textEntry) key.bytesZ with
        | none => rfl
        | some e =>
            obtain ⟨t, ht, rfl⟩ := List.mem_map.mp (Keyed.mem_of_get hget)
            have hbytes : (textEntry t).key = key.bytesZ := Keyed.key_of_get hget
            have hsame : t.1 = key := CString.bytesZ_injective hbytes
            have hvalue := (h.mem_iff t.1 t.2).mp ht
            rw [hsame, hkey] at hvalue
            cases hvalue

/-- An edit finds nothing to do exactly when the settings say what the operation says. -/
theorem Represents.edit_idle_iff {lib : Libnvram} (hl : lib.ListLaws) {list : List Entry}
    {m : Settings} (h : Represents list m) {it : Operation} {e : Keyed.Edit Entry Bytes}
    (he : it.edit? = some e) :
    editList lib list e = none ↔ ∀ key o, it.setting? key = some o → m key = o := by
  have hlookup : ∀ (k : CString) (o : Option CString),
      Keyed.get Entry.key list k.bytesZ = o.map (fun value => textEntry (k, value)) ↔ m k = o := by
    intro k o
    rw [h.get]
    refine ⟨fun heq => ?_, fun heq => by rw [heq]⟩
    have hinjective : Function.Injective fun value => textEntry (k, value) := by
      intro value value' hsame
      exact (Prod.mk.inj (textEntry_injective hsame)).2
    exact Option.map_injective hinjective heq
  -- what the operation says, it says of one key
  have hone : ∀ {k : CString} {o : Option CString},
      (∀ key, it.setting? key = if k = key then some o else none) →
      ((∀ key o', it.setting? key = some o' → m key = o') ↔ m k = o) := by
    intro k o hsetting
    constructor
    · intro hall
      exact hall k o (by rw [hsetting, if_pos rfl])
    · intro hk key o' ho'
      rw [hsetting] at ho'
      split_ifs at ho' with hkey
      subst hkey
      exact hk.trans (Option.some.inj ho')
  rw [editList_eq_none_iff hl h.distinct]
  cases it with
  | set k value =>
      cases he
      rw [hone fun _ => rfl]
      exact hlookup k (some value)
  | del k =>
      cases he
      rw [hone fun _ => rfl]
      exact hlookup k none
  | list => cases he
  | get k => cases he

/-- A batch finds nothing to do exactly when the settings already say what it says. -/
theorem Represents.idle_iff {lib : Libnvram} (hl : lib.ListLaws) {list : List Entry}
    {m : Settings} (h : Represents list m) {operations : List Operation}
    (hchanges : ∀ it ∈ operations, it.Changes) :
    (∀ e ∈ edits operations, editList lib list e = none) ↔ m.Idle operations := by
  constructor
  · intro hall it hit
    obtain ⟨e, he⟩ := (hchanges it hit).exists_edit
    exact (h.edit_idle_iff hl he).mp (hall e (List.mem_filterMap.mpr ⟨it, hit, he⟩))
  · intro hidle e he
    obtain ⟨it, hit, hedit⟩ := List.mem_filterMap.mp he
    exact (h.edit_idle_iff hl hedit).mpr (hidle it hit)

end Nvram
