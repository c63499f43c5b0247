import Mathlib.Data.List.DropRight
import Nvram.Legacy.Domain
import Nvram.Legacy.Reread
import Nvram.Legacy.Torn
import Nvram.V2.Sides
import Nvram.Program.Faults

/-!
# The two namespaces in the stores

`validate_set` looks at a key before it is stored; what counts is the key that a later
invocation loads.  The v2 format gives every key back as it was, the legacy format without the
blanks in front of it.  As long as no such key takes the system prefix by losing its blanks, the
keys on the user side never have the prefix and the keys on the system side always do, whatever
fails and wherever an invocation is stopped.
-/

namespace Nvram

open Effects Errno TwoSlot

/-! ### The formats that keep a list -/

/-- `nvram_v2_format` and `nvram_legacy_format`. -/
inductive ListFormat where
  | v2
  | legacy
  deriving DecidableEq, Repr

namespace ListFormat

def name : ListFormat → CString
  | v2 => lit "v2"
  | legacy => lit "legacy"

/-- The key that is read of an entry that was written. -/
def back : ListFormat → Bytes → Bytes
  | v2, key => key
  | legacy, key => (textOf key).dropWhile isBlank ++ [0]

section

variable (lib : Libnvram)

def format : ListFormat → NvramFormat
  | v2 => nvramV2Format lib
  | legacy => nvramLegacyFormat

def initSpec : (fmt : ListFormat) → (fmt.format lib).InitSpec lib
  | v2 => nvramV2Format.initSpec lib
  | legacy => nvramLegacyFormat.initSpec lib

def frame : (fmt : ListFormat) → (fmt.format lib).Frame
  | v2 => nvramV2Format.frame lib
  | legacy => nvramLegacyFormat.frame

/-- The list that a section holds. -/
def Holds : ListFormat → Bytes → List Entry → Prop
  | v2, content, list => ∃ counter, slotOf lib content = some (counter, list)
  | legacy, content, list => legacyList lib content = some list

/-- The bytes that a commit of the list may write. -/
def Stored : ListFormat → List Entry → Bytes → Prop
  | v2, list, buf => IsImage lib list buf
  | legacy, list, buf => Storable list ∧ buf = list.flatMap row

/-- What a write of `buf` may leave, whether or not it succeeds: the content before, the whole
buffer with other bytes behind it, or a part of it that cannot be taken for an image or for
other lines. -/
def Left : ListFormat → Bytes → Bytes → Bytes → Prop
  | v2, old, buf, new => new = old ∨ buf <+: new ∨ ¬ Verifies lib new
  | legacy, old, buf, new => new = old ∨ TornFrom buf new

end

variable {lib : Libnvram} {fmt : ListFormat}

/-- What was read back is read back as it is. -/
theorem back_back (key : Bytes) : fmt.back (fmt.back key) = fmt.back key := by
  cases fmt with
  | v2 => rfl
  | legacy =>
      have hnul : ∀ b ∈ (textOf key).dropWhile isBlank, decide (b ≠ 0) = true := by
        intro b hb
        have hmem : b ∈ textOf key := (List.dropWhile_sublist _).subset hb
        simpa using fun heq : b = 0 => (CString.ofBuf key).noNul (heq ▸ hmem)
      have htext : textOf ((textOf key).dropWhile isBlank ++ [0]) =
          (textOf key).dropWhile isBlank := by
        show ((textOf key).dropWhile isBlank ++ [0]).takeWhile (· ≠ 0) = _
        rw [List.takeWhile_append_of_pos hnul]
        simp
      show (textOf ((textOf key).dropWhile isBlank ++ [0])).dropWhile isBlank ++ [0] =
        (textOf key).dropWhile isBlank ++ [0]
      rw [htext, List.dropWhile_idempotent]

/-! ### Loading and committing -/

/-- The calls of a commit: a write goes to a section of the side and has what is stored. -/
def CommitCall (lib : Libnvram) (fmt : ListFormat) (i : Interface)
    (sections : Option CString × Option CString) (list : List Entry) (o : Call) : Prop :=
  (∀ j, o.interface? = some j → j = i) ∧ ∀ j priv buf, o = .write j (some priv) buf →
    Configured sections priv.path ∧ fmt.Stored lib list buf

theorem CommitCall.inner {i : Interface} {sections : Option CString × Option CString}
    {list : List Entry} {o : Call} (h : o.Inner) : CommitCall lib fmt i sections list o := by
  refine ⟨by simp [h.1], fun j priv buf ho => ?_⟩
  subst ho
  cases h.2.2.2.2

theorem CommitCall.writesThrough (lib : Libnvram) (fmt : ListFormat) {i : Interface}
    {sections : Option CString × Option CString} {list : List Entry} {priv : Option NvramPriv}
    (h : ∀ p ∈ priv, Configured sections p.path) :
    WritesThrough (CommitCall lib fmt i sections list) (fmt.Stored lib list) i priv where
  inner _ ho := CommitCall.inner ho
  size := ⟨by simp [Call.interface?], fun _ _ _ ho => (by cases ho)⟩
  read n := ⟨by simp [Call.interface?], fun _ _ _ ho => (by cases ho)⟩
  sectionOf := ⟨by simp [Call.interface?], fun _ _ _ ho => (by cases ho)⟩
  write buf hbuf := by
    refine ⟨by simp [Call.interface?], fun j p buf' ho => ?_⟩
    cases ho
    exact ⟨h p rfl, hbuf⟩

/-- A list that is read after a write was there before, or has keys of the list that was to be
stored. -/
theorem holds_left (hi : lib.ImageLaws) (hl : lib.ListLaws) {list : List Entry} {old buf new : Bytes}
    (hbuf : fmt.Stored lib list buf) (hleft : fmt.Left lib old buf new) {list' : List Entry}
    (h : fmt.Holds lib new list') :
    fmt.Holds lib old list' ∨
      (Keyed.Distinct Entry.key list → Keyed.Distinct Entry.key list') ∧
        ∀ e' ∈ list', ∃ e ∈ list, e'.key = fmt.back e.key := by
  cases fmt with
  | v2 =>
      obtain ⟨counter, hslot⟩ := h
      rcases hleft with rfl | hwhole | hbroken
      · exact Or.inl ⟨counter, hslot⟩
      · obtain ⟨hne, hdr, rfl⟩ := hbuf
        rw [slotOf_image hi hne hwhole] at hslot
        obtain ⟨-, rfl⟩ := Prod.mk.inj (Option.some.inj hslot)
        exact Or.inr ⟨fun hdistinct => hdistinct, fun e' he' => ⟨e', he', rfl⟩⟩
      · have hnone : slotOf lib new = none := dataSlot_eq_none_of_not_verified hbroken
        rw [hnone] at hslot
        cases hslot
  | legacy =>
      obtain ⟨hstorable, rfl⟩ := hbuf
      rcases hleft with rfl | htorn
      · exact Or.inl h
      · have hlist : legacyList lib new = some list' := h
        refine Or.inr ⟨fun _ => legacyList_distinct hl hlist, fun e' he' => ?_⟩
        obtain ⟨entries, hentries, hfold⟩ := Option.map_eq_some_iff.mp hlist
        have hsets : Keyed.Sets Entry.key lib.listSet := hl.listSet
        rw [← hfold] at he'
        exact legacyParse_torn (fun e he => (hstorable e he).1) htorn hentries e'
          (hsets.mem_of_mem_foldl he')

end ListFormat

/-! ### The keys of a side -/

section

variable (cfg : BuildConfig) (fmt : ListFormat) (system : Bool)

/-- A list of the system side has prefixed keys only, one of the user side none; its keys have
been read back. -/
structure KeysOf (list : List Entry) : Prop where
  distinct : Keyed.Distinct Entry.key list
  side : ∀ e ∈ list, startsWithSysPrefix cfg (CString.ofBuf e.key) = system
  back : ∀ e ∈ list, fmt.back e.key = e.key

/-- A list whose keys will be those of the side when they are read back. -/
structure KeysFor (list : List Entry) : Prop where
  distinct : Keyed.Distinct Entry.key list
  side : ∀ e ∈ list, startsWithSysPrefix cfg (CString.ofBuf (fmt.back e.key)) = system

end

section

variable {cfg : BuildConfig} {env : Environ} {fmt : ListFormat} {system : Bool}

theorem KeysOf.nil : KeysOf cfg fmt system [] :=
  ⟨Keyed.distinct_nil, fun _ h => (by cases h), fun _ h => (by cases h)⟩

/-- A key that starts with the prefix has no blanks in front. -/
theorem back_bytesZ_of_startsWith {key : CString} (henforced : sysPrefixEnforced cfg = true)
    (h : startsWithSysPrefix cfg key = true) : fmt.back key.bytesZ = key.bytesZ := by
  cases fmt with
  | v2 => rfl
  | legacy =>
      have hpos : 0 < cfg.systemPrefix.bytes.length := of_decide_eq_true henforced
      have htake : key.bytes.take cfg.systemPrefix.strlen = cfg.systemPrefix.bytes := by
        have hboth := (Bool.and_eq_true _ _).mp h
        exact of_decide_eq_true hboth.2
      obtain ⟨b, bs, hhead⟩ := List.exists_cons_of_length_pos hpos
      have hspace := cfg.systemPrefix_head b (by rw [hhead, List.head?_cons])
      have hblank : isBlank b = false := by
        by_contra hno
        have hno : isBlank b = true := by simpa using hno
        simp only [isBlank, Bool.or_eq_true, decide_eq_true_eq] at hno
        rcases hno with (rfl | rfl) | rfl <;> cases hspace
      have hkey : key.bytes = b :: (bs ++ key.bytes.drop cfg.systemPrefix.strlen) := by
        rw [← List.cons_append, ← hhead, ← htake, List.take_append_drop]
      show (textOf key.bytesZ).dropWhile isBlank ++ [0] = key.bytesZ
      rw [textOf_bytesZ, hkey, List.dropWhile_cons_of_neg (by simp [hblank]), ← hkey]
      rfl

/-- An accepted batch leaves a list that is right for the side that it changes. -/
theorem KeysOf.editAll {lib : Libnvram} (hl : lib.ListLaws) (henforced : sysPrefixEnforced cfg = true)
    {mode : Mode} (hmode : mode.systemWrite = true ∨ mode.userWrite = true) {list : List Entry}
    (hlist : KeysOf cfg fmt mode.systemWrite list) {operations : List Operation}
    (haccepted : Accepted cfg env mode operations)
    (hkeeps : fmt = .legacy → mode.systemWrite = false → ∀ key e,
      Keyed.lastOf Entry.key none (edits operations) key = some e →
        startsWithSysPrefix cfg (CString.ofBuf (fmt.back e.key)) = false) :
    KeysFor cfg fmt mode.systemWrite (editAll lib list (edits operations)) := by
  obtain ⟨hdistinct, hget⟩ := editAll_spec hl hlist.distinct (edits operations)
  refine ⟨hdistinct, fun e he => ?_⟩
  have hlast := hget e.key
  rw [Keyed.get_of_mem hdistinct he] at hlast
  rcases Keyed.eq_or_of_lastOf Entry.key hlast.symm with hold | hnew
  · -- an entry from before
    have hmem := Keyed.mem_of_get hold
    rw [hlist.back e hmem]
    exact hlist.side e hmem
  · obtain ⟨hput, -⟩ := Keyed.mem_of_lastOf Entry.key hnew
    obtain ⟨it, hit, hedit⟩ := List.mem_filterMap.mp hput
    have hpermitted := haccepted.permitted it hit
    cases it with
    | list => cases hedit
    | get key => cases hedit
    | del key => cases hedit
    | set key value =>
        obtain rfl : (⟨key.bytesZ, value.bytesZ⟩ : Entry) = e := by
          simpa [Operation.edit?] using hedit
        cases hsystem : mode.systemWrite with
        | true =>
            have hstarts := (hpermitted.1 hsystem).1 henforced
            rw [back_bytesZ_of_startsWith henforced hstarts, CString.ofBuf_bytesZ, hstarts]
        | false =>
            have huser : mode.userWrite = true := hmode.resolve_left (by simp [hsystem])
            cases fmt with
            | legacy => exact hkeeps rfl hsystem _ _ hnew
            | v2 =>
                have hfree := hpermitted.2 huser henforced
                show startsWithSysPrefix cfg (CString.ofBuf key.bytesZ) = false
                rw [CString.ofBuf_bytesZ, hfree]

/-- What is read back of such a list has the keys of the side. -/
theorem KeysFor.read {list list' : List Entry} (h : KeysFor cfg fmt system list)
    (hdistinct : Keyed.Distinct Entry.key list → Keyed.Distinct Entry.key list')
    (hkeys : ∀ e' ∈ list', ∃ e ∈ list, e'.key = fmt.back e.key) : KeysOf cfg fmt system list' := by
  refine ⟨hdistinct h.distinct, fun e' he' => ?_, fun e' he' => ?_⟩
  · obtain ⟨e, he, hkey⟩ := hkeys e' he'
    rw [hkey]
    exact h.side e he
  · obtain ⟨e, he, hkey⟩ := hkeys e' he'
    rw [hkey, ListFormat.back_back]

end

/-! ### What an invocation does to the stores -/

section

variable (lib : Libnvram) (cfg : BuildConfig) (fmt : ListFormat)

/-- Every section is as before, or is one of the side and holds lists of that side only. -/
def Touched (i : Interface) (system : Bool) (sections : Option CString × Option CString)
    (s t : Stores) : Prop :=
  ∀ j path, t j path = s j path ∨ (j = i ∧ Configured sections path) ∧
    ∀ list, fmt.Holds lib (t j path) list → KeysOf cfg fmt system list

variable (sections : Interface → Bool → Option CString × Option CString)

/-- What an invocation does: nothing, or it is an accepted batch of changes and touches the
side that its mode writes. -/
def Does (env : Environ) (args : List CString) (s t : Stores) : Prop :=
  t = s ∨ ∃ items i, commandLine args = some items ∧
    Accepted cfg env (lastMode items) (requested items) ∧ (∃ it ∈ requested items, it.Changes) ∧
      Touched lib cfg fmt i (lastMode items).systemWrite (sections i (lastMode items).systemWrite)
        s t

end

section

variable {lib : Libnvram} {cfg : BuildConfig} {fmt : ListFormat} {i : Interface} {system : Bool}
  {secs : Option CString × Option CString} {s t u : Stores}

theorem Touched.refl : Touched lib cfg fmt i system secs s s := fun _ _ => Or.inl rfl

variable (hi : lib.ImageLaws) (hl : lib.ListLaws)
  (hs : ∀ path list, Configured secs path → fmt.Holds lib (s i path) list →
    KeysOf cfg fmt system list)

include hi hl hs

/-- A call of a commit of a list for the side touches the side. -/
theorem Touched.call {list : List Entry} (hlist : KeysFor cfg fmt system list) {o : Call}
    (ho : ListFormat.CommitCall lib fmt i secs list o) (ht : Touched lib cfg fmt i system secs s t)
    (hleaves : o.Leaves (fmt.Left lib) t u) : Touched lib cfg fmt i system secs s u := by
  cases hwrite : o.isWrite with
  | false =>
      rw [Call.leaves_of_reads hwrite hleaves]
      exact ht
  | true =>
      cases o with
      | write j priv buf =>
          cases priv with
          | none =>
              obtain rfl : u = t := hleaves
              exact ht
          | some priv =>
              obtain rfl : j = i := ho.1 j rfl
              obtain ⟨hconfigured, hstored⟩ := ho.2 j priv buf rfl
              obtain ⟨new, hleft, rfl⟩ := hleaves
              intro k path
              by_cases hat : k = j ∧ path = priv.path
              · obtain ⟨rfl, rfl⟩ := hat
                refine Or.inr ⟨⟨rfl, hconfigured⟩, fun list' hholds => ?_⟩
                rw [Stores.put_self] at hholds
                rcases ListFormat.holds_left hi hl hstored hleft hholds with hold | ⟨hdistinct, hkeys⟩
                · rcases ht k priv.path with hsame | hside
                  · rw [hsame] at hold
                    exact hs priv.path list' hconfigured hold
                  · exact hside.2 list' hold
                · exact hlist.read hdistinct hkeys
              · rw [Stores.put_of_ne t new hat]
                exact ht k path
      | _ => cases hwrite

end

section

variable {lib : Libnvram} {cfg : BuildConfig} {fmt : ListFormat}
  {sections : Interface → Bool → Option CString × Option CString} {s : Stores}
  (hi : lib.ImageLaws) (ht : lib.TransactionLaws)

include hi ht

end

/-! ### Sequences of invocations -/

section

variable (lib : Libnvram) (crc32 : Bytes → UInt32) (cfg : BuildConfig) (fmt : ListFormat)
  (sections : Interface → Bool → Option CString × Option CString)

end

section

variable {lib : Libnvram} {crc32 : Bytes → UInt32} {cfg : BuildConfig} {fmt : ListFormat}
  {sections : Interface → Bool → Option CString × Option CString}
  (hdisjoint : ∀ i path, Configured (sections i true) path → ¬ Configured (sections i false) path)

include hdisjoint

/-- A section is of one side only. -/
theorem side_unique {i : Interface} {path : CString} {system system' : Bool}
    (h : Configured (sections i system) path) (h' : Configured (sections i system') path) :
    system = system' := by
  cases system with
  | true =>
      cases system' with
      | true => rfl
      | false => exact absurd h' (hdisjoint i path h)
  | false =>
      cases system' with
      | true => exact absurd h (hdisjoint i path h')
      | false => rfl

/-- An invocation that changes a section of the system side is an unlocked `--sys` one. -/
theorem Does.unlocked {env : Environ} {args : List CString} {s t : Stores}
    (h : Does lib cfg fmt sections env args s t) {i : Interface} {path : CString}
    (hpath : Configured (sections i true) path) (hchanged : t i path ≠ s i path) :
    systemUnlocked env = true ∧
      ∃ items, commandLine args = some items ∧ lastMode items = sysMode := by
  rcases h with rfl | ⟨items, j, hitems, haccepted, hchanges, htouched⟩
  · exact absurd rfl hchanged
  · rcases htouched i path with hsame | ⟨⟨rfl, hside⟩, -⟩
    · exact absurd hsame hchanged
    · have hsystem := side_unique hdisjoint hpath hside
      refine ⟨haccepted.unlocked hsystem.symm hchanges, items, hitems, ?_⟩
      rcases lastMode_cases items with hmode | hmode | hmode
      · rw [hmode] at hsystem
        cases hsystem
      · exact hmode
      · rw [hmode] at hsystem
        cases hsystem

variable (hi : lib.ImageLaws) (ht : lib.TransactionLaws) (hl : lib.ListLaws)
  (henforced : sysPrefixEnforced cfg = true)

include hi ht hl henforced

end

end Nvram
