import Nvram.Program.Reference

/-!
# What a batch of queries prints

On lists that stand for maps a get prints the visible value of its key and a list prints an
enumeration of the maps.  Nothing else is printed, and nothing is changed.
-/

namespace Nvram

open Effects Errno

/-- Keys and values that an `int` can give the length of. -/
def Settings.Short (m : Settings) : Prop :=
  ∀ key value, m key = some value → key.strlen < intMax ∧ value.strlen < intMax

namespace Healthy

variable {lib : Libnvram} {σ : Type} {i : Interface} {h : Handler callSig σ}
  (H : Healthy lib i h) {α β : Type}

/-- The program returns `a`, prints `out` and keeps the contents. -/
def Prints (p : NProg α) (a : α) (out : Bytes) : Prop :=
  ∀ s, ∃ t, run h p s = (a, t) ∧ H.contents t = H.contents s ∧ H.stdout t = H.stdout s ++ out

theorem prints_ret (a : α) : H.Prints (.ret a) a [] := by
  intro s
  exact ⟨s, rfl, rfl, (List.append_nil _).symm⟩

variable {H} in
theorem Prints.bind {p : NProg α} {f : α → NProg β} {a : α} {b : β} {out out' : Bytes}
    (hp : H.Prints p a out) (hf : H.Prints (f a) b out') : H.Prints (p >>= f) b (out ++ out') := by
  intro s
  obtain ⟨t, hrun, hcontents, hstdout⟩ := hp s
  obtain ⟨u, hrun', hcontents', hstdout'⟩ := hf t
  refine ⟨u, ?_, hcontents'.trans hcontents, ?_⟩
  · rw [run_bind, hrun]
    exact hrun'
  · rw [hstdout', hstdout, List.append_assoc]

variable {H} in
theorem Prints.last {p : NProg α} {f : α → NProg β} {a : α} {b : β} {out : Bytes}
    (hp : H.Prints p a out) (hf : H.Prints (f a) b []) : H.Prints (p >>= f) b out := by
  have hboth := hp.bind hf
  rwa [List.append_nil] at hboth

variable {H} in
theorem Prints.after {p : NProg α} {f : α → NProg β} {a : α} {b : β} {out : Bytes}
    (hp : H.Prints p a []) (hf : H.Prints (f a) b out) : H.Prints (p >>= f) b out := hp.bind hf

/-- A part that prints nothing in front. -/
theorem prints_inner_op {o : Call} {k : Call.Res o → NProg α} (ho : o.Inner) {a : α} {out : Bytes}
    (hk : ∀ r, H.Prints (k r) a out) : H.Prints (.op o k) a out := by
  intro s
  obtain ⟨hcontents, hstdout⟩ := H.same_of_inner ho s
  obtain ⟨t, hrun, hcontents', hstdout'⟩ := hk (h o s).1 (h o s).2
  exact ⟨t, hrun, hcontents'.trans hcontents, by rw [hstdout', hstdout]⟩

theorem prints_print (text : Bytes) : H.Prints (print text) () text := by
  intro s
  have hcontents := H.keeps (.print text) s (by simp [Call.interface?]) rfl
  have hstdout := H.printed (.print text) s (by simp [Call.interface?])
  exact ⟨(h (.print text) s).2, rfl, hcontents, hstdout⟩

/-! ### Entries -/

theorem prints_printArrU8 (str : CString) : H.Prints (printArrU8 str.bytesZ) () str.bytes := by
  have hlast : str.bytesZ.getLast? = some 0 := List.getLast?_concat
  unfold printArrU8
  rw [if_pos hlast, CString.ofBuf_bytesZ]
  exact H.prints_print _

/-- The lengths of an entry pass the check of `print_entry`. -/
theorem fits_int {t : CString × CString} (h : t.1.strlen < intMax ∧ t.2.strlen < intMax) :
    ¬ (intMax < (textEntry t).key.length ∨ intMax < (textEntry t).value.length) := by
  show ¬ (intMax < t.1.bytesZ.length ∨ intMax < t.2.bytesZ.length)
  rw [CString.bytesZ_length, CString.bytesZ_length]
  omega

variable {t : CString × CString} (hshort : t.1.strlen < intMax ∧ t.2.strlen < intMax)

include hshort

theorem prints_printEntry :
    H.Prints (printEntry (textEntry t) ⟨true, true⟩) (.ok ()) (textRow t) := by
  have hrow : textRow t = t.1.bytes ++ ([equals] ++ (t.2.bytes ++ ([newline] ++ []))) := by
    simp [textRow]
  unfold printEntry
  rw [if_neg (fits_int hshort), hrow]
  refine (H.prints_printArrU8 t.1).bind ?_
  refine (H.prints_print [equals]).bind ?_
  refine (H.prints_printArrU8 t.2).bind ?_
  exact (H.prints_print [newline]).bind (H.prints_ret _)

theorem prints_printEntry_value :
    H.Prints (printEntry (textEntry t) ⟨false, true⟩) (.ok ()) (t.2.bytes ++ [newline]) := by
  unfold printEntry
  rw [if_neg (fits_int hshort)]
  exact (H.prints_printArrU8 t.2).bind ((H.prints_print [newline]).bind (H.prints_ret _))

omit hshort

/-! ### Lists -/

theorem prints_printEntries {texts : List (CString × CString)}
    (hshort : ∀ t ∈ texts, t.1.strlen < intMax ∧ t.2.strlen < intMax) :
    H.Prints (printEntries (texts.map textEntry)) () (texts.flatMap textRow) := by
  induction texts with
  | nil => exact H.prints_ret ()
  | cons t texts ih =>
      rw [List.flatMap_cons]
      refine (H.prints_printEntry (hshort t List.mem_cons_self)).bind ?_
      exact ih fun t' ht' => hshort t' (List.mem_cons_of_mem _ ht')

variable {m : Settings} (hm : m.Short)

include hm

theorem prints_printList {texts : List (CString × CString)} (htexts : Enumerates texts m)
    (listName : String) :
    H.Prints (printList listName (texts.map textEntry)) () (texts.flatMap textRow) := by
  unfold printList
  rw [prDbg_bind]
  refine H.prints_inner_op (Call.inner_printDebug _ _) fun _ => H.prints_printEntries ?_
  intro t ht
  exact hm t.1 t.2 ((htexts.mem_iff t.1 t.2).mp ht)

section

variable (hl : lib.ListLaws) {list : List Entry} (hlist : Represents list m) (listName : String)
  {key : CString}

include hl hlist

theorem prints_printListEntry {value : CString} (hkey : m key = some value) :
    H.Prints (printListEntry lib listName list key) (.ok ()) (value.bytes ++ [newline]) := by
  have hget : lib.listGet list key.bytesZ = some (textEntry (key, value)) := by
    rw [hl.listGet list key.bytesZ hlist.distinct, hlist.get, hkey, Option.map_some]
  unfold printListEntry
  rw [prDbg_bind]
  refine H.prints_inner_op (Call.inner_printDebug _ _) fun _ => ?_
  simp only [hget]
  exact H.prints_printEntry_value (hm key value hkey)

omit hm in
theorem prints_printListEntry_none (hkey : m key = none) :
    H.Prints (printListEntry lib listName list key) (.error enoent) [] := by
  have hget : lib.listGet list key.bytesZ = none := by
    rw [hl.listGet list key.bytesZ hlist.distinct, hlist.get, hkey, Option.map_none]
  unfold printListEntry
  rw [prDbg_bind]
  refine H.prints_inner_op (Call.inner_printDebug _ _) fun _ => ?_
  simp only [hget]
  exact H.prints_ret _

end

omit hm

/-! ### Operations -/

/-- The lists of the sides that the mode reads stand for the maps, enumerated by the texts. -/
structure Shown (mode : Mode) (maps : Maps) (texts : Bool → List (CString × CString))
    (st : ExecState) : Prop where
  short : ∀ system, (maps system).Short
  enumerates : ∀ system, Enumerates (texts system) (maps system)
  systemTexts : mode.systemRead = true → st.listSystem = (texts true).map textEntry
  system : mode.systemRead = true → Represents st.listSystem (maps true)
  userTexts : mode.userRead = true → st.listUser = (texts false).map textEntry
  user : mode.userRead = true → Represents st.listUser (maps false)

variable {mode : Mode} {maps : Maps} {texts : Bool → List (CString × CString)} {st : ExecState}
  (hshown : Shown mode maps texts st)

include hshown

theorem prints_execList : H.Prints (execList mode st) (.ok st) (listing mode texts) := by
  have hsystem : mode.systemRead = true →
      H.Prints (printList "system" st.listSystem) () ((texts true).flatMap textRow) := by
    intro hread
    rw [hshown.systemTexts hread]
    exact H.prints_printList (hshown.short true) (hshown.enumerates true) _
  have huser : mode.userRead = true →
      H.Prints (printList "user" st.listUser) () ((texts false).flatMap textRow) := by
    intro hread
    rw [hshown.userTexts hread]
    exact H.prints_printList (hshown.short false) (hshown.enumerates false) _
  unfold execList listing
  cases hsr : mode.systemRead with
  | false =>
      cases hur : mode.userRead with
      | false => exact H.prints_ret _
      | true => exact (huser hur).last (H.prints_ret _)
  | true =>
      refine (hsystem hsr).bind ?_
      cases hur : mode.userRead with
      | false => exact H.prints_ret _
      | true => exact (huser hur).last (H.prints_ret _)

variable (hl : lib.ListLaws) {key : CString}

include hl

/-- A get that finds its key prints the value. -/
theorem prints_execGet {value : CString} (hkey : visible maps mode key = some value) :
    H.Prints (execGet lib mode key st) (.ok st) (value.bytes ++ [newline]) := by
  unfold visible at hkey
  unfold execGet
  cases hsr : mode.systemRead with
  | false =>
      rw [hsr, if_neg Bool.false_ne_true, Option.none_or] at hkey
      cases hur : mode.userRead with
      | false =>
          rw [hur, if_neg Bool.false_ne_true] at hkey
          cases hkey
      | true =>
          rw [hur, if_pos rfl] at hkey
          exact (H.prints_printListEntry (hshown.short false) hl (hshown.user hur) "user"
            hkey).last (H.prints_ret _)
  | true =>
      have hsystem := hshown.system hsr
      rw [hsr, if_pos rfl] at hkey
      cases hfound : maps true key with
      | some found =>
          rw [hfound, Option.some_or] at hkey
          obtain rfl := Option.some.inj hkey
          exact (H.prints_printListEntry (hshown.short true) hl hsystem "system" hfound).last
            (H.prints_ret _)
      | none =>
          rw [hfound, Option.none_or] at hkey
          refine (H.prints_printListEntry_none hl hsystem "system" hfound).after ?_
          cases hur : mode.userRead with
          | false =>
              rw [hur, if_neg Bool.false_ne_true] at hkey
              cases hkey
          | true =>
              rw [hur, if_pos rfl] at hkey
              exact (H.prints_printListEntry (hshown.short false) hl (hshown.user hur) "user"
            hkey).last (H.prints_ret _)

/-- A get that does not find its key prints nothing and fails. -/
theorem prints_execGet_none (hkey : visible maps mode key = none) :
    H.Prints (execGet lib mode key st) (.error enoent) [] := by
  obtain ⟨hsystem, huser⟩ := Option.or_eq_none_iff.mp hkey
  have hnotfound : H.Prints (do
      prDbg "key not found: %s\n" [.str key]
      return (.error enoent : Except Errno ExecState)) (.error enoent) [] := by
    rw [prDbg_bind]
    exact H.prints_inner_op (Call.inner_printDebug _ _) fun _ => H.prints_ret _
  have hside : mode.userRead = true →
      H.Prints (printListEntry lib "user" st.listUser key) (.error enoent) [] := by
    intro hread
    rw [if_pos hread] at huser
    exact H.prints_printListEntry_none hl (hshown.user hread) "user" huser
  unfold execGet
  cases hsr : mode.systemRead with
  | false =>
      cases hur : mode.userRead with
      | false => exact hnotfound
      | true => exact (hside hur).after hnotfound
  | true =>
      rw [if_pos hsr] at hsystem
      refine (H.prints_printListEntry_none hl (hshown.system hsr) "system" hsystem).after ?_
      cases hur : mode.userRead with
      | false => exact hnotfound
      | true => exact (hside hur).after hnotfound

/-- A batch of queries prints its answer, and ends at a key that is not found. -/
theorem prints_executeEach {operations : List Operation} (hops : ∀ it ∈ operations, it.Shows) :
    H.Prints (executeEach lib mode operations st)
      (if (answer maps mode texts operations).2 then .ok st else .error enoent)
      (answer maps mode texts operations).1 := by
  induction operations with
  | nil => exact H.prints_ret _
  | cons it ops ih =>
      have ih := ih fun it' hit' => hops it' (List.mem_cons_of_mem _ hit')
      cases it with
      | set key value => exact (hops (.set key value) List.mem_cons_self).elim
      | del key => exact (hops (.del key) List.mem_cons_self).elim
      | list => exact (H.prints_execList hshown).bind ih
      | get key =>
          cases hkey : visible maps mode key with
          | none =>
              simp only [answer, hkey]
              exact (H.prints_execGet_none hshown hl hkey).after (H.prints_ret _)
          | some value =>
              simp only [answer, hkey]
              rw [List.append_cons]
              exact (H.prints_execGet hshown hl hkey).bind ih

omit hshown

/-- A batch of queries ends without a commit. -/
theorem prints_executeOperations {operations : List Operation}
    (hops : ∀ it ∈ operations, it.Shows) (format : NvramFormat)
    (nvramSystem nvramUser : Option format.StructNvram) {listSystem listUser : List Entry}
    (hshown : Shown mode maps texts ⟨listSystem, listUser, false⟩) :
    H.Prints
      (executeOperations lib mode format operations nvramSystem listSystem nvramUser listUser)
      (if (answer maps mode texts operations).2 then .ok () else .error enoent)
      (answer maps mode texts operations).1 := by
  have heach := H.prints_executeEach hshown hl hops
  unfold executeOperations
  cases hok : (answer maps mode texts operations).2 with
  | false =>
      rw [hok, if_neg Bool.false_ne_true] at heach
      exact heach.last (H.prints_ret _)
  | true =>
      rw [hok, if_pos rfl] at heach
      exact heach.last (H.prints_ret _)

end Healthy

end Nvram
