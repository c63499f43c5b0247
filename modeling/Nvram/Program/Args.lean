import Nvram.Main
import Nvram.Format.Frame

/-!
# What a command line says

`commandLine` splits the arguments into commands, mode flags and overrides, as the branches of
the argument loop do.  The loop then fails on every command line that does not split, and on
the others it applies the items in order.
-/

namespace Nvram

open Effects

/-- One of the options that take a string. -/
abbrev ProgramOption := {opt : StringOption // opt ∈ stringOptions}

/-- `--sys` and `--user`. -/
inductive ModeFlag where
  | sys
  | user
  deriving DecidableEq, Repr

def ModeFlag.mode : ModeFlag → Mode
  | sys => sysMode
  | user => userMode

/-- One unit of a command line. -/
inductive Item where
  | operation (operation : Operation)
  | flag (flag : ModeFlag)
  | store (opt : ProgramOption) (str : CString)

namespace Item

def apply (opts : Opts) : Item → Opts
  | operation it => { opts with operations := opts.operations ++ [it] }
  | flag f => { opts with mode := f.mode }
  | store opt str => opt.val.store opts str

def operation? : Item → Option Operation
  | operation it => some it
  | _ => none

def flag? : Item → Option ModeFlag
  | flag f => some f
  | _ => none

end Item

/-- The option that goes by the name `arg`. -/
def optionOf (arg : CString) : Option ProgramOption :=
  stringOptions.attach.find? (arg ∈ ·.val.names)

theorem find?_stringOptions (arg : CString) :
    stringOptions.find? (arg ∈ ·.names) = (optionOf arg).map Subtype.val := by
  unfold optionOf
  conv_lhs => rw [← List.attach_map_subtype_val stringOptions]
  rw [List.find?_map]
  rfl

/-- The items of the arguments, `none` if they do not split into items. -/
def commandLine : List CString → Option (List Item)
  | [] => some []
  | arg :: rest =>
    if arg = lit "--set" ∨ arg = lit "set" then
      match rest with
      | key :: value :: rest => (commandLine rest).map (.operation (.set key value) :: ·)
      | _ => none
    else if arg = lit "--get" ∨ arg = lit "get" then
      match rest with
      | key :: rest => (commandLine rest).map (.operation (.get key) :: ·)
      | [] => none
    else if arg = lit "--list" ∨ arg = lit "list" then
      (commandLine rest).map (.operation .list :: ·)
    else if arg = lit "--del" ∨ arg = lit "delete" then
      match rest with
      | key :: rest => (commandLine rest).map (.operation (.del key) :: ·)
      | [] => none
    else if arg = lit "--sys" then
      (commandLine rest).map (.flag .sys :: ·)
    else if arg = lit "--user" then
      (commandLine rest).map (.flag .user :: ·)
    else if arg = lit "-h" ∨ arg = lit "--help" then
      none
    else
      match optionOf arg with
      | some opt =>
        match rest with
        | str :: rest => (commandLine rest).map (.store opt str :: ·)
        | [] => none
      | none => none

/-- The operations that are requested, a list if the command line has none. -/
def requested (items : List Item) : List Operation :=
  match items.filterMap Item.operation? with
  | [] => [.list]
  | operations => operations

/-- The last mode flag, wherever it stands. -/
def lastFlag (items : List Item) : Option ModeFlag := (items.filterMap Item.flag?).getLast?

/-- The mode that the flags select. -/
def lastMode (items : List Item) : Mode := ((lastFlag items).map ModeFlag.mode).getD defaultMode

/-- `opts` at the end of the loop and after the default operation. -/
def finalOpts (items : List Item) : Opts :=
  { items.foldl Item.apply Opts.initial with operations := requested items }

/-! ### Applying the items -/

/-- No branch with a string touches the mode or the operations. -/
theorem store_keeps (opt : ProgramOption) (opts : Opts) (str : CString) :
    (opt.val.store opts str).mode = opts.mode ∧
      (opt.val.store opts str).operations = opts.operations := by
  obtain ⟨opt, h⟩ := opt
  simp only [stringOptions, List.mem_cons, List.not_mem_nil, or_false] at h
  rcases h with rfl | rfl | rfl | rfl | rfl | rfl <;> exact ⟨rfl, rfl⟩

theorem foldl_apply_operations (items : List Item) (opts : Opts) :
    (items.foldl Item.apply opts).operations =
      opts.operations ++ items.filterMap Item.operation? := by
  induction items generalizing opts with
  | nil => simp
  | cons it items ih =>
      rw [List.foldl_cons, ih]
      cases it with
      | operation op => simp [Item.apply, Item.operation?]
      | flag f => simp [Item.apply, Item.operation?, List.filterMap_cons]
      | store opt str =>
          simp [Item.apply, Item.operation?, List.filterMap_cons, (store_keeps opt opts str).2]

theorem foldl_apply_mode (items : List Item) (opts : Opts) :
    (items.foldl Item.apply opts).mode =
      ((lastFlag items).map ModeFlag.mode).getD opts.mode := by
  unfold lastFlag
  induction items generalizing opts with
  | nil => rfl
  | cons it items ih =>
      rw [List.foldl_cons, ih]
      cases it with
      | operation op => simp [Item.apply, Item.flag?, List.filterMap_cons]
      | flag f =>
          cases hlast : (items.filterMap Item.flag?).getLast? <;>
            simp [Item.apply, Item.flag?, List.getLast?_cons, hlast]
      | store opt str =>
          simp [Item.apply, Item.flag?, List.filterMap_cons, (store_keeps opt opts str).1]

theorem lastMode_cases (items : List Item) :
    lastMode items = defaultMode ∨ lastMode items = sysMode ∨ lastMode items = userMode := by
  unfold lastMode
  cases lastFlag items with
  | none => exact Or.inl rfl
  | some flag =>
      cases flag with
      | sys => exact Or.inr (Or.inl rfl)
      | user => exact Or.inr (Or.inr rfl)

theorem lastMode_writes (items : List Item) :
    (lastMode items).systemWrite = true ∨ (lastMode items).userWrite = true := by
  rcases lastMode_cases items with h | h | h
  · exact Or.inr (by rw [h]; rfl)
  · exact Or.inl (by rw [h]; rfl)
  · exact Or.inr (by rw [h]; rfl)

@[simp] theorem finalOpts_mode (items : List Item) : (finalOpts items).mode = lastMode items :=
  foldl_apply_mode items Opts.initial

@[simp] theorem finalOpts_operations (items : List Item) :
    (finalOpts items).operations = requested items := rfl

/-! ### The loop applies the items -/

/-- The loop on the items. -/
def applyItems : List Item → Opts → NProg (Except Errno Opts)
  | [], opts => return .ok opts
  | .operation it :: items, opts => do
    match ← addOperation opts it with
    | .error r => return .error r
    | .ok opts => applyItems items opts
  | .flag f :: items, opts => applyItems items { opts with mode := f.mode }
  | .store opt str :: items, opts => applyItems items (opt.val.store opts str)

section

variable (cfg : BuildConfig) (env : Environ)

theorem parseArgs_eq_applyItems {args : List CString} {items : List Item}
    (h : commandLine args = some items) (opts : Opts) :
    parseArgs cfg env opts args = applyItems items opts := by
  -- a branch that adds an operation and goes on
  have hadd : ∀ {rest : List CString} {items : List Item} (opts : Opts) (it : Operation),
      (∀ opts, parseArgs cfg env opts rest = applyItems items opts) →
      (do
        match ← addOperation opts it with
        | .error r => return .error r
        | .ok opts => parseArgs cfg env opts rest) = applyItems (.operation it :: items) opts := by
    intro rest items opts it hrest
    unfold applyItems
    refine bind_congr fun r => ?_
    cases r with
    | error e => rfl
    | ok opts => exact hrest opts
  fun_induction commandLine args generalizing items opts with
  | case1 =>
      cases h
      rfl
  | case2 arg hset key value rest ih =>
      obtain ⟨items, hitems, rfl⟩ := Option.map_eq_some_iff.mp h
      unfold parseArgs
      simp only [hset, if_true]
      exact hadd _ _ (ih hitems)
  | case4 arg hset hget key rest ih =>
      obtain ⟨items, hitems, rfl⟩ := Option.map_eq_some_iff.mp h
      unfold parseArgs
      simp only [hset, hget, if_true, if_false]
      exact hadd _ _ (ih hitems)
  | case6 arg rest hset hget hlist ih =>
      obtain ⟨items, hitems, rfl⟩ := Option.map_eq_some_iff.mp h
      unfold parseArgs
      simp only [hset, hget, hlist, if_true, if_false]
      exact hadd _ _ (ih hitems)
  | case7 arg hset hget hlist hdel key rest ih =>
      obtain ⟨items, hitems, rfl⟩ := Option.map_eq_some_iff.mp h
      unfold parseArgs
      simp only [hset, hget, hlist, hdel, if_true, if_false]
      exact hadd _ _ (ih hitems)
  | case9 rest hset hget hlist hdel ih =>
      obtain ⟨items, hitems, rfl⟩ := Option.map_eq_some_iff.mp h
      unfold parseArgs
      simp only [hset, hget, hlist, hdel, if_true, if_false]
      exact ih hitems _
  | case10 rest hset hget hlist hdel hsys ih =>
      obtain ⟨items, hitems, rfl⟩ := Option.map_eq_some_iff.mp h
      unfold parseArgs
      simp only [hset, hget, hlist, hdel, hsys, if_true, if_false]
      exact ih hitems _
  | case12 arg hset hget hlist hdel hsys huser hhelp opt hopt str rest ih =>
      obtain ⟨items, hitems, rfl⟩ := Option.map_eq_some_iff.mp h
      unfold parseArgs
      simp only [hset, hget, hlist, hdel, hsys, huser, hhelp, if_false,
        find?_stringOptions, hopt, Option.map_some]
      exact ih hitems _
  | _ => cases h

/-- A message and an error, and no more. -/
theorem confined_refused (fmt : String) (args : List Arg) (e : Errno) :
    Confined Call.Inner (fun r => ∃ e, r = .error e) (do
      fprintfStderr fmt args
      return (.error e : Except Errno Opts)) :=
  ⟨Call.inner_fprintfStderr _ _, fun _ => ⟨e, rfl⟩⟩

theorem confined_addOperation (opts : Opts) (it : Operation) :
    Confined Call.Inner (fun r => (∃ e, r = .error e) ∨
      r = .ok { opts with operations := opts.operations ++ [it] }) (addOperation opts it) := by
  simp only [addOperation, mallocStruct_bind]
  refine ⟨Call.inner_mallocStruct, fun ok => ?_⟩
  cases ok with
  | false => exact ⟨Call.inner_fprintfStderr _ _, fun _ => Or.inl ⟨_, rfl⟩⟩
  | true => exact Or.inr rfl

/-- A command line that does not split into items is refused. -/
theorem parseArgs_error {args : List CString} (h : commandLine args = none) (opts : Opts) :
    Confined Call.Inner (fun r => ∃ e, r = .error e) (parseArgs cfg env opts args) := by
  -- a branch that adds an operation and goes on
  have hadd : ∀ {rest : List CString} (opts : Opts) (it : Operation),
      (∀ opts, Confined Call.Inner (fun r => ∃ e, r = .error e) (parseArgs cfg env opts rest)) →
      Confined Call.Inner (fun r => ∃ e, r = .error e) (do
        match ← addOperation opts it with
        | .error r => return .error r
        | .ok opts => parseArgs cfg env opts rest) := by
    intro rest opts it hrest
    refine confined_seq (confined_addOperation opts it) fun r hr => ?_
    cases r with
    | error e => exact ⟨e, rfl⟩
    | ok opts => exact hrest opts
  fun_induction commandLine args generalizing opts with
  | case1 => cases h
  | case2 arg hset key value rest ih =>
      unfold parseArgs
      simp only [hset, if_true]
      exact hadd _ _ (ih (Option.map_eq_none_iff.mp h))
  | case3 arg rest hset hshort =>
      unfold parseArgs
      simp only [hset, if_true]
      exact confined_refused _ _ _
  | case4 arg hset hget key rest ih =>
      unfold parseArgs
      simp only [hset, hget, if_true, if_false]
      exact hadd _ _ (ih (Option.map_eq_none_iff.mp h))
  | case5 arg hset hget =>
      unfold parseArgs
      simp only [hset, hget, if_true, if_false]
      exact confined_refused _ _ _
  | case6 arg rest hset hget hlist ih =>
      unfold parseArgs
      simp only [hset, hget, hlist, if_true, if_false]
      exact hadd _ _ (ih (Option.map_eq_none_iff.mp h))
  | case7 arg hset hget hlist hdel key rest ih =>
      unfold parseArgs
      simp only [hset, hget, hlist, hdel, if_true, if_false]
      exact hadd _ _ (ih (Option.map_eq_none_iff.mp h))
  | case8 arg hset hget hlist hdel =>
      unfold parseArgs
      simp only [hset, hget, hlist, hdel, if_true, if_false]
      exact confined_refused _ _ _
  | case9 rest hset hget hlist hdel ih =>
      unfold parseArgs
      simp only [hset, hget, hlist, hdel, if_true, if_false]
      exact ih (Option.map_eq_none_iff.mp h) _
  | case10 rest hset hget hlist hdel hsys ih =>
      unfold parseArgs
      simp only [hset, hget, hlist, hdel, hsys, if_true, if_false]
      exact ih (Option.map_eq_none_iff.mp h) _
  | case11 arg rest hset hget hlist hdel hsys huser hhelp =>
      unfold parseArgs
      simp only [hset, hget, hlist, hdel, hsys, huser, hhelp, if_true, if_false]
      exact ⟨Call.inner_printUsage _, fun _ => ⟨_, rfl⟩⟩
  | case12 arg hset hget hlist hdel hsys huser hhelp opt hopt str rest ih =>
      unfold parseArgs
      simp only [hset, hget, hlist, hdel, hsys, huser, hhelp, if_false,
        find?_stringOptions, hopt, Option.map_some]
      exact ih (Option.map_eq_none_iff.mp h) _
  | case13 arg hset hget hlist hdel hsys huser hhelp opt hopt =>
      unfold parseArgs
      simp only [hset, hget, hlist, hdel, hsys, huser, hhelp, if_false,
        find?_stringOptions, hopt, Option.map_some]
      exact confined_refused _ _ _
  | case14 arg rest hset hget hlist hdel hsys huser hhelp hopt =>
      unfold parseArgs
      simp only [hset, hget, hlist, hdel, hsys, huser, hhelp, if_false,
        find?_stringOptions, hopt, Option.map_none]
      exact confined_refused _ _ _

/-! ### What `main` runs with -/

theorem confined_applyItems (items : List Item) (opts : Opts) :
    Confined Call.Inner (fun r => (∃ e, r = .error e) ∨ r = .ok (items.foldl Item.apply opts))
      (applyItems items opts) := by
  induction items generalizing opts with
  | nil => exact Or.inr rfl
  | cons it items ih =>
      cases it with
      | operation op =>
          refine confined_seq (confined_addOperation opts op) fun r hr => ?_
          rcases hr with ⟨e, rfl⟩ | rfl
          · exact Or.inl ⟨e, rfl⟩
          · exact ih _
      | flag f => exact ih _
      | store opt str => exact ih _

/-- The options that the argument loop returns are those of the items. -/
theorem confined_parseArgs (opts : Opts) (args : List CString) :
    Confined Call.Inner (fun r => ∀ opts', r = .ok opts' →
        ∃ items, commandLine args = some items ∧ opts' = items.foldl Item.apply opts)
      (parseArgs cfg env opts args) := by
  cases h : commandLine args with
  | none =>
      refine (parseArgs_error cfg env h opts).mono (fun _ ho => ho) ?_
      rintro _ ⟨e, rfl⟩ opts' hok
      cases hok
  | some items =>
      rw [parseArgs_eq_applyItems cfg env h]
      refine (confined_applyItems items opts).mono (fun _ ho => ho) ?_
      rintro _ (⟨e, rfl⟩ | rfl) opts' hok
      · cases hok
      · cases hok
        exact ⟨items, rfl, rfl⟩

/-- The default operation adds a list to the options of items without an operation. -/
theorem defaultOperation_cases (items : List Item) :
    defaultOperation (items.foldl Item.apply Opts.initial) = .ret (.ok (finalOpts items)) ∨
      defaultOperation (items.foldl Item.apply Opts.initial) =
          addOperation (items.foldl Item.apply Opts.initial) .list ∧
        { items.foldl Item.apply Opts.initial with
          operations := (items.foldl Item.apply Opts.initial).operations ++ [.list] } =
          finalOpts items := by
  have hops : (items.foldl Item.apply Opts.initial).operations = items.filterMap Item.operation? :=
    foldl_apply_operations items Opts.initial
  unfold defaultOperation
  split
  · rename_i hnil
    right
    rw [hops] at hnil
    refine ⟨rfl, ?_⟩
    simp only [finalOpts, requested, hops, hnil, List.nil_append]
  · rename_i hne
    left
    rw [hops] at hne
    simp only [finalOpts, requested, ← hops]
    split
    · rename_i hnil
      exact absurd (hops ▸ hnil) hne
    · rfl

theorem confined_defaultOperation (items : List Item) :
    Confined Call.Inner (fun r => (∃ e, r = .error e) ∨ r = .ok (finalOpts items))
      (defaultOperation (items.foldl Item.apply Opts.initial)) := by
  rcases defaultOperation_cases items with h | ⟨h, hopts⟩
  · rw [h]
    exact Or.inr rfl
  · rw [h, ← hopts]
    exact confined_addOperation _ .list

end

end Nvram
