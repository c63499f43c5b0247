import Nvram.Program.Frame

/-!
# The grammar of the command line

The argument loop of `main` on `argv` and `argc`, with the index steps of its branches; it reads
no element at or behind `argc`.  What it accepts are the sentences of a grammar: items one after
the other, each with its name and as many strings as it takes.
-/

namespace Nvram

open Effects Errno

/-! ### The grammar -/

/-- The words of an item. -/
inductive Spells : Item → List CString → Prop where
  | set {name : CString} (key value : CString) : name ∈ [lit "--set", lit "set"] →
      Spells (.operation (.set key value)) [name, key, value]
  | get {name : CString} (key : CString) : name ∈ [lit "--get", lit "get"] →
      Spells (.operation (.get key)) [name, key]
  | list {name : CString} : name ∈ [lit "--list", lit "list"] →
      Spells (.operation .list) [name]
  | del {name : CString} (key : CString) : name ∈ [lit "--del", lit "delete"] →
      Spells (.operation (.del key)) [name, key]
  | sys : Spells (.flag .sys) [lit "--sys"]
  | user : Spells (.flag .user) [lit "--user"]
  | store {name : CString} (opt : ProgramOption) (str : CString) : name ∈ opt.val.names →
      Spells (.store opt str) [name, str]

/-- A command line is the words of its items one after the other. -/
inductive Sentence : List Item → List CString → Prop where
  | nil : Sentence [] []
  | cons {item : Item} {items : List Item} {words args : List CString} :
      Spells item words → Sentence items args → Sentence (item :: items) (words ++ args)

/-- The names that come before the options in the tests of the loop. -/
def commandNames : List CString :=
  [lit "--set", lit "set", lit "--get", lit "get", lit "--list", lit "list", lit "--del",
    lit "delete", lit "--sys", lit "--user", lit "-h", lit "--help"]

/-- A name of an option belongs to no other option and is no command. -/
theorem optionOf_of_mem (opt : ProgramOption) {name : CString} (h : name ∈ opt.val.names) :
    optionOf name = some opt ∧ name ∉ commandNames := by
  obtain ⟨opt, hopt⟩ := opt
  simp only [stringOptions, List.mem_cons, List.not_mem_nil, or_false] at hopt
  rcases hopt with rfl | rfl | rfl | rfl | rfl | rfl
  all_goals
    simp only [List.mem_cons, List.not_mem_nil, or_false] at h
  · rcases h with rfl | rfl
    · exact ⟨rfl, by decide⟩
    · exact ⟨rfl, by decide⟩
  · rcases h with rfl | rfl
    · exact ⟨rfl, by decide⟩
    · exact ⟨rfl, by decide⟩
  · subst h
    exact ⟨rfl, by decide⟩
  · subst h
    exact ⟨rfl, by decide⟩
  · subst h
    exact ⟨rfl, by decide⟩
  · subst h
    exact ⟨rfl, by decide⟩

/-- `commandLine` reads the words of an item and goes on behind them. -/
theorem commandLine_spells {item : Item} {words : List CString} (h : Spells item words)
    (args : List CString) :
    commandLine (words ++ args) = (commandLine args).map (item :: ·) := by
  cases h with
  | @set name key value hname =>
      have hset : name = lit "--set" ∨ name = lit "set" := by simpa using hname
      show commandLine (name :: key :: value :: args) = _
      rw [commandLine, if_pos hset]
  | @get name key hname =>
      have hget : name = lit "--get" ∨ name = lit "get" := by simpa using hname
      have hset : ¬ (name = lit "--set" ∨ name = lit "set") := by
        rcases hget with rfl | rfl <;> decide
      show commandLine (name :: key :: args) = _
      rw [commandLine.eq_def]
      dsimp only
      rw [if_neg hset, if_pos hget]
  | @list name hname =>
      have hlist : name = lit "--list" ∨ name = lit "list" := by simpa using hname
      have hset : ¬ (name = lit "--set" ∨ name = lit "set") := by
        rcases hlist with rfl | rfl <;> decide
      have hget : ¬ (name = lit "--get" ∨ name = lit "get") := by
        rcases hlist with rfl | rfl <;> decide
      show commandLine (name :: args) = _
      rw [commandLine.eq_def]
      dsimp only
      rw [if_neg hset, if_neg hget, if_pos hlist]
  | @del name key hname =>
      have hdel : name = lit "--del" ∨ name = lit "delete" := by simpa using hname
      have hset : ¬ (name = lit "--set" ∨ name = lit "set") := by
        rcases hdel with rfl | rfl <;> decide
      have hget : ¬ (name = lit "--get" ∨ name = lit "get") := by
        rcases hdel with rfl | rfl <;> decide
      have hlist : ¬ (name = lit "--list" ∨ name = lit "list") := by
        rcases hdel with rfl | rfl <;> decide
      show commandLine (name :: key :: args) = _
      rw [commandLine.eq_def]
      dsimp only
      rw [if_neg hset, if_neg hget, if_neg hlist, if_pos hdel]
  | sys =>
      show commandLine (lit "--sys" :: args) = _
      rw [commandLine.eq_def]
      dsimp only
      rw [if_neg (by decide), if_neg (by decide), if_neg (by decide), if_neg (by decide),
        if_pos rfl]
  | user =>
      show commandLine (lit "--user" :: args) = _
      rw [commandLine.eq_def]
      dsimp only
      rw [if_neg (by decide), if_neg (by decide), if_neg (by decide), if_neg (by decide),
        if_neg (by decide), if_pos rfl]
  | @store name opt str hname =>
      obtain ⟨hoption, hno⟩ := optionOf_of_mem opt hname
      simp only [commandNames, List.mem_cons, List.not_mem_nil, or_false, not_or] at hno
      obtain ⟨h₁, h₂, h₃, h₄, h₅, h₆, h₇, h₈, h₉, h₁₀, h₁₁, h₁₂⟩ := hno
      show commandLine (name :: str :: args) = _
      rw [commandLine.eq_def]
      dsimp only
      rw [if_neg (not_or.mpr ⟨h₁, h₂⟩), if_neg (not_or.mpr ⟨h₃, h₄⟩),
        if_neg (not_or.mpr ⟨h₅, h₆⟩), if_neg (not_or.mpr ⟨h₇, h₈⟩), if_neg h₉, if_neg h₁₀,
        if_neg (not_or.mpr ⟨h₁₁, h₁₂⟩), hoption]

theorem commandLine_of_sentence {items : List Item} {args : List CString}
    (h : Sentence items args) : commandLine args = some items := by
  induction h with
  | nil => rfl
  | cons hitem _ ih => rw [commandLine_spells hitem, ih, Option.map_some]

theorem names_of_optionOf {name : CString} {opt : ProgramOption} (h : optionOf name = some opt) :
    name ∈ opt.val.names := by
  simpa using List.find?_some h

/-- The command lines that split into items are the sentences of the grammar. -/
theorem sentence_iff {items : List Item} {args : List CString} :
    Sentence items args ↔ commandLine args = some items := by
  constructor
  · intro h
    exact commandLine_of_sentence h
  · intro h
    fun_induction commandLine args generalizing items with
    | case1 =>
        cases h
        exact .nil
    | case2 arg hset key value rest ih =>
        obtain ⟨items, hitems, rfl⟩ := Option.map_eq_some_iff.mp h
        exact .cons (.set key value (by simpa using hset)) (ih hitems)
    | case4 arg hset hget key rest ih =>
        obtain ⟨items, hitems, rfl⟩ := Option.map_eq_some_iff.mp h
        exact .cons (.get key (by simpa using hget)) (ih hitems)
    | case6 arg rest hset hget hlist ih =>
        obtain ⟨items, hitems, rfl⟩ := Option.map_eq_some_iff.mp h
        exact .cons (.list (by simpa using hlist)) (ih hitems)
    | case7 arg hset hget hlist hdel key rest ih =>
        obtain ⟨items, hitems, rfl⟩ := Option.map_eq_some_iff.mp h
        exact .cons (.del key (by simpa using hdel)) (ih hitems)
    | case9 rest hset hget hlist hdel ih =>
        obtain ⟨items, hitems, rfl⟩ := Option.map_eq_some_iff.mp h
        exact .cons .sys (ih hitems)
    | case10 rest hset hget hlist hdel hsys ih =>
        obtain ⟨items, hitems, rfl⟩ := Option.map_eq_some_iff.mp h
        exact .cons .user (ih hitems)
    | case12 arg hset hget hlist hdel hsys huser hhelp opt hopt str rest ih =>
        obtain ⟨items, hitems, rfl⟩ := Option.map_eq_some_iff.mp h
        exact .cons (.store opt str (names_of_optionOf hopt)) (ih hitems)
    | _ => cases h

/-- The key and the value of a set are arguments. -/
theorem Sentence.mem_of_set {items : List Item} {args : List CString} (h : Sentence items args)
    {key value : CString} (hset : .operation (.set key value) ∈ items) :
    key ∈ args ∧ value ∈ args := by
  induction h with
  | nil => cases hset
  | cons hitem _ ih =>
      rcases List.mem_cons.mp hset with hfirst | hrest
      · subst hfirst
        cases hitem with
        | set key value hname => simp
      · obtain ⟨hkey, hvalue⟩ := ih hrest
        exact ⟨List.mem_append_right _ hkey, List.mem_append_right _ hvalue⟩

/-! ### The loop on `argv` and `argc` -/

section

variable (cfg : BuildConfig) (env : Environ) (argv : List CString)

end

section

variable (cfg : BuildConfig) (env : Environ)

end

end Nvram
