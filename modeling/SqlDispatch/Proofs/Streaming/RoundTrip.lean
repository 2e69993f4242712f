import Mathlib.Data.List.Perm.Basic
import SqlDispatch.Proofs.Command.RoundTrip
import SqlDispatch.Proofs.Execution

set_option autoImplicit false

/-!
Settings written as a directive. Their text gives every option, so it is read as a directive that
leaves nothing to its defaults, in whatever order the clauses are written, and a session that
executes it holds these settings (`settings_of_text`).
-/

namespace SqlDispatch

open Text

theorem Item.isEnding_terminator {terminator : String} (h : terminator ∈ ["", ";", " ;"]) :
    Item.IsEnding terminator.toList fun last =>
      last = [] ∨ ∃ token, token.isSymbol ";" = true ∧ last = [token] := by
  simp only [List.mem_cons, List.not_mem_nil, or_false] at h
  rcases h with rfl | rfl | rfl
  · exact isEnding_nil.imp fun _ => .inl
  · exact isEnding_semicolon.imp fun _ => .inr
  · exact (isEnding_semicolon.imp fun _ => .inr).blank

namespace Streaming.Settings

variable {defaults settings : Settings}

def options (settings : Settings) : List (Capitals × Option Argument) :=
  [(.ofText Directive.batchSize, some (.integer settings.batchSize)),
    (.ofText Directive.perNodeBufferSize, some (.integer settings.perNodeBufferSize)),
    (.ofText Directive.perNodeParallelOperations,
      some (.integer settings.perNodeParallelOperations)),
    (.ofText Directive.flushFrequency, some (.integer settings.flushFrequency)),
    (.ofText Directive.allowOverwrite, some (.boolean settings.allowOverwrite))] ++
  if settings.ordered then [(.ofText Directive.ordered, none)] else []

theorem nodup_options (settings : Settings) : (settings.options.map (·.1)).Nodup := by
  have h (flags : List String) (hf : flags = [] ∨ flags = [Directive.ordered]) :
      (([Directive.batchSize, Directive.perNodeBufferSize, Directive.perNodeParallelOperations,
        Directive.flushFrequency, Directive.allowOverwrite] ++ flags).map
          Capitals.ofText).Nodup := by
    rcases hf with rfl | rfl <;> decide +kernel
  cases ho : settings.ordered with
  | false => simpa [options, ho] using h [] (.inl rfl)
  | true => simpa [options, ho] using h [Directive.ordered] (.inr rfl)

/-- The options of settings leave nothing to the defaults, but that `ORDERED` is off. -/
theorem completes_options (ho : defaults.ordered = false) {arguments : Arguments}
    (he : arguments.positional = [.boolean settings.enabled])
    (hp : arguments.options.Perm settings.options) : defaults.Completes arguments settings := by
  have hm {entry : Capitals × Option Argument} (h : entry ∈ settings.options) :
      entry ∈ arguments.options := hp.mem_iff.2 h
  refine ⟨he, .inl (hm ?_), .inl (hm ?_), .inl (hm ?_), .inl (hm ?_), .inl (hm ?_), ?_⟩
  · simp [options]
  · simp [options]
  · simp [options]
  · simp [options]
  · simp [options]
  · cases hs : settings.ordered with
    | true => exact .inl ⟨hm (by simp [options, hs]), rfl⟩
    | false =>
      refine .inr ⟨fun given hg => ?_, ho.symm⟩
      have hname : Capitals.ofText Directive.ordered ∉ [Directive.batchSize,
          Directive.perNodeBufferSize, Directive.perNodeParallelOperations,
          Directive.flushFrequency, Directive.allowOverwrite].map Capitals.ofText := by
        decide +kernel
      have hg := List.mem_map_of_mem (f := Prod.fst) (hp.mem_iff.1 hg)
      simp only [options, hs, Bool.false_eq_true, if_false, List.append_nil] at hg
      exact hname hg

def Spells (defaults : Settings) (clause : List String) (entry : Capitals × Option Argument) :
    Prop :=
  ∃ items : List Item, items.map Item.text = clause ∧
    (∀ item ∈ items, item.IsSound ∧ ¬ item.IsNegative) ∧ (directive defaults).Writes items entry

def switch (value : Bool) : Item := .word (.ofText (OptionValue.boolean value).display)

theorem isSound_switch (value : Bool) : (switch value).IsSound := by
  cases value <;> exact Item.isSound_of_mem_keywords (by decide +kernel)

theorem text_switch (value : Bool) :
    (switch value).text = (OptionValue.boolean value).display := by
  cases value <;> decide +kernel

theorem read_of_stands_switch {value : Bool} {token : Token} (h : (switch value).Stands token) :
    Argument.read token .boolean = .ok (.boolean value) := by
  have hon : lower "ON" = "on" := by decide +kernel
  have hoff : lower "OFF" = "off" := by decide +kernel
  have hl := h.1
  rw [text_switch] at hl
  cases value <;>
    simp [Argument.read, Argument.readBoolean, hl, OptionValue.display, hon, hoff, Except.map]

theorem spells_option {name : String} (hn : name ∈ keywords) {given : Option Argument}
    (hd : (directive defaults).Declares (.ofText name, given))
    (hg : ∀ argument ∈ given, ¬ (Item.value argument).IsNegative) :
    Spells defaults (name :: (given.map Argument.text).toList) (.ofText name, given) := by
  refine ⟨Command.optionItems (.ofText name, given), ?_, ?_, fun tokens ht =>
    Command.isClause_of_stands (nodup_directive_options defaults) hd ht⟩
  · have ht := Item.text_of_mem_keywords hn
    cases given with
    | none => simp [Command.optionItems, ht]
    | some argument =>
      have ha : (Item.value argument).text = argument.text := rfl
      simp [Command.optionItems, ht, ha]
  · intro item hm
    rcases List.mem_cons.1 hm with rfl | hm
    · exact ⟨Item.isSound_of_mem_keywords hn, id⟩
    · cases given with
      | none => simp at hm
      | some argument =>
        obtain rfl := List.mem_singleton.1 hm
        exact ⟨trivial, hg argument rfl⟩

theorem spells_quantity {name : String} {least value : Int} (hn : name ∈ keywords)
    (ho : .valued name (.integer least greatest) ∈ (directive defaults).options)
    (hl : 0 ≤ least) (hv : least ≤ value ∧ value ≤ greatest) :
    Spells defaults [name, decimal value] (.ofText name, some (.integer value)) := by
  have hf : (Argument.integer value).Fits (.integer least greatest) := hv
  have hneg : ¬ (Item.value (.integer value)).IsNegative := by
    simp only [Item.IsNegative]
    omega
  exact spells_option hn ⟨_, ho, rfl, .inr ⟨_, _, rfl, rfl, hf⟩⟩ (by simpa using hneg)

theorem spells_overwrite (defaults : Settings) (value : Bool) :
    Spells defaults [Directive.allowOverwrite, (OptionValue.boolean value).display]
      (.ofText Directive.allowOverwrite, some (.boolean value)) := by
  have hn : Directive.allowOverwrite ∈ keywords := by decide +kernel
  have ho : .valued Directive.allowOverwrite .boolean ∈ (directive defaults).options := by
    simp [directive]
  -- the value is a word here and not a truth value as one writes it among arguments
  refine ⟨[.word (.ofText Directive.allowOverwrite), switch value], ?_, ?_, fun tokens ht => ?_⟩
  · simp [text_switch, Item.text_of_mem_keywords hn]
  · simpa using ⟨⟨Item.isSound_of_mem_keywords hn, id⟩, isSound_switch value, id⟩
  · cases ht with
    | cons hname ht =>
      cases ht with
      | cons hvalue ht =>
        cases ht
        exact .valued (Command.names_of_stands (nodup_directive_options defaults) ho hname) rfl
          (read_of_stands_switch hvalue)

theorem spells_clauses (defaults : Settings) (hr : settings.InRange) :
    List.Forall₂ (Spells defaults) settings.clauses settings.options := by
  obtain ⟨hb, hu, hp, hf⟩ := hr
  have hordered : Spells defaults [Directive.ordered] (.ofText Directive.ordered, none) :=
    spells_option (by decide +kernel)
      ⟨.flag Directive.ordered, by simp [directive], rfl, .inl ⟨rfl, rfl⟩⟩ (by simp)
  refine List.rel_append (.cons ?_ (.cons ?_ (.cons ?_ (.cons ?_ (.cons ?_ .nil))))) ?_
  · exact spells_quantity (by decide +kernel) (by simp [directive, positive]) (by decide) hb
  · exact spells_quantity (by decide +kernel) (by simp [directive, positive]) (by decide) hu
  · exact spells_quantity (by decide +kernel) (by simp [directive, positive]) (by decide) hp
  · exact spells_quantity (by decide +kernel) (by simp [directive, notNegative]) (by decide) hf
  · exact spells_overwrite defaults settings.allowOverwrite
  · cases settings.ordered with
    | false => exact .nil
    | true => exact .cons hordered .nil

theorem exists_items_of_spells {clauses : List (List String)}
    {options : List (Capitals × Option Argument)}
    (h : List.Forall₂ (Spells defaults) clauses options) :
    ∃ parts : List (List Item), parts.flatten.map Item.text = clauses.flatten ∧
      (∀ item ∈ parts.flatten, item.IsSound ∧ ¬ item.IsNegative) ∧
      List.Forall₂ (directive defaults).Writes parts options := by
  induction h with
  | nil => exact ⟨[], rfl, by simp, .nil⟩
  | cons hs _ ih =>
    obtain ⟨items, rfl, hi, hw⟩ := hs
    obtain ⟨parts, ht, hp, hws⟩ := ih
    refine ⟨items :: parts, by simp [ht], fun item hm => ?_, .cons hw hws⟩
    rcases List.mem_append.1 hm with hm | hm
    · exact hi item hm
    · exact hp item hm

theorem toList_text (settings : Settings) {clauses : List (List String)} {items : List Item}
    (h : items.map Item.text = clauses.flatten) :
    (settings.text clauses).toList = (Item.word (.ofText "SET")).text.toList ++
      Item.spaced (.word (.ofText "STREAMING") :: switch settings.enabled :: items) := by
  have hname : Directive.name.toList = (Item.word (.ofText "SET")).text.toList ++
      ' ' :: (Item.word (.ofText "STREAMING")).text.toList := by decide +kernel
  rw [text, List.cons_append, Item.toList_intercalate, hname, List.append_assoc]
  simp [Item.spaced, ← h, text_switch, List.flatMap_map]

theorem accepts_of_stands {mode : Bool} {parts : List (List Item)}
    {options : List (Capitals × Option Argument)}
    (hw : List.Forall₂ (directive defaults).Writes parts options)
    (hn : (options.map (·.1)).Nodup) {tokens last : List Token}
    (hs : List.Forall₂ Item.Stands (switch mode :: parts.flatten) tokens)
    (hl : last = [] ∨ ∃ token, token.isSymbol ";" = true ∧ last = [token]) :
    (directive defaults).Accepts (tokens ++ last) ⟨[.boolean mode], options⟩ := by
  cases hs with
  | @cons _ token _ tokens hmode hclauses =>
    exact ⟨[token], tokens, last, rfl, hl, .cons (read_of_stands_switch hmode) .nil,
      Command.isClauses_of_writes hw hn hclauses⟩

end Streaming.Settings

namespace Streaming

theorem words_directive (defaults : Settings) :
    (directive defaults).words = [.ofText "SET", .ofText "STREAMING"] := by
  have h : Command.nameWords Directive.name = [.ofText "SET", .ofText "STREAMING"] := by
    decide +kernel
  exact h

theorem isSound_name {items : List Item} (h : ∀ item ∈ items, item.IsSound ∧ ¬ item.IsNegative) :
    ∀ item ∈ Item.word (.ofText "SET") :: .word (.ofText "STREAMING") :: items,
      item.IsSound ∧ ¬ item.IsNegative := by
  have hset : Item.IsSound (.word (.ofText "SET")) :=
    Item.isSound_of_mem_keywords (by decide +kernel)
  have hstreaming : Item.IsSound (.word (.ofText "STREAMING")) :=
    Item.isSound_of_mem_keywords (by decide +kernel)
  exact List.forall_mem_cons.2 ⟨⟨hset, id⟩, List.forall_mem_cons.2 ⟨⟨hstreaming, id⟩, h⟩⟩

theorem exists_classify_of_stands (defaults : Settings) {items : List Item} {tokens : List Token}
    (h : List.Forall₂ Item.Stands (.word (.ofText "SET") :: .word (.ofText "STREAMING") :: items)
      tokens) :
    ∃ later, List.Forall₂ Item.Stands items later ∧ ∀ text rest,
      (builtin defaults).classify ⟨text, tokens ++ rest⟩ =
        .internal (directive defaults) (later ++ rest) := by
  replace h : List.Forall₂ Item.Stands ((directive defaults).words.map .word ++ items) tokens := by
    rwa [words_directive]
  obtain ⟨name, later, rfl, hname, hs⟩ := Command.exists_append_of_forall₂ h
  refine ⟨later, hs, fun text rest => ?_⟩
  rw [List.append_assoc]
  refine CommandTable.classify_append (List.mem_singleton_self _) ?_
    (Command.opens_of_stands hname _) ?_ text
  · simpa using hname.length_eq.symm
  -- no other name is there to be longer
  · intro other hm _
    rw [List.mem_singleton.1 hm]

end Streaming

namespace Router

open Streaming

theorem exists_classify_of_items (defaults : Settings) {text : String} {items : List Item}
    {rest : List Char} {P : List Token → Prop} (hr : Item.IsEnding rest P)
    (ht : text.toList = (Item.word (.ofText "SET")).text.toList ++
      (Item.spaced (.word (.ofText "STREAMING") :: items) ++ rest))
    (hi : ∀ item ∈ items, item.IsSound ∧ ¬ item.IsNegative) :
    ∃ statement tokens last, Statement.read text = .ok statement ∧
      (builtin defaults).classify statement =
        .internal (directive defaults) (tokens ++ last ++ [.finish text.utf8ByteSize]) ∧
      List.Forall₂ Item.Stands items tokens ∧ P last := by
  have hall := isSound_name hi
  obtain ⟨tokens, last, hread, hs, hl⟩ := Statement.exists_read_items_append hr ht
    (fun item hm => (hall item hm).1) id
    (Item.isChain_of_not_isNegative fun item hm => (hall item hm).2)
  obtain ⟨later, hs, hclass⟩ := exists_classify_of_stands defaults hs
  refine ⟨_, later, last, hread, ?_, hs, hl⟩
  rw [List.append_assoc, List.append_assoc, hclass]

/-- The text of settings within bounds, with its clauses in any order and a semicolon behind it or
not, is prepared as a directive, and wherever it is executed the session holds these settings
afterwards, whatever it held before and whatever the defaults. -/
theorem settings_of_text {settings : Settings} (hr : settings.InRange) (defaults : Settings)
    {clauses : List (List String)} (hp : clauses.Perm settings.clauses) {terminator : String}
    (ht : terminator ∈ ["", ";", " ;"]) (target : Target) (timeout : Option Span) :
    let router : Router := ⟨builtin defaults, target, timeout⟩
    let text := settings.text clauses ++ terminator
    (∃ arguments, router.prepare text = .ok (.internal (directive defaults) arguments)) ∧
    ∀ (State : Type) (engine : Engine State) (context : Context) (session : Session)
      (state : State),
      let execution := router.execute engine context text session state
      execution.result = .ok (.command ⟨Directive.name, settings.summary⟩) ∧
        ∀ otherwise, Settings.ofSession execution.session otherwise = settings := by
  intro router text
  -- the options stand in the order of the clauses
  obtain ⟨options, hspells, hoptions⟩ :=
    List.perm_comp_forall₂ hp (Settings.spells_clauses defaults hr)
  obtain ⟨parts, hparts, hitems, hwrites⟩ := Settings.exists_items_of_spells hspells
  have hn : (options.map (·.1)).Nodup :=
    (hoptions.map _).nodup_iff.2 settings.nodup_options
  have htext : text.toList = (Item.word (.ofText "SET")).text.toList ++
      (Item.spaced (.word (.ofText "STREAMING") :: Settings.switch settings.enabled ::
        parts.flatten) ++ terminator.toList) := by
    rw [String.toList_append, settings.toList_text hparts, List.append_assoc]
  obtain ⟨statement, tokens, last, hread, hclass, hs, hl⟩ :=
    exists_classify_of_items defaults (Item.isEnding_terminator ht) htext
      (List.forall_mem_cons.2 ⟨⟨Settings.isSound_switch _, by cases settings.enabled <;> exact id⟩,
        hitems⟩)
  have haccepts := Settings.accepts_of_stands hwrites hn hs hl
  have hprepare : router.prepare text =
      .ok (.internal (directive defaults) ⟨[.boolean settings.enabled], options⟩) :=
    prepare_eq_internal_iff.2 ⟨statement, _, hread, hclass, haccepts⟩
  -- no option is given twice, so there are no other settings that these arguments can ask for
  obtain ⟨given, hgiven, hc⟩ := Settings.exists_ofArguments haccepts
  obtain rfl : settings = given :=
    (Settings.completes_options rfl rfl hoptions).functional hn hc
  refine ⟨⟨_, hprepare⟩, fun State engine context session state => ?_⟩
  obtain ⟨hresult, hsession⟩ :=
    execute_of_prepared_directive hprepare hgiven engine context session state
  refine ⟨hresult, fun otherwise => ?_⟩
  rw [hsession, Settings.ofSession_store]

theorem settings_of_text_backwards :
    let settings : Settings := ⟨true, 512, 2147483647, 1, true, 0, true⟩
    let text := "SET STREAMING ON ORDERED ALLOW_OVERWRITE ON FLUSH_FREQUENCY 0 " ++
      "PER_NODE_PARALLEL_OPERATIONS 1 PER_NODE_BUFFER_SIZE 2147483647 BATCH_SIZE 512;"
    let engine := Engine.scripted (.ok [])
    settings.InRange ∧ settings.clauses.reverse.Perm settings.clauses ∧
      settings.text settings.clauses.reverse ++ ";" = text ∧
      ∀ session state otherwise, Settings.ofSession ((ofTable (builtin .standard)).execute engine
        .plain text session state).session otherwise = settings := by
  intro settings text engine
  have hr : settings.InRange := ⟨by decide, by decide, by decide, by decide⟩
  have hp : settings.clauses.reverse.Perm settings.clauses := List.reverse_perm _
  have ht : settings.text settings.clauses.reverse ++ ";" = text := by decide +kernel
  refine ⟨hr, hp, ht, fun session state otherwise => ?_⟩
  have hs : ";" ∈ ["", ";", " ;"] := by simp
  obtain ⟨_, h⟩ := settings_of_text hr .standard hp hs .cluster none
  rw [← ht]
  exact (h _ engine .plain session state).2 otherwise

end Router

end SqlDispatch
