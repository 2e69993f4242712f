import SqlDispatch.Proofs.Arguments.Integer
import SqlDispatch.Proofs.Config
import SqlDispatch.Proofs.Streaming.Quantity
import SqlDispatch.Proofs.Streaming.RoundTrip

set_option autoImplicit false

/-!
One quantity given in two ways, in its variable or with its option. Variables are trimmed and read,
directives are cut into tokens first, where a sign may belong to a number or not; but the same
numerals are accepted in both, with the same value, and those beyond the bounds are rejected in both
(`variable_agrees_with_option`).
-/

namespace SqlDispatch

open Text Grammar

theorem Start.exists_read_of_denotes {cs rest : List Char} {value : Int} (h : Denotes cs value)
    (hr : EndsItem rest) :
    ∃ c more, cs = c :: more ∧ read true c (more ++ rest) = .lexeme .number more.length := by
  cases h with
  | unsigned hn hd =>
    obtain ⟨c, more, rfl⟩ := List.exists_cons_of_ne_nil hn
    exact ⟨c, more, rfl, read_digits hd hr⟩
  | plus hn hd => exact ⟨_, _, rfl, read_signed_digits (.inl rfl) hn hd hr⟩
  | minus hn hd => exact ⟨_, _, rfl, read_signed_digits (.inr rfl) hn hd hr⟩

theorem Cut.outcome_of_denotes {cs : List Char} {value : Int} (h : Denotes cs value)
    (position : Nat) :
    (cut true cs).outcome position =
      .ok [⟨.ofList cs, .number, position⟩, .finish (position + byteLength cs)] := by
  obtain ⟨c, more, rfl, hread⟩ := Start.exists_read_of_denotes h endsItem_nil
  rw [List.append_nil] at hread
  rw [outcome_of_lexeme hread, List.take_length, List.drop_length, outcome_nil]
  rfl

theorem Statement.exists_read_numeral {item : Item} {items : List Item} {front numeral : String}
    {value : Int} (hf : front.toList = item.text.toList ++ (Item.spaced items ++ [' ']))
    (hi : ∀ next ∈ item :: items, next.IsSound ∧ ¬ next.IsNegative)
    (hs : Item.signedAfter true (item :: items) = true) (hd : Denotes numeral.toList value) :
    ∃ tokens, List.Forall₂ Item.Stands (item :: items) tokens ∧
      read (front ++ numeral) = .ok ⟨front ++ numeral,
        tokens ++ [⟨numeral, .number, front.utf8ByteSize⟩,
          .finish (front ++ numeral).utf8ByteSize]⟩ := by
  have he : EndsItem (' ' :: numeral.toList) := endsItem_blank (by decide) _
  obtain ⟨⟨hi, hneg⟩, hrest⟩ := List.forall_mem_cons.1 hi
  have ht : (front ++ numeral).toList =
      item.text.toList ++ (Item.spaced items ++ ' ' :: numeral.toList) := by
    simp [hf]
  have hp : 0 + byteLength item.text.toList + byteLength (Item.spaced items) + byteLength [' '] =
      front.utf8ByteSize := by
    rw [← byteLength_toList, hf, byteLength_append, byteLength_append]
    omega
  have hspaced (signed : Bool) (position : Nat) :
      (cut signed (Item.spaced items ++ ' ' :: numeral.toList)).outcome position = _ :=
    Item.outcome_spaced_append (fun next hm => (hrest next hm).1)
      (fun next hm hg => absurd hg (hrest next (List.mem_of_mem_head? hm)).2)
      (Item.isChain_of_not_isNegative fun next hm => (hrest next hm).2) he position
  refine ⟨⟨item.text, item.kind, 0⟩ :: Item.placed (0 + byteLength item.text.toList) items,
    .cons ⟨rfl, rfl⟩ (Item.stands_placed items _), ?_⟩
  rw [Item.signedAfter] at hs
  rw [read_eq_outcome, ht, Item.outcome_append hi (fun h => absurd h hneg)
      (Item.endsItem_spaced items he), hspaced, Item.outcome_blank, hs,
    Cut.outcome_of_denotes hd, hp, String.ofList_toList, byteLength_toList numeral,
    ← String.utf8ByteSize_append]
  rfl

namespace Streaming

theorem toList_spaced_option {name : String} (h : name ∈ keywords) :
    ("SET STREAMING ON " ++ name ++ " ").toList = (Item.word (.ofText "SET")).text.toList ++
      (Item.spaced [.word (.ofText "STREAMING"), Settings.switch true, .word (.ofText name)] ++
        [' ']) := by
  have hset : (Item.word (.ofText "SET")).text = "SET" :=
    Item.text_of_mem_keywords (by decide +kernel)
  have hstreaming : (Item.word (.ofText "STREAMING")).text = "STREAMING" :=
    Item.text_of_mem_keywords (by decide +kernel)
  have hon : (Settings.switch true).text = "ON" := Settings.text_switch true
  have hfront : "SET STREAMING ON ".toList =
      "SET".toList ++ ' ' :: ("STREAMING".toList ++ ' ' :: ("ON".toList ++ [' '])) := by
    decide +kernel
  have hspace : " ".toList = [' '] := by decide +kernel
  simp only [Item.spaced, List.flatMap_cons, List.flatMap_nil, hset, hstreaming, hon,
    Item.text_of_mem_keywords h, String.toList_append, hfront, hspace, List.append_assoc,
    List.cons_append, List.nil_append]

namespace Quantity

theorem option_mem_keywords (quantity : Quantity) : quantity.option ∈ keywords := by
  cases quantity <;> decide +kernel

theorem ofText_option_eq_iff {quantity other : Quantity} :
    Capitals.ofText quantity.option = .ofText other.option ↔ quantity = other := by
  rw [ofText_inj_of_mem_keywords quantity.option_mem_keywords other.option_mem_keywords]
  cases quantity <;> cases other <;> decide

theorem ofText_option_ne (quantity : Quantity) :
    Capitals.ofText quantity.option ≠ .ofText Directive.allowOverwrite ∧
      Capitals.ofText quantity.option ≠ .ofText Directive.ordered := by
  rw [Ne, Ne, ofText_inj_of_mem_keywords quantity.option_mem_keywords (by decide +kernel),
    ofText_inj_of_mem_keywords quantity.option_mem_keywords (by decide +kernel)]
  cases quantity <;> decide

def opening (quantity : Quantity) : String := "SET STREAMING ON " ++ quantity.option ++ " "

def number (quantity : Quantity) (text : String) : Token :=
  ⟨text, .number, quantity.opening.utf8ByteSize⟩

def openingItems (quantity : Quantity) : List Item :=
  [.word (.ofText "STREAMING"), Settings.switch true, .word (.ofText quantity.option)]

theorem toList_opening (quantity : Quantity) :
    quantity.opening.toList = (Item.word (.ofText "SET")).text.toList ++
      (Item.spaced quantity.openingItems ++ [' ']) :=
  toList_spaced_option quantity.option_mem_keywords

theorem isSound_openingItems (quantity : Quantity) :
    ∀ item ∈ Item.word (.ofText "SET") :: quantity.openingItems,
      item.IsSound ∧ ¬ item.IsNegative := by
  have hoption := Item.isSound_of_mem_keywords quantity.option_mem_keywords
  refine isSound_name ?_
  simpa using ⟨⟨Settings.isSound_switch true, id⟩, hoption, id⟩

theorem signedAfter_openingItems (quantity : Quantity) :
    Item.signedAfter true (.word (.ofText "SET") :: quantity.openingItems) = true := by
  have ho : quantity.option ∉ operandKeywords := by cases quantity <;> decide
  simp only [openingItems, Item.signedAfter]
  exact (Item.signMayFollow_iff _).2
    (Item.takesSign_of_mem_keywords quantity.option_mem_keywords ho)

end Quantity

variable {text : String} {value : Int}

theorem ofArguments_single (defaults : Settings) (quantity : Quantity) (value : Int) :
    defaults.ofArguments
        ⟨[.boolean true], [(.ofText quantity.option, some (.integer value))]⟩ =
      .ok (quantity.put value { defaults with enabled := true, ordered := false }) := by
  let arguments : Arguments :=
    ⟨[.boolean true], [(.ofText quantity.option, some (.integer value))]⟩
  have hq (other : Quantity) :
      quantityOption arguments other.option =
        .ok (if quantity = other then some value else none) := by
    by_cases he : quantity = other
    · simp [readOption, Arguments.optionValue, arguments, he, Argument.integer?]
    · have hn := mt Quantity.ofText_option_eq_iff.1 he
      simp [readOption, Arguments.optionValue, arguments, he, hn]
  have hf : flagOption arguments Directive.allowOverwrite = .ok none := by
    simp [readOption, Arguments.optionValue, arguments, quantity.ofText_option_ne]
  have ho : arguments.hasOption Directive.ordered = false := by
    simp [Arguments.hasOption, arguments, quantity.ofText_option_ne]
  refine (Settings.ofArguments_eq_ok rfl (hq .batchSize) (hq .perNodeBufferSize)
    (hq .perNodeParallelOperations) (hq .flushFrequency) hf).trans ?_
  rw [ho]
  cases quantity <;> rfl

theorem exists_classify_opening (defaults : Settings) (quantity : Quantity)
    (h : Denotes text.toList value) :
    ∃ statement mode word, Statement.read (quantity.opening ++ text) = .ok statement ∧
      (builtin defaults).classify statement = .internal (directive defaults)
        [mode, word, quantity.number text, .finish (quantity.opening ++ text).utf8ByteSize] ∧
      (Settings.switch true).Stands mode ∧
      (Item.word (.ofText quantity.option)).Stands word := by
  obtain ⟨tokens, hs, hread⟩ := Statement.exists_read_numeral quantity.toList_opening
    quantity.isSound_openingItems quantity.signedAfter_openingItems h
  obtain ⟨later, hs, hclass⟩ := exists_classify_of_stands defaults hs
  cases hs with
  | @cons _ mode _ _ hmode hs =>
    cases hs with
    | @cons _ word _ _ hword hs =>
      cases hs
      exact ⟨_, mode, word, hread, hclass _ _, hmode, hword⟩

end Streaming

namespace Config

open Streaming

def only (key text : String) : Lookup := fun other => if other = key then some text else none

def readSetting (lookup : Lookup) (quantity : Quantity) : Reading Int :=
  readQuantity lookup quantity.key quantity.least Streaming.greatest

theorem read_eq_readSetting (lookup : Lookup) :
    read lookup =
      (⟨(readTarget lookup).value.getD standard.target,
        (readQuantity lookup timeoutVariable 0 greatestTimeout).value.elim standard.timeout
          fun seconds => Span.limit seconds.toNat,
        { enabled := false
          batchSize := (readSetting lookup .batchSize).value.getD Settings.standard.batchSize
          perNodeBufferSize :=
            (readSetting lookup .perNodeBufferSize).value.getD Settings.standard.perNodeBufferSize
          perNodeParallelOperations := (readSetting lookup .perNodeParallelOperations).value.getD
            Settings.standard.perNodeParallelOperations
          allowOverwrite :=
            (readFlag lookup allowOverwriteVariable).getD Settings.standard.allowOverwrite
          flushFrequency :=
            (readSetting lookup .flushFrequency).value.getD Settings.standard.flushFrequency
          ordered := (readFlag lookup orderedVariable).getD Settings.standard.ordered }⟩,
        (readTarget lookup).events ++
          (readQuantity lookup timeoutVariable 0 greatestTimeout).events ++
          (readSetting lookup .batchSize).events ++
          (readSetting lookup .perNodeBufferSize).events ++
          (readSetting lookup .perNodeParallelOperations).events ++
          (readSetting lookup .flushFrequency).events) := rfl

/-- Where no other variable is there, a quantity is all that can differ from the standard. -/
theorem read_of_forall_ne (quantity : Quantity) {lookup : Lookup}
    (h : ∀ key, key ≠ quantity.key → lookup key = none) :
    read lookup =
      ({ standard with
          streaming := (readSetting lookup quantity).value.elim standard.streaming
            (quantity.put · standard.streaming) },
        (readSetting lookup quantity).events) := by
  have ht : readTarget lookup = ⟨none, []⟩ := by
    rw [readTarget, h _ (by cases quantity <;> decide)]
  have hs : readQuantity lookup timeoutVariable 0 greatestTimeout = ⟨none, []⟩ := by
    rw [readQuantity, h _ (by cases quantity <;> decide)]
  have ho : readFlag lookup allowOverwriteVariable = none := by
    rw [readFlag, h _ (by cases quantity <;> decide), Option.bind_none]
  have hr : readFlag lookup orderedVariable = none := by
    rw [readFlag, h _ (by cases quantity <;> decide), Option.bind_none]
  have hq (other : Quantity) (hn : other ≠ quantity) : readSetting lookup other = ⟨none, []⟩ := by
    rw [readSetting, readQuantity, h]
    revert hn
    cases other <;> cases quantity <;> decide
  rw [read_eq_readSetting, ht, hs, ho, hr]
  cases quantity
  all_goals
    simp only [hq, ne_eq, reduceCtorEq, not_false_eq_true, List.nil_append, List.append_nil,
      Option.getD_none, Option.elim_none]
    cases readSetting lookup _ with
    | mk value events => cases value <;> rfl

theorem read_only (quantity : Quantity) {text : String} {value : Int}
    (h : Denotes text.toList value) :
    read (only quantity.key text) =
      if quantity.least ≤ value ∧ value ≤ Streaming.greatest then
        ({ standard with streaming := quantity.put value standard.streaming }, [])
      else
        (standard, [.variableIgnored quantity.key text quantity.least Streaming.greatest]) := by
  have hl : only quantity.key text quantity.key = some text := if_pos rfl
  have hn (key : String) (hk : key ≠ quantity.key) : only quantity.key text key = none := if_neg hk
  rw [read_of_forall_ne quantity hn, readSetting]
  split
  · rename_i hb
    rw [readQuantity_eq_some hl (isPadded_self text) h hb]
    rfl
  · rename_i hb
    rw [readQuantity_eq_none hl (isPadded_self text) h hb]
    rfl

end Config

namespace Router

open Streaming

/-- A directive that gives a quantity a number is prepared if the number is within the bounds, and
else the number is what is wrong with it. -/
theorem prepare_opening (config : Config) (quantity : Quantity) {text : String} {value : Int}
    (h : Denotes text.toList value) :
    (ofConfig config).prepare (quantity.opening ++ text) =
      if quantity.least ≤ value ∧ value ≤ greatest then
        .ok (.internal (directive config.streaming)
          ⟨[.boolean true], [(.ofText quantity.option, some (.integer value))]⟩)
      else
        .error (Argument.outOfRange (quantity.number text) quantity.least greatest) := by
  obtain ⟨statement, mode, word, hread, hclass, hmode, hword⟩ :=
    exists_classify_opening config.streaming quantity h
  have hd := Settings.nodup_directive_options config.streaming
  have hn := Command.names_of_stands hd (quantity.valued_mem_options config.streaming) hword
  have ha : Arguments.read (directive config.streaming) [mode, word, quantity.number text,
      .finish (quantity.opening ++ text).utf8ByteSize] = _ :=
    Arguments.read_single_clause rfl (Settings.read_of_stands_switch hmode) hn rfl rfl
  have hv : Argument.read (quantity.number text) quantity.kind = _ := Argument.read_of_denotes rfl h
  rw [hv] at ha
  simp only [prepare, hread, ofConfig, hclass, ha]
  by_cases hb : quantity.least ≤ value ∧ value ≤ greatest
  · rw [if_pos hb, if_pos hb]
    rfl
  · rw [if_neg hb, if_neg hb]
    rfl

/-- A numeral of any length, given for a quantity in its variable alone or with its option in a
directive, is accepted in both or in neither, and as the same number. It is accepted if it lies
within the bounds; else the variable is ignored with one complaint and the standard stays, and the
directive fails at the numeral and leaves everything as it was. -/
theorem variable_agrees_with_option (quantity : Quantity) {text : String} {value : Int}
    (h : Denotes text.toList value) (config : Config) {State : Type} (engine : Engine State)
    (context : Context) (session : Session) (state : State) :
    let reading := Config.read (Config.only quantity.key text)
    let front := "SET STREAMING ON " ++ quantity.option ++ " "
    let execution := (ofConfig config).execute engine context (front ++ text) session state
    (∀ used, quantity.value reading.1.streaming = used ∧ reading.2 = [] ↔
      (∃ outcome, execution.result = .ok outcome) ∧
        execution.session.get? (Settings.optionName quantity.name) = some (.integer used)) ∧
    (quantity.least ≤ value ∧ value ≤ greatest →
      reading = ({ Config.standard with streaming := quantity.put value .standard }, []) ∧
      ∃ settings, settings = quantity.put value
          { config.streaming with enabled := true, ordered := false } ∧
        execution.result = .ok (.command ⟨Directive.name, settings.summary⟩) ∧
        execution.session = settings.store session) ∧
    (¬ (quantity.least ≤ value ∧ value ≤ greatest) →
      reading = (.standard, [.variableIgnored quantity.key text quantity.least greatest]) ∧
      execution = ⟨.error (.argumentType front.utf8ByteSize quantity.kind.describe text
        ("Value " ++ text ++ " is out of range, expected value in [" ++ decimal quantity.least ++
          ", " ++ decimal greatest ++ "].")), session, state, none, [], false⟩) := by
  intro reading front execution
  have hread : reading = _ := Config.read_only quantity h
  have hprepare : (ofConfig config).prepare (front ++ text) = _ := prepare_opening config quantity h
  by_cases hb : quantity.least ≤ value ∧ value ≤ greatest
  · rw [if_pos hb] at hread hprepare
    obtain ⟨hresult, hsession⟩ := execute_of_prepared_directive hprepare
      (ofArguments_single config.streaming quantity value) engine context session state
    have hget := Settings.get?_store (quantity.mem_named (quantity.put value
      { config.streaming with enabled := true, ordered := false })) session
    rw [Quantity.value_put] at hget
    refine ⟨fun used => ?_, fun _ => ⟨hread, _, rfl, hresult, hsession⟩, fun hn => absurd hb hn⟩
    have hresult : execution.result = _ := hresult
    have hsession : execution.session = _ := hsession
    rw [hread, hresult, hsession, hget]
    simp
  · rw [if_neg hb] at hread hprepare
    have hexecution : execution = ⟨.error (Argument.outOfRange (quantity.number text)
        quantity.least greatest), session, state, none, [], false⟩ := by
      simp only [execution, execute, hprepare]
    refine ⟨fun used => ?_, fun hin => absurd hin hb, fun _ => ⟨hread, hexecution⟩⟩
    rw [hread, hexecution]
    simp

/-- Zeros in front and a sign are no part of the number, here and there; and beyond 64 bits it is
rejected here and there. -/
theorem variable_agrees_with_option_padded :
    let quantity := Quantity.batchSize
    let execution (text : String) := (ofConfig .standard).execute (Engine.scripted (.ok [])) .plain
      ("SET STREAMING ON " ++ quantity.option ++ " " ++ text) .empty []
    Denotes "+0007".toList 7 ∧ Denotes "18446744073709551617".toList 18446744073709551617 ∧
      quantity.value (Config.read (Config.only quantity.key "+0007")).1.streaming = 7 ∧
      (execution "+0007").session.get? (Settings.optionName quantity.name) = some (.integer 7) ∧
      (Config.read (Config.only quantity.key "18446744073709551617")).1 = .standard ∧
      (execution "18446744073709551617").session = .empty := by
  intro quantity execution
  have hs : Denotes "+0007".toList 7 := integer_eq_some_iff.1 (by decide +kernel)
  have hl : Denotes "18446744073709551617".toList 18446744073709551617 :=
    integer_eq_some_iff.1 (by decide +kernel)
  obtain ⟨hagree, hin, _⟩ := variable_agrees_with_option quantity hs .standard
    (Engine.scripted (.ok [])) .plain .empty []
  obtain ⟨hread, _⟩ := hin (by decide)
  obtain ⟨_, _, hout⟩ := variable_agrees_with_option quantity hl .standard
    (Engine.scripted (.ok [])) .plain .empty []
  obtain ⟨hignored, hfails⟩ := hout (by decide)
  have hvalue :
      quantity.value (Config.read (Config.only quantity.key "+0007")).1.streaming = 7 := by
    rw [hread]
    rfl
  refine ⟨hs, hl, hvalue, ?_, by rw [hignored], ?_⟩
  · exact ((hagree 7).1 ⟨hvalue, by rw [hread]⟩).2
  · exact congrArg Execution.session hfails

end Router

end SqlDispatch
