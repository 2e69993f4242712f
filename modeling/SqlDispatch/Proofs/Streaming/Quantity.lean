import SqlDispatch.Proofs.Fault
import SqlDispatch.Proofs.Streaming.Run

set_option autoImplicit false

/-!
The quantities among the settings of streaming mode, and what the handler looks for in arguments.
Each quantity has a variable, an option and a place among the settings. The handler fails just where
it finds something else than it expects (`exists_ofArguments_iff`), and what it expects is what the
directive declares, so behind the table of every directive there is it never fails
(`execute_ofConfig_ne_handler`).
-/

namespace SqlDispatch

open Text

namespace Streaming

inductive Quantity where
  | batchSize
  | perNodeBufferSize
  | perNodeParallelOperations
  | flushFrequency
  deriving DecidableEq, Repr

namespace Quantity

def key : Quantity → String
  | .batchSize => Config.batchSizeVariable
  | .perNodeBufferSize => Config.perNodeBufferSizeVariable
  | .perNodeParallelOperations => Config.perNodeParallelOperationsVariable
  | .flushFrequency => Config.flushFrequencyVariable

def option : Quantity → String
  | .batchSize => Directive.batchSize
  | .perNodeBufferSize => Directive.perNodeBufferSize
  | .perNodeParallelOperations => Directive.perNodeParallelOperations
  | .flushFrequency => Directive.flushFrequency

def name : Quantity → String
  | .batchSize => "batch_size"
  | .perNodeBufferSize => "per_node_buffer_size"
  | .perNodeParallelOperations => "per_node_parallel_operations"
  | .flushFrequency => "flush_frequency_ms"

/-- The least value: only of the time between flushes is there none. -/
def least : Quantity → Int
  | .flushFrequency => 0
  | .batchSize | .perNodeBufferSize | .perNodeParallelOperations => 1

def kind (quantity : Quantity) : ArgumentKind := .integer quantity.least greatest

def value : Quantity → Settings → Int
  | .batchSize => Settings.batchSize
  | .perNodeBufferSize => Settings.perNodeBufferSize
  | .perNodeParallelOperations => Settings.perNodeParallelOperations
  | .flushFrequency => Settings.flushFrequency

def put (value : Int) (settings : Settings) : Quantity → Settings
  | .batchSize => { settings with batchSize := value }
  | .perNodeBufferSize => { settings with perNodeBufferSize := value }
  | .perNodeParallelOperations => { settings with perNodeParallelOperations := value }
  | .flushFrequency => { settings with flushFrequency := value }

@[simp]
theorem value_put (value : Int) (settings : Settings) (quantity : Quantity) :
    quantity.value (quantity.put value settings) = value := by
  cases quantity <;> rfl

theorem mem_named (quantity : Quantity) (settings : Settings) :
    (quantity.name, .integer (quantity.value settings)) ∈ settings.named := by
  cases quantity <;> simp [name, value, Settings.named]

theorem valued_mem_options (quantity : Quantity) (defaults : Settings) :
    .valued quantity.option quantity.kind ∈ (directive defaults).options := by
  cases quantity <;> simp [directive, option, kind, least, positive, notNegative]

end Quantity

/-- What the handler looks for in arguments: the mode, and of the options that have values, numbers
for the quantities and a truth value for overwriting. -/
structure IsExpected (arguments : Arguments) : Prop where
  mode : ∃ mode, arguments.get? 0 = some (.boolean mode)
  quantity : ∀ quantity : Quantity, ∀ given ∈ arguments.optionValue quantity.option,
    ∃ value, given = .integer value
  overwrite : ∀ given ∈ arguments.optionValue Directive.allowOverwrite,
    ∃ value, given = .boolean value

theorem exists_readOption_iff {α : Type} {read : Argument → Option α} {wrap : α → Argument}
    (hr : ∀ {given value}, read given = some value ↔ given = wrap value) {noun : String}
    {arguments : Arguments} {name : String} :
    (∃ given, readOption read noun arguments name = .ok given) ↔
      ∀ given ∈ arguments.optionValue name, ∃ value, given = wrap value := by
  simp only [← hr]
  unfold readOption
  cases arguments.optionValue name with
  | none => simp
  | some given => cases hg : read given <;> simp [hg]

/-- The handler takes the arguments that it expects, and no others, whatever its defaults. -/
theorem exists_ofArguments_iff {defaults : Settings} {arguments : Arguments} :
    (∃ settings, defaults.ofArguments arguments = .ok settings) ↔ IsExpected arguments := by
  constructor
  · intro h
    obtain ⟨settings, h⟩ := h
    simp only [Settings.ofArguments_eq, bind_eq_ok_iff] at h
    obtain ⟨mode, hm, batch, hb, buffer, hu, parallel, hp, flush, hf, overwrite, ho, _⟩ := h
    refine ⟨?_, fun quantity => ?_, (exists_readOption_iff Argument.boolean?_eq_some_iff).1 ⟨_, ho⟩⟩
    · cases hg : arguments.get? 0 with
      | none => simp [readMode, hg] at hm
      | some given => cases given <;> simp [readMode, hg, Argument.boolean?] at hm ⊢
    · have hi {name given} (h : quantityOption arguments name = .ok given) :=
        (exists_readOption_iff Argument.integer?_eq_some_iff).1 ⟨given, h⟩
      cases quantity with
      | batchSize => exact hi hb
      | perNodeBufferSize => exact hi hu
      | perNodeParallelOperations => exact hi hp
      | flushFrequency => exact hi hf
  · intro h
    obtain ⟨mode, hm⟩ := h.mode
    have hme : readMode arguments = .ok mode := by simp [readMode, hm, Argument.boolean?]
    have hq (quantity : Quantity) :
        ∃ given, quantityOption arguments quantity.option = .ok given :=
      (exists_readOption_iff Argument.integer?_eq_some_iff).2 (h.quantity quantity)
    obtain ⟨batch, hb⟩ := hq .batchSize
    obtain ⟨buffer, hu⟩ := hq .perNodeBufferSize
    obtain ⟨parallel, hp⟩ := hq .perNodeParallelOperations
    obtain ⟨flush, hf⟩ := hq .flushFrequency
    obtain ⟨overwrite, ho⟩ : ∃ given, flagOption arguments Directive.allowOverwrite = .ok given :=
      (exists_readOption_iff Argument.boolean?_eq_some_iff).2 h.overwrite
    exact ⟨_, Settings.ofArguments_eq_ok hme hb hu hp hf ho⟩

end Streaming

namespace Router

open Streaming

variable {router : Router} {text : String} {name : String} {causes : List String}

theorem prepare_ne_handler : router.prepare text ≠ .error (.handler name causes) := by
  intro h
  rcases prepare_eq_error_iff.1 h with hr | ⟨_, _, _, hr, hc, ha⟩
  · exact pointsInto_of_read router.table hr
  · exact pointsInto_of_arguments hr hc ha

/-- Arguments that are read for the directive are what its handler looks for: the mode is a truth
value, every quantity that is given a number, and overwriting a truth value. So no execution behind
the table of every directive there is fails in a handler. -/
theorem execute_ofConfig_ne_handler (config : Config) :
    (∀ (tokens : List Token) (arguments : Arguments),
      Arguments.read (directive config.streaming) tokens = .ok arguments →
      (∃ mode, arguments.positional = [.boolean mode]) ∧
      (∀ quantity : Quantity, arguments.hasOption quantity.option = true →
        ∃ value, arguments.optionValue quantity.option = some (.integer value)) ∧
      (arguments.hasOption Directive.allowOverwrite = true →
        ∃ value, arguments.optionValue Directive.allowOverwrite = some (.boolean value)) ∧
      ∀ defaults : Settings, ∃ settings, defaults.ofArguments arguments = .ok settings) ∧
    ∀ (State : Type) (engine : Engine State) (context : Context) (text : String)
      (session : Session) (state : State) (name : String) (causes : List String),
      ((ofConfig config).execute engine context text session state).result ≠
        .error (.handler name causes) := by
  refine ⟨fun tokens arguments h => ?_, ?_⟩
  · have hd := Settings.nodup_directive_options config.streaming
    have hb : .valued Directive.allowOverwrite .boolean ∈ (directive config.streaming).options := by
      simp [directive]
    obtain ⟨hv, hc⟩ := (Arguments.read_eq_ok_iff_clauses _ tokens arguments).1 h
    have ha : (directive config.streaming).Accepts (dropTerminator tokens).1 arguments :=
      ⟨_, _, [], by rw [List.append_nil, List.take_append_drop], .inl rfl, hv, hc⟩
    obtain ⟨settings, hs, hcompletes⟩ := Settings.exists_ofArguments ha
    refine ⟨⟨_, hcompletes.enabled⟩, fun quantity => ?_, ?_, fun defaults => ?_⟩
    · exact Arguments.exists_optionValue fun _ hm =>
        (hc.declares _ hm).exists_integer hd (quantity.valued_mem_options _)
    · exact Arguments.exists_optionValue fun _ hm =>
        (hc.declares _ hm).exists_boolean hd hb
    · -- whether the handler fails does not depend on its defaults
      exact exists_ofArguments_iff.2 (exists_ofArguments_iff.1 ⟨settings, hs⟩)
  · intro State engine context text session state name causes hr
    unfold execute at hr
    split at hr
    · rename_i fault hp
      obtain rfl := Except.error.inj hr
      exact prepare_ne_handler hp
    · rename_i command arguments hp
      obtain ⟨rfl, tokens, ha⟩ := eq_directive_of_prepare hp
      obtain ⟨settings, hs, _⟩ := Settings.exists_ofArguments ha
      simp [executeCommand, directive, Handler.on_streaming, hs] at hr
    · simp only [forward] at hr
      split at hr <;> cases hr

/-- Zero is read as a truth value where one is declared, and as a number where that is. -/
theorem execute_ofConfig_ne_handler_zero :
    let tokens : List Token := [⟨"0", .number, 0⟩, ⟨"Flush_Frequency", .identifier, 2⟩,
      ⟨"0", .number, 18⟩, ⟨"allow_overwrite", .identifier, 20⟩, ⟨"0", .number, 36⟩]
    let arguments : Arguments := ⟨[.boolean false],
      [(.ofText Directive.flushFrequency, some (.integer 0)),
        (.ofText Directive.allowOverwrite, some (.boolean false))]⟩
    Arguments.read (directive .standard) tokens = .ok arguments ∧
      (∃ value, arguments.optionValue Directive.flushFrequency = some (.integer value)) ∧
      ∃ value, arguments.optionValue Directive.allowOverwrite = some (.boolean value) := by
  intro tokens arguments
  have h : Arguments.read (directive .standard) tokens = .ok arguments := by decide +kernel
  obtain ⟨_, hq, ho, _⟩ := (execute_ofConfig_ne_handler .standard).1 tokens arguments h
  exact ⟨h, hq .flushFrequency (by decide +kernel), ho (by decide +kernel)⟩

end Router

end SqlDispatch
