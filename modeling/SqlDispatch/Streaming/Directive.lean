import SqlDispatch.Arguments
import SqlDispatch.Work

set_option autoImplicit false

/-!
The directive `SET STREAMING`. Its argument switches streaming mode on or off, and its options set
the other settings; an option that is left out goes back to its default, whatever the session held.
-/

namespace SqlDispatch.Streaming

namespace Directive

def name : String := "SET STREAMING"

/-! The options by name. -/

def batchSize : String := "BATCH_SIZE"
def perNodeBufferSize : String := "PER_NODE_BUFFER_SIZE"
def perNodeParallelOperations : String := "PER_NODE_PARALLEL_OPERATIONS"
def allowOverwrite : String := "ALLOW_OVERWRITE"
def flushFrequency : String := "FLUSH_FREQUENCY"
def ordered : String := "ORDERED"

end Directive

def greatest : Int := 2147483647

def positive : ArgumentKind := .integer 1 greatest

def notNegative : ArgumentKind := .integer 0 greatest

def readOption {α : Type} (read : Argument → Option α) (noun : String) (arguments : Arguments)
    (name : String) : Except String (Option α) :=
  match arguments.optionValue name with
  | none => .ok none
  | some value => (read value).elim (.error (name ++ " expects " ++ noun)) (.ok ∘ some)

abbrev quantityOption : Arguments → String → Except String (Option Int) :=
  readOption Argument.integer? "an integer"

abbrev flagOption : Arguments → String → Except String (Option Bool) :=
  readOption Argument.boolean? "a boolean"

def readMode (arguments : Arguments) : Except String Bool :=
  ((arguments.get? 0).bind Argument.boolean?).elim (.error "missing streaming mode") .ok

namespace Settings

def overlay {α : Type} (given : Except String (Option α)) (put : Settings → α → Settings) :
    Work Settings String Unit := do
  if let some value ← given then
    modify (put · value)

/-- Takes one setting after another from the arguments, up to the first that is at fault. -/
def apply (arguments : Arguments) : Work Settings String Unit := do
  let enabled ← readMode arguments
  modify fun settings => { settings with enabled := enabled }
  overlay (quantityOption arguments Directive.batchSize)
    fun settings value => { settings with batchSize := value }
  overlay (quantityOption arguments Directive.perNodeBufferSize)
    fun settings value => { settings with perNodeBufferSize := value }
  overlay (quantityOption arguments Directive.perNodeParallelOperations)
    fun settings value => { settings with perNodeParallelOperations := value }
  overlay (quantityOption arguments Directive.flushFrequency)
    fun settings value => { settings with flushFrequency := value }
  overlay (flagOption arguments Directive.allowOverwrite)
    fun settings value => { settings with allowOverwrite := value }
  modify fun settings => { settings with ordered := arguments.hasOption Directive.ordered }

/-- The settings that arguments ask for, completed from `defaults`. -/
def ofArguments (defaults : Settings) (arguments : Arguments) : Except String Settings :=
  (apply arguments).result defaults

theorem result_overlay_bind {α : Type} (given : Except String (Option α))
    (put : Settings → α → Settings) (next : Unit → Work Settings String Unit)
    (settings : Settings) :
    (overlay given put >>= next).result settings =
      given >>= fun value => (next ()).result (value.elim settings (put settings)) := by
  rcases given with _ | _ | _ <;> rfl

/-- Of what is taken before a fault nothing is left, so it is enough to see what is read. -/
theorem ofArguments_eq (defaults : Settings) (arguments : Arguments) :
    defaults.ofArguments arguments = do
      let enabled ← readMode arguments
      let batch ← quantityOption arguments Directive.batchSize
      let buffer ← quantityOption arguments Directive.perNodeBufferSize
      let parallel ← quantityOption arguments Directive.perNodeParallelOperations
      let flush ← quantityOption arguments Directive.flushFrequency
      let overwrite ← flagOption arguments Directive.allowOverwrite
      return {
        enabled := enabled
        batchSize := batch.getD defaults.batchSize
        perNodeBufferSize := buffer.getD defaults.perNodeBufferSize
        perNodeParallelOperations := parallel.getD defaults.perNodeParallelOperations
        allowOverwrite := overwrite.getD defaults.allowOverwrite
        flushFrequency := flush.getD defaults.flushFrequency
        ordered := arguments.hasOption Directive.ordered } := by
  simp only [ofArguments, apply, Work.result_lift_bind, Work.result_modify_bind,
    result_overlay_bind, Work.result_modify]
  refine bind_congr fun _ => bind_congr fun batch => bind_congr fun buffer => bind_congr
    fun parallel => bind_congr fun flush => bind_congr fun overwrite => ?_
  cases batch <;> cases buffer <;> cases parallel <;> cases flush <;> cases overwrite <;> rfl

theorem ofArguments_eq_ok {defaults : Settings} {arguments : Arguments} {enabled : Bool}
    {batch buffer parallel flush : Option Int} {overwrite : Option Bool}
    (hm : readMode arguments = .ok enabled)
    (hb : quantityOption arguments Directive.batchSize = .ok batch)
    (hu : quantityOption arguments Directive.perNodeBufferSize = .ok buffer)
    (hp : quantityOption arguments Directive.perNodeParallelOperations = .ok parallel)
    (hf : quantityOption arguments Directive.flushFrequency = .ok flush)
    (ho : flagOption arguments Directive.allowOverwrite = .ok overwrite) :
    defaults.ofArguments arguments =
      .ok ⟨enabled, batch.getD defaults.batchSize, buffer.getD defaults.perNodeBufferSize,
        parallel.getD defaults.perNodeParallelOperations, overwrite.getD defaults.allowOverwrite,
        flush.getD defaults.flushFrequency, arguments.hasOption Directive.ordered⟩ := by
  simp only [ofArguments_eq, hm, hb, hu, hp, hf, ho]
  rfl

end Settings

def Settings.summary (settings : Settings) : String :=
  if settings.enabled then
    "streaming enabled (batch size " ++ Text.decimal settings.batchSize ++ ", ordered " ++
      (OptionValue.boolean settings.ordered).display ++ ")"
  else "streaming disabled"

def directive (defaults : Settings) : Command where
  words := Command.nameWords Directive.name
  arguments := [.boolean]
  options :=
    [.valued Directive.batchSize positive, .valued Directive.perNodeBufferSize positive,
      .valued Directive.perNodeParallelOperations positive,
      .valued Directive.allowOverwrite .boolean, .valued Directive.flushFrequency notNegative,
      .flag Directive.ordered]
  handler := .streaming defaults

theorem nameWords_name :
    (Command.nameWords Directive.name).map Text.Capitals.text = ["SET", "STREAMING"] := by
  decide +kernel

def builtin (defaults : Settings) : CommandTable where
  commands := [directive defaults]
  named := by
    intro command h hw
    have hd := nameWords_name
    rw [List.mem_singleton.1 h] at hw
    rw [show Command.nameWords Directive.name = [] from hw] at hd
    simp at hd
  distinct := List.pairwise_singleton _ _

end SqlDispatch.Streaming
