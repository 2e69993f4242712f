import SqlDispatch.Arguments
import SqlDispatch.Streaming.Directive

set_option autoImplicit false

/-!
The text of commands. A command is written as the words of its name, its arguments and its options
with one space between them. Names and strings are quoted, so that no text in them is taken for
anything else.
-/

namespace SqlDispatch

open Text

namespace Argument

def text : Argument → String
  | .boolean value => if value then "1" else "0"
  | .integer value => decimal value
  | .identifier value => Quote.double.encode value
  | .stringLiteral value => Quote.single.encode value

def Fits : Argument → ArgumentKind → Prop
  | .boolean _, .boolean => True
  | .integer value, .integer least greatest => least ≤ value ∧ value ≤ greatest
  | .identifier _, .identifier => True
  | .stringLiteral _, .stringLiteral => True
  | _, _ => False

instance (argument : Argument) (kind : ArgumentKind) : Decidable (argument.Fits kind) := by
  cases argument <;> cases kind <;> simp only [Fits] <;> infer_instance

theorem error_of_map_eq_error {ε α β : Type} {x : Except ε α} {f : α → β} {e : ε}
    (h : x.map f = .error e) : x = .error e := by
  cases x with
  | error _ => exact congrArg Except.error (Except.error.inj h)
  | ok _ => cases h

theorem exists_of_map_eq_ok {ε α β : Type} {x : Except ε α} {f : α → β} {b : β}
    (h : x.map f = .ok b) : ∃ a, x = .ok a ∧ f a = b := by
  cases x with
  | error _ => cases h
  | ok a => exact ⟨a, rfl, Except.ok.inj h⟩

theorem fits_of_read {token : Token} {kind : ArgumentKind} {argument : Argument}
    (h : read token kind = .ok argument) : argument.Fits kind := by
  cases kind with
  | boolean =>
    obtain ⟨value, _, rfl⟩ := exists_of_map_eq_ok h
    trivial
  | integer least greatest =>
    obtain ⟨value, hr, rfl⟩ := exists_of_map_eq_ok h
    exact bounds_of_readInteger hr
  | identifier =>
    obtain ⟨value, _, rfl⟩ := exists_of_map_eq_ok h
    trivial
  | stringLiteral =>
    obtain ⟨value, _, rfl⟩ := exists_of_map_eq_ok h
    trivial

end Argument

def optionText (option : Capitals × Option Argument) : List String :=
  option.1.text :: (option.2.map Argument.text).toList

namespace Command

def text (command : Command) (arguments : Arguments) : String :=
  " ".intercalate <|
    command.words.map Capitals.text ++ arguments.positional.map Argument.text ++
      arguments.options.flatMap optionText

end Command

namespace Streaming.Settings

/-- The clauses that ask for these settings, all of them but the mode. -/
def clauses (settings : Settings) : List (List String) :=
  [[Directive.batchSize, decimal settings.batchSize],
    [Directive.perNodeBufferSize, decimal settings.perNodeBufferSize],
    [Directive.perNodeParallelOperations, decimal settings.perNodeParallelOperations],
    [Directive.flushFrequency, decimal settings.flushFrequency],
    [Directive.allowOverwrite, (OptionValue.boolean settings.allowOverwrite).display]] ++
  if settings.ordered then [[Directive.ordered]] else []

def text (settings : Settings) (clauses : List (List String)) : String :=
  " ".intercalate <|
    [Directive.name, (OptionValue.boolean settings.enabled).display] ++ clauses.flatten

def InRange (settings : Settings) : Prop :=
  (1 ≤ settings.batchSize ∧ settings.batchSize ≤ greatest) ∧
  (1 ≤ settings.perNodeBufferSize ∧ settings.perNodeBufferSize ≤ greatest) ∧
  (1 ≤ settings.perNodeParallelOperations ∧ settings.perNodeParallelOperations ≤ greatest) ∧
  0 ≤ settings.flushFrequency ∧ settings.flushFrequency ≤ greatest

end Streaming.Settings

end SqlDispatch
