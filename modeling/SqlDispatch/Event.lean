import SqlDispatch.Fault
import SqlDispatch.Streaming.Settings
import SqlDispatch.Target

set_option autoImplicit false

/-!
Events, what is worth telling an operator while statements are run. Each has a level, a message and
fields of its own.
-/

namespace SqlDispatch

open Text

inductive Level where
  | warn
  | info
  | debug
  deriving DecidableEq, Repr

def Level.name : Level → String
  | .warn => "WARN"
  | .info => "INFO"
  | .debug => "DEBUG"

inductive Event where
  | targetIgnored (fault : TargetFault)
  | variableIgnored (key value : String) (least greatest : Int)
  | commandStarted (command : String)
  | statementForwarded (target : Target)
  | streamingUpdated (settings : Streaming.Settings)
  | statementRejected (error : EngineError)
  | statementFailed (line : Nat) (fault : Fault)
  | shutdownRequested (line : Nat)
  deriving DecidableEq

namespace Event

def level : Event → Level
  | .targetIgnored _ | .variableIgnored .. | .statementRejected _ => .warn
  | .streamingUpdated _ | .shutdownRequested _ => .info
  | .commandStarted _ | .statementForwarded _ | .statementFailed .. => .debug

def message : Event → String
  | .targetIgnored _ => "ignoring GRIDSQL_EXECUTION_TARGET"
  | .variableIgnored .. => "ignoring out-of-range or invalid value"
  | .commandStarted _ => "executing internal command"
  | .statementForwarded _ => "forwarding statement to engine"
  | .streamingUpdated _ => "streaming mode updated"
  | .statementRejected _ => "engine rejected statement"
  | .statementFailed .. => "statement failed"
  | .shutdownRequested _ => "shutdown requested; skipping remaining statements"

end Event

def OptionValue.json : OptionValue → Json
  | .boolean value => .bool value
  | .integer value => .integer value
  | .text value => .text value

def Streaming.Settings.json (settings : Streaming.Settings) : Json :=
  .object (settings.named.map fun entry => (entry.1, entry.2.json))

def Event.fields : Event → List (String × Json)
  | .targetIgnored fault => [("error", .text fault.message)]
  | .variableIgnored key value least greatest =>
    [("key", .text key), ("value", .text value), ("min", .integer least),
      ("max", .integer greatest)]
  | .commandStarted command => [("command", .text command)]
  | .statementForwarded target => [("target", .text target.display)]
  | .streamingUpdated settings =>
    settings.named.map fun entry => (entry.1, entry.2.json)
  | .statementRejected error =>
    [("sql_state", .text error.state.code), ("error", .text error.message)]
  | .statementFailed line fault => [("line", .integer line), ("error", .text fault.message)]
  | .shutdownRequested line => [("line", .integer line)]

def Event.json (event : Event) : Json :=
  .object [("level", .text event.level.name), ("message", .text event.message),
    ("fields", .object event.fields)]

end SqlDispatch
