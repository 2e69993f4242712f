import SqlDispatch.Span
import SqlDispatch.Text.Json

set_option autoImplicit false

/-!
What goes wrong with a statement. A fault is found in the statement's text, in a directive's
arguments, by the handler of a directive or by the query engine; the message, the SQL state and the
position that a client is shown are functions of it.
-/

namespace SqlDispatch

open Text

inductive SqlState where
  | syntaxError
  | generalError
  | timeoutExpired
  | operationCancelled
  | linkFailure
  | notImplemented
  deriving DecidableEq, Repr

def SqlState.code : SqlState → String
  | .syntaxError => "42000"
  | .generalError => "HY000"
  | .timeoutExpired => "HYT00"
  | .operationCancelled => "HY008"
  | .linkFailure => "08S01"
  | .notImplemented => "HYC00"

structure EngineError where
  state : SqlState
  message : String
  deriving DecidableEq, Repr

namespace EngineError

def general (message : String) : EngineError := ⟨.generalError, message⟩

def badSyntax (message : String) : EngineError := ⟨.syntaxError, message⟩

def timeout (limit : Span) : EngineError :=
  ⟨.timeoutExpired,
    "Query timeout expired after " ++ decimal limit.milliseconds ++ " ms"⟩

def cancelled : EngineError := ⟨.operationCancelled, "Query was cancelled"⟩

def linkFailure (message : String) : EngineError := ⟨.linkFailure, message⟩

def unsupported (message : String) : EngineError := ⟨.notImplemented, message⟩

end EngineError

/-- What is wrong with a statement; positions count bytes from its start. -/
inductive Fault where
  /-- The text ends inside something that was opened at `position`. -/
  | lexical (message : String) (position : Nat)
  | unknownToken (lexeme : String) (position : Nat)
  | argumentCount (command : String) (expected actual position : Nat)
  | argumentType (position : Nat) (expected lexeme message : String)
  | duplicateOption (option : String) (position : Nat)
  /-- The handler of a directive failed; of the causes the last is the root. -/
  | handler (command : String) (causes : List String)
  | engine (error : EngineError)
  deriving DecidableEq, Repr

namespace Fault

def atPosition (position : Nat) : String := " (position " ++ decimal position ++ ")"

def message : Fault → String
  | .lexical message position => message ++ " at position " ++ decimal position
  | .unknownToken lexeme position =>
    "Unexpected character '" ++ lexeme ++ "' at position " ++ decimal position
  | .argumentCount command expected actual position =>
    command ++ ": expected " ++ decimal expected ++ " argument(s), got " ++ decimal actual ++
      atPosition position
  | .argumentType position _ _ message => message ++ atPosition position
  | .duplicateOption option position =>
    "Option " ++ option ++ " is specified more than once" ++ atPosition position
  | .handler command causes =>
    "Failed to execute " ++ command ++ ": " ++ ": ".intercalate causes
  | .engine error => error.message

/-- A fault of the text is a syntax error, one of a handler a general error, and the engine names
its own. -/
def state : Fault → SqlState
  | .lexical .. | .unknownToken .. | .argumentCount .. | .argumentType .. | .duplicateOption .. =>
    .syntaxError
  | .handler .. => .generalError
  | .engine error => error.state

def position : Fault → Option Nat
  | .lexical _ position | .unknownToken _ position | .argumentCount _ _ _ position
  | .argumentType position _ _ _ | .duplicateOption _ position => some position
  | .handler .. | .engine _ => none

end Fault

structure Diagnostic where
  state : SqlState
  message : String
  position : Option Nat
  deriving DecidableEq, Repr

def Fault.diagnostic (fault : Fault) : Diagnostic := ⟨fault.state, fault.message, fault.position⟩

def Diagnostic.json (diagnostic : Diagnostic) : Json :=
  .object <|
    [("sql_state", .text diagnostic.state.code), ("message", .text diagnostic.message)] ++
      Json.optional "position" (diagnostic.position.map fun n => .integer n)

end SqlDispatch
