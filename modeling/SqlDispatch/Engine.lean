import SqlDispatch.Fault
import SqlDispatch.Target

set_option autoImplicit false

/-!
The query engine as seen from outside. An engine has a state of its own; a call hands it a statement
with the target, the limit on time and the cancel mark in force, and its answer is rows or an error.
While it works on a call a request to shut down may arrive.
-/

namespace SqlDispatch

open Text

inductive Cell where
  | null
  | integer (value : Int)
  | real (value : Binary64)
  | text (value : String)
  | blob (bytes : List UInt8)
  deriving DecidableEq

structure Rows where
  columns : List String
  rows : List (List Cell)
  affected : Nat
  deriving DecidableEq

structure Node where
  id : NodeId
  consistentId : String
  addresses : List String
  isLocal : Bool
  isClient : Bool
  attributes : List (String × String)
  deriving DecidableEq

structure Call where
  text : String
  target : Target
  timeout : Option Span
  cancelled : Bool
  deriving DecidableEq

structure Answer where
  result : Except EngineError Rows
  /-- A request to shut down arrived during the call. -/
  shutdown : Bool

structure Engine (State : Type) where
  submit : State → Call → Answer × State
  topology : Except EngineError (List Node)

def Cell.json : Cell → Json
  | .null => .null
  | .integer value => .integer value
  | .real value => .real value
  | .text value => .text value
  | .blob bytes => .array (bytes.map fun byte => .integer byte.toNat)

namespace Engine

inductive Reply where
  | rows (rows : Rows)
  | fail (error : EngineError)
  /-- To let a request to shut down cancel the call. -/
  | shutdown

def Reply.usual : Reply := .rows ⟨[], [], 1⟩

def Reply.answer : Reply → Answer
  | .rows result => ⟨.ok result, false⟩
  | .fail error => ⟨.error error, false⟩
  | .shutdown => ⟨.error .cancelled, true⟩

/-- An engine that answers as told, one reply to each call that is not cancelled from the start. -/
def scripted (topology : Except EngineError (List Node)) : Engine (List Reply) where
  submit replies call :=
    if call.cancelled then (⟨.error .cancelled, false⟩, replies)
    else
      match replies with
      | [] => (Reply.usual.answer, [])
      | reply :: rest => (reply.answer, rest)
  topology := topology

/-- An engine on one node, which serves the cluster as a whole or the node itself and nothing else.
A call that is not refused is handed on to `evaluate`. -/
def singleNode {State : Type} (node : Node) (evaluate : State → Call → Answer × State) :
    Engine State where
  submit state call :=
    let refusal : EngineError := .unsupported <|
      "Execution target '" ++ call.target.display ++ "' is not available on the SQLite engine"
    if call.target ≠ .cluster ∧ call.target ≠ .localNode then (⟨.error refusal, false⟩, state)
    else if call.cancelled then (⟨.error .cancelled, false⟩, state)
    else evaluate state call
  topology := .ok [node]

end Engine

end SqlDispatch
