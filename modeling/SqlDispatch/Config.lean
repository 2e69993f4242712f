import SqlDispatch.Event
import SqlDispatch.Span
import SqlDispatch.Streaming.Directive

set_option autoImplicit false

/-!
Configuration from variables. Every variable may be missing, and one whose text is not understood
counts as missing; numbers and the target are complained of then, truth values are not. Variables
are read in a fixed order, which is the order of the complaints.
-/

namespace SqlDispatch

open Text

abbrev Lookup := String → Option String

structure Config where
  target : Target
  timeout : Option Span
  streaming : Streaming.Settings
  deriving DecidableEq

def truthValue (text : String) : Option Bool :=
  let word := lower (trim text)
  if word ∈ ["1", "true", "yes", "on"] then some true
  else if word ∈ ["0", "false", "no", "off"] then some false
  else none

namespace Config

def standard : Config := ⟨.cluster, none, .standard⟩

def targetVariable : String := "GRIDSQL_EXECUTION_TARGET"
def timeoutVariable : String := "GRIDSQL_QUERY_TIMEOUT_SECS"
def batchSizeVariable : String := "GRIDSQL_STREAMING_BATCH_SIZE"
def perNodeBufferSizeVariable : String := "GRIDSQL_STREAMING_PER_NODE_BUFFER_SIZE"
def perNodeParallelOperationsVariable : String := "GRIDSQL_STREAMING_PER_NODE_PARALLEL_OPERATIONS"
def allowOverwriteVariable : String := "GRIDSQL_STREAMING_ALLOW_OVERWRITE"
def flushFrequencyVariable : String := "GRIDSQL_STREAMING_FLUSH_FREQUENCY_MS"
def orderedVariable : String := "GRIDSQL_STREAMING_ORDERED"

def greatestTimeout : Int := 4294967295

/-- A value, if there is one, and the complaints made on the way to it. -/
structure Reading (α : Type) where
  value : Option α
  events : List Event

def readTarget (lookup : Lookup) : Reading Target :=
  match lookup targetVariable with
  | none => ⟨none, []⟩
  | some text =>
    match Target.read text with
    | .ok target => ⟨some target, []⟩
    | .error fault => ⟨none, [.targetIgnored fault]⟩

def readQuantity (lookup : Lookup) (key : String) (least greatest : Int) : Reading Int :=
  match lookup key with
  | none => ⟨none, []⟩
  | some text =>
    match (integer (trim text)).filter fun value => least ≤ value ∧ value ≤ greatest with
    | some value => ⟨some value, []⟩
    | none => ⟨none, [.variableIgnored key text least greatest]⟩

def readFlag (lookup : Lookup) (key : String) : Option Bool := (lookup key).bind truthValue

def read (lookup : Lookup) : Config × List Event :=
  let target := readTarget lookup
  let timeout := readQuantity lookup timeoutVariable 0 greatestTimeout
  let batch := readQuantity lookup batchSizeVariable 1 Streaming.greatest
  let buffer := readQuantity lookup perNodeBufferSizeVariable 1 Streaming.greatest
  let parallel := readQuantity lookup perNodeParallelOperationsVariable 1 Streaming.greatest
  let flush := readQuantity lookup flushFrequencyVariable 0 Streaming.greatest
  let usual := standard.streaming
  ({ target := target.value.getD standard.target
     timeout := timeout.value.elim standard.timeout fun seconds => Span.limit seconds.toNat
     streaming :=
      { enabled := false
        batchSize := batch.value.getD usual.batchSize
        perNodeBufferSize := buffer.value.getD usual.perNodeBufferSize
        perNodeParallelOperations := parallel.value.getD usual.perNodeParallelOperations
        allowOverwrite := (readFlag lookup allowOverwriteVariable).getD usual.allowOverwrite
        flushFrequency := flush.value.getD usual.flushFrequency
        ordered := (readFlag lookup orderedVariable).getD usual.ordered } },
    target.events ++ timeout.events ++ batch.events ++ buffer.events ++ parallel.events ++
      flush.events)

def digit (value : Bool) : String := if value then "1" else "0"

def toVariables (config : Config) : List (String × String) :=
  [(targetVariable, config.target.display),
    (timeoutVariable, decimal ((config.timeout.map Span.seconds).getD 0)),
    (batchSizeVariable, decimal config.streaming.batchSize),
    (perNodeBufferSizeVariable, decimal config.streaming.perNodeBufferSize),
    (perNodeParallelOperationsVariable, decimal config.streaming.perNodeParallelOperations),
    (allowOverwriteVariable, digit config.streaming.allowOverwrite),
    (flushFrequencyVariable, decimal config.streaming.flushFrequency),
    (orderedVariable, digit config.streaming.ordered)]

end Config

end SqlDispatch
