import SqlDispatch.Session

set_option autoImplicit false

/-!
The settings of streaming mode and where a session keeps them. Each setting has an option of its
own, whose name starts with `streaming.`; what a session does not hold, or holds as a value of
another kind, is taken from other settings.
-/

namespace SqlDispatch.Streaming

structure Settings where
  enabled : Bool
  batchSize : Int
  perNodeBufferSize : Int
  perNodeParallelOperations : Int
  allowOverwrite : Bool
  /-- Milliseconds between flushes, or zero for none but those that are asked for. -/
  flushFrequency : Int
  ordered : Bool
  deriving DecidableEq, Repr

namespace Settings

def standard : Settings where
  enabled := false
  batchSize := 2048
  perNodeBufferSize := 1024
  perNodeParallelOperations := 16
  allowOverwrite := false
  flushFrequency := 0
  ordered := false

/-- The settings by name, in the order in which they are stored. -/
def named (settings : Settings) : List (String × OptionValue) :=
  [("enabled", .boolean settings.enabled),
    ("batch_size", .integer settings.batchSize),
    ("per_node_buffer_size", .integer settings.perNodeBufferSize),
    ("per_node_parallel_operations", .integer settings.perNodeParallelOperations),
    ("allow_overwrite", .boolean settings.allowOverwrite),
    ("flush_frequency_ms", .integer settings.flushFrequency),
    ("ordered", .boolean settings.ordered)]

def optionName (name : String) : String := "streaming." ++ name

def store (settings : Settings) (session : Session) : Session :=
  session.putAll (settings.named.map fun entry => (optionName entry.1, entry.2))

def flag (session : Session) (name : String) (otherwise : Bool) : Bool :=
  ((session.get? (optionName name)).bind OptionValue.boolean?).getD otherwise

def quantity (session : Session) (name : String) (otherwise : Int) : Int :=
  ((session.get? (optionName name)).bind OptionValue.integer?).getD otherwise

def ofSession (session : Session) (otherwise : Settings) : Settings where
  enabled := flag session "enabled" otherwise.enabled
  batchSize := quantity session "batch_size" otherwise.batchSize
  perNodeBufferSize := quantity session "per_node_buffer_size" otherwise.perNodeBufferSize
  perNodeParallelOperations :=
    quantity session "per_node_parallel_operations" otherwise.perNodeParallelOperations
  allowOverwrite := flag session "allow_overwrite" otherwise.allowOverwrite
  flushFrequency := quantity session "flush_frequency_ms" otherwise.flushFrequency
  ordered := flag session "ordered" otherwise.ordered

end Settings

end SqlDispatch.Streaming
