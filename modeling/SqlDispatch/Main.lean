import SqlDispatch.Shell.Program

set_option autoImplicit false

/-!
The shell at work, with any library for databases: standard input is read to its end, and what the
launch comes to is written to standard output and to the log on standard error.
-/

namespace SqlDispatch.Shell

def logFormatVariable : String := "GRIDSQL_LOG_FORMAT"

def variableNames : List String :=
  [Invocation.dsnVariable, logFormatVariable] ++ (Config.toVariables .standard).map Prod.fst

partial def readAll (stream : IO.FS.Stream) (bytes : ByteArray) : IO ByteArray := do
  let more ← stream.read 65536
  if more.isEmpty then pure bytes else readAll stream (bytes ++ more)

def serve {Database : Type} (library : Library Database) (arguments : List String) :
    IO UInt32 := do
  let values ← variableNames.mapM fun name => do pure (name, ← IO.getEnv name)
  let lookup : Lookup := fun name => (values.lookup name).join
  let input ← readAll (← IO.getStdin) .empty
  let ending := Launch.ending ⟨arguments, lookup, library, input.toList, .endless, false⟩
  let (format, complaint) := LogFormat.read (lookup logFormatVariable)
  complaint.forM fun text => IO.eprintln text
  ending.events.forM fun event => IO.eprintln (format.line event)
  (← IO.getStdout).write ⟨(ending.output .endless).toArray⟩
  ending.complaint.forM fun text => IO.eprintln text
  pure (.ofNat ending.exitCode)

end SqlDispatch.Shell
