import SqlDispatch.Shell.Database
import SqlDispatch.Shell.Help
import SqlDispatch.Shell.LogFormat
import SqlDispatch.Shell.Run

set_option autoImplicit false

/-!
The shell as a program: what it writes and the code that it leaves with are a function of its
arguments, its variables, its input and the databases that can be opened. The code is 0 unless the
command line is out of order (2), or the database cannot be opened, or the run breaks off or fails
fast (1).
-/

namespace SqlDispatch.Shell

open Text

structure Launch (Database : Type) where
  arguments : List String
  lookup : Lookup
  library : Library Database
  input : List UInt8
  writer : Writer
  /-- A request to shut down has arrived before the start. -/
  shutdown : Bool

inductive Ending where
  /-- The command line does not start the shell; `answer` is what it asked for, if it did. -/
  | stopped (stop : Stop) (answer : Option String)
  | unopened (dsn : String)
  | ran (failFast : Bool) (run : Run)

namespace Launch

/-- Reads the command line, opens the database and runs the shell; complaints about the variables
come before the events of the run. -/
def ending {Database : Type} (launch : Launch Database) : Ending :=
  match Invocation.read launch.lookup launch.arguments with
  | .error stop => .stopped stop (stop.answer launch.lookup)
  | .ok invocation =>
    match launch.library.opening invocation.dsn with
    | none => .unopened invocation.dsn
    | some database =>
      let (config, events) := invocation.config launch.lookup
      let engine := launch.library.engine .zero invocation.dsn
      let setup := ⟨.ofConfig config, engine, invocation.failFast, launch.writer⟩
      let run := Shell.run setup database launch.shutdown launch.input
      .ran invocation.failFast { run with events := events ++ run.events }

end Launch

namespace Ending

def exitCode : Ending → Nat
  | .stopped _ answer => if answer.isSome then 0 else 2
  | .unopened _ => 1
  | .ran failFast run =>
    if run.fault.isSome ∨ failFast = true ∧ run.failed ≠ 0 then 1 else 0

def output (writer : Writer) : Ending → List UInt8
  | .stopped _ answer => encode (answer.getD "")
  | .unopened _ => []
  | .ran _ run => run.output writer

def events : Ending → List Event
  | .ran _ run => run.events.filter fun event => event.level != .debug
  | _ => []

def complaint : Ending → Option String
  | .stopped _ answer =>
    if answer.isSome then none else some "the command line is out of order; see --help"
  | .unopened dsn => some (connectMessage dsn)
  | .ran _ run => run.fault.map RunFault.message

end Ending

end SqlDispatch.Shell
