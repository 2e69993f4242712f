import SqlDispatch.Shell.Line
import SqlDispatch.Shell.Record
import SqlDispatch.Text.Blank

set_option autoImplicit false

/-!
Runs of the shell. A run goes through the lines of an input in order and executes the statement on
each that is not blank, on one session that is empty at first. It ends at the end of the input, at
the first line after a request to shut down that is not blank, after a failed statement if it is to
fail fast, and at the first line that cannot be read or record that cannot be written.
-/

namespace SqlDispatch.Shell

open Text

structure Writer where
  /-- How many bytes are accepted in all; without a number, any. -/
  room : Option Nat
  /-- What was accepted can be passed on at the end. -/
  flushes : Bool
  deriving DecidableEq, Repr

def Writer.endless : Writer := ⟨none, true⟩

inductive RunFault where
  | read
  | write
  | flush
  deriving DecidableEq, Repr

def RunFault.message : RunFault → String
  | .read => "failed to read statement"
  | .write => "failed to write record"
  | .flush => "failed to flush output"

structure Run where
  /-- The records of the statements that were executed, of which the last may be written in part. -/
  records : List Record
  executed : Nat
  failed : Nat
  calls : List Call
  events : List Event
  fault : Option RunFault

namespace Run

def finished (writer : Writer) : Run :=
  ⟨[], 0, 0, [], [], if writer.flushes then none else some .flush⟩

def broken (fault : RunFault) : Run := ⟨[], 0, 0, [], [], some fault⟩

def output (run : Run) (writer : Writer) : List UInt8 :=
  let bytes := run.records.flatMap Record.bytes
  match writer.room with
  | none => bytes
  | some room => bytes.take room

end Run

structure Place (State : Type) where
  /-- The number of lines behind. -/
  line : Nat
  session : Session
  engine : State
  /-- A request to shut down has arrived. -/
  shutdown : Bool
  room : Option Nat

structure Setup (State : Type) where
  router : Router
  engine : Engine State
  failFast : Bool
  writer : Writer

variable {State : Type}

namespace Place

def start (setup : Setup State) (engine : State) (shutdown : Bool) : Place State :=
  ⟨0, .empty, engine, shutdown, setup.writer.room⟩

def execute (setup : Setup State) (place : Place State) (text : String) : Execution State :=
  setup.router.execute setup.engine ⟨none, none, place.shutdown⟩ text place.session place.engine

/-- The place after a line whose statement was executed and whose record took `size` bytes. -/
def after (place : Place State) (execution : Execution State) (size : Nat) : Place State :=
  ⟨place.line + 1, execution.session, execution.engine, place.shutdown || execution.shutdown,
    place.room.map (· - size)⟩

def fits (place : Place State) (size : Nat) : Bool :=
  match place.room with
  | none => true
  | some room => size ≤ room

end Place

def eventsOf (line : Nat) (execution : Execution State) : List Event :=
  execution.events ++
    match execution.result with
    | .error fault => [.statementFailed line fault]
    | .ok _ => []

def Run.precede (execution : Execution State) (record : Record) (rest : Run) : Run where
  records := record :: rest.records
  executed := rest.executed + 1
  failed := if record.failed then rest.failed + 1 else rest.failed
  calls := execution.call.toList ++ rest.calls
  events := eventsOf record.line execution ++ rest.events
  fault := rest.fault

def runFrom (setup : Setup State) (place : Place State) : List (Option String) → Run
  | [] => .finished setup.writer
  | none :: _ => .broken .read
  | some text :: rest =>
    if isVoid text then runFrom setup { place with line := place.line + 1 } rest
    else if place.shutdown then
      { Run.finished setup.writer with events := [.shutdownRequested (place.line + 1)] }
    else
      let execution := place.execute setup text
      let record : Record := ⟨place.line + 1, execution.result⟩
      let size := record.bytes.length
      Run.precede execution record <|
        if !place.fits size then .broken .write
        else if setup.failFast && record.failed then .finished setup.writer
        else runFrom setup (place.after execution size) rest

def run (setup : Setup State) (engine : State) (shutdown : Bool) (input : List UInt8) : Run :=
  runFrom setup (.start setup engine shutdown) (lines input)

end SqlDispatch.Shell
