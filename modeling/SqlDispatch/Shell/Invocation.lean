import SqlDispatch.Config

set_option autoImplicit false

/-!
The command line of the shell. Arguments are read from the left, and the first that is out of order
decides. An option whose value is an argument of its own is settled only when the next option is
met, or the end: an argument that has no place comes before what is wrong with such an option.
-/

namespace SqlDispatch.Shell

open Text

inductive Stop where
  | invalidValue
  | unknownArgument
  | missingValue
  | repeated
  | unwantedValue
  | help
  | version
  deriving DecidableEq, Repr

inductive Switch where
  | dsn
  | target
  | timeout
  | failFast
  | help
  | version
  deriving DecidableEq, Repr

namespace Switch

def ofName (name : String) : Option Switch :=
  [("dsn", dsn), ("target", target), ("timeout-secs", timeout), ("fail-fast", failFast),
    ("help", help), ("version", version)].lookup name

def ofLetter (letter : Char) : Option Switch :=
  [('h', help), ('V', version)].lookup letter

def takesValue : Switch → Bool
  | .dsn | .target | .timeout => true
  | .failFast | .help | .version => false

end Switch

inductive Item where
  | separator
  | named (name : String) (value : Option String)
  /-- An option by its letter; what follows the letter comes too late to matter. -/
  | letter (letter : Char)
  | plain
  deriving DecidableEq, Repr

namespace Item

def ofArgument (argument : String) : Item :=
  match argument.toList with
  | ['-', '-'] => .separator
  | '-' :: '-' :: cs =>
    match splitAtFirst '=' cs with
    | some (name, value) => .named (.ofList name) (some (.ofList value))
    | none => .named (.ofList cs) none
  | '-' :: c :: _ => .letter c
  | _ => .plain

end Item

structure Given where
  dsn : Option String
  target : Option Target
  timeout : Option Nat
  failFast : Bool
  deriving DecidableEq

namespace Given

def nothing : Given := ⟨none, none, none, false⟩

def greatestTimeout : Nat := 18446744073709551615

def add (given : Given) (switch : Switch) (value : String) : Except Stop Given :=
  match switch with
  | .dsn => if given.dsn.isSome then .error .repeated else .ok { given with dsn := some value }
  | .target =>
    if given.target.isSome then .error .repeated
    else
      match Target.read value with
      | .ok target => .ok { given with target := some target }
      | .error _ => .error .invalidValue
  | .timeout =>
    if given.timeout.isSome then .error .repeated
    else
      match (unsigned value).filter (· ≤ greatestTimeout) with
      | some seconds => .ok { given with timeout := some seconds }
      | none => .error .invalidValue
  | .failFast | .help | .version => .error .unwantedValue

def addFlag (given : Given) : Switch → Except Stop Given
  | .failFast => if given.failFast then .error .repeated else .ok { given with failFast := true }
  | .help => .error .help
  | .version => .error .version
  | .dsn | .target | .timeout => .error .missingValue

end Given

structure Progress where
  given : Given
  /-- An option that waits to be settled, with its value once that has come. -/
  waiting : Option (Switch × Option String)

namespace Progress

def start : Progress := ⟨.nothing, none⟩

def settle (progress : Progress) : Except Stop Given :=
  match progress.waiting with
  | none => .ok progress.given
  | some (_, none) => .error .missingValue
  | some (switch, some value) => progress.given.add switch value

def addFlag (progress : Progress) (switch : Switch) : Except Stop Progress := do
  let given ← progress.settle
  pure ⟨← given.addFlag switch, none⟩

/-- Settles the option that waits and adds another, which waits if it has no value yet. -/
def addOption (progress : Progress) (switch : Switch) : Option String → Except Stop Progress
  | none => do pure ⟨← progress.settle, some (switch, none)⟩
  | some value => do
    let given ← progress.settle
    pure ⟨← given.add switch value, none⟩

def addValue (progress : Progress) (value : String) : Except Stop Progress :=
  match progress.waiting with
  | some (switch, none) => .ok { progress with waiting := some (switch, some value) }
  | _ => .error .unknownArgument

def step (progress : Progress) (argument : String) : Except Stop Progress :=
  match Item.ofArgument argument with
  | .separator | .plain => progress.addValue argument
  | .letter c =>
    match Switch.ofLetter c with
    | none => .error .unknownArgument
    | some switch => progress.addFlag switch
  | .named name value =>
    match Switch.ofName name with
    | none => .error .unknownArgument
    | some switch =>
      if switch.takesValue then progress.addOption switch value
      else if value.isSome then .error .unwantedValue
      else progress.addFlag switch

/-- Reads arguments; nothing may stand behind the separator. -/
def read (progress : Progress) : List String → Except Stop Given
  | [] => progress.settle
  | argument :: rest =>
    if Item.ofArgument argument = .separator then
      if rest = [] then progress.settle else .error .unknownArgument
    else (progress.step argument).bind fun progress => progress.read rest

end Progress

structure Invocation where
  dsn : String
  target : Option Target
  timeout : Option Nat
  failFast : Bool
  deriving DecidableEq

namespace Invocation

def dsnVariable : String := "GRIDSQL_DB_DSN"

def standardDsn : String := "sqlite::memory:"

/-- Reads a command line; a variable names the database if the command line does not. -/
def read (lookup : Lookup) (arguments : List String) : Except Stop Invocation :=
  (Progress.start.read arguments).map fun given =>
    ⟨given.dsn.getD ((lookup dsnVariable).getD standardDsn), given.target, given.timeout,
      given.failFast⟩

/-- The configuration from variables, in which the command line has the last word, and the
complaints about the variables. -/
def config (lookup : Lookup) (invocation : Invocation) : Config × List Event :=
  let (config, events) := Config.read lookup
  ({ config with
      target := invocation.target.getD config.target
      timeout := invocation.timeout.elim config.timeout Span.limit },
    events)

end Invocation

end SqlDispatch.Shell
