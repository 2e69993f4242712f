import SqlDispatch.Command.Table

set_option autoImplicit false

/-!
Arguments. What follows the name of a command is its arguments, one token each, and after them
clauses, each the word of an option and, if the option calls for one, its value. Reading checks the
number of arguments, then the clauses, then every value; the first fault found is the one reported.
-/

namespace SqlDispatch

open Text

inductive Argument where
  | boolean (value : Bool)
  | integer (value : Int)
  | identifier (value : String)
  | stringLiteral (value : String)
  deriving DecidableEq, Repr

namespace Argument

def boolean? : Argument → Option Bool
  | .boolean value => some value
  | _ => none

def integer? : Argument → Option Int
  | .integer value => some value
  | _ => none

theorem boolean?_eq_some_iff {given : Argument} {value : Bool} :
    given.boolean? = some value ↔ given = .boolean value := by
  cases given <;> simp [boolean?]

theorem integer?_eq_some_iff {given : Argument} {value : Int} :
    given.integer? = some value ↔ given = .integer value := by
  cases given <;> simp [integer?]

def unexpected (token : Token) (kind : ArgumentKind) (vocabulary : String) : Fault :=
  .argumentType token.position kind.describe token.lexeme <|
    if token.isFinish then "Unexpected end of statement, " ++ vocabulary ++ " expected."
    else "Unexpected token: '" ++ token.lexeme ++ "', " ++ vocabulary ++ " expected."

def outOfRange (token : Token) (least greatest : Int) : Fault :=
  .argumentType token.position (ArgumentKind.integer least greatest).describe token.lexeme <|
    "Value " ++ token.lexeme ++ " is out of range, expected value in [" ++ decimal least ++ ", " ++
      decimal greatest ++ "]."

/-- `ON` and `1` are true, `OFF` and `0` false, whatever the kind of the token. -/
def readBoolean (token : Token) : Except Fault Bool :=
  let word := lower token.lexeme
  if word = "1" ∨ word = "on" then .ok true
  else if word = "0" ∨ word = "off" then .ok false
  else .error (unexpected token .boolean "ON, OFF, 1 or 0")

def isFractional (lexeme : String) : Bool :=
  lexeme.toList.any fun c => c == '.' || c == 'e' || c == 'E'

def readInteger (token : Token) (least greatest : Int) : Except Fault Int :=
  if token.kind ≠ .number ∨ isFractional token.lexeme then
    .error (unexpected token (.integer least greatest) "integer")
  else
    match Text.integer token.lexeme with
    | some value =>
      if least ≤ value ∧ value ≤ greatest then .ok value
      else .error (outOfRange token least greatest)
    | none => .error (outOfRange token least greatest)

theorem bounds_of_readInteger {token : Token} {least greatest value : Int}
    (h : readInteger token least greatest = .ok value) : least ≤ value ∧ value ≤ greatest := by
  unfold readInteger at h
  repeat' split at h
  all_goals cases h
  assumption

def readIdentifier (token : Token) : Except Fault String :=
  let failure := unexpected token .identifier "identifier"
  match token.kind with
  | .identifier | .keyword => .ok token.lexeme
  | .quotedIdentifier => token.content.elim (.error failure) .ok
  | _ => .error failure

def readString (token : Token) : Except Fault String :=
  let failure := unexpected token .stringLiteral "string literal"
  match token.kind with
  | .stringLiteral => token.content.elim (.error failure) .ok
  | _ => .error failure

def read (token : Token) : ArgumentKind → Except Fault Argument
  | .boolean => (readBoolean token).map .boolean
  | .integer least greatest => (readInteger token least greatest).map .integer
  | .identifier => (readIdentifier token).map .identifier
  | .stringLiteral => (readString token).map .stringLiteral

end Argument

structure Arguments where
  positional : List Argument
  /-- The options in the order of their clauses; a flag has no value. -/
  options : List (Capitals × Option Argument)
  deriving DecidableEq

namespace Arguments

def get? (arguments : Arguments) (index : Nat) : Option Argument := arguments.positional[index]?

def hasOption (arguments : Arguments) (name : String) : Bool :=
  arguments.options.any fun option => option.1 = .ofText name

def optionValue (arguments : Arguments) (name : String) : Option Argument :=
  (arguments.options.find? fun option => option.1 = .ofText name).bind (·.2)

end Arguments

structure Clause where
  option : OptionSpec
  value : Option Token
  deriving DecidableEq

namespace Clause

def read (clause : Clause) : Except Fault (Capitals × Option Argument) :=
  match clause.option.value, clause.value with
  | some kind, some token =>
    (Argument.read token kind).map fun value => (clause.option.name, some value)
  | _, _ => .ok (clause.option.name, none)

def missing (option : OptionSpec) (kind : ArgumentKind) (position : Nat) : Fault :=
  .argumentType position kind.describe "" <|
    "Unexpected end of statement, " ++ kind.describe ++ " expected after " ++ option.name.text ++
      "."

end Clause

/-- The option of a command that a token names, the first one if several have the name. -/
def Command.optionNamed (command : Command) (token : Token) : Option OptionSpec :=
  command.options.find? fun option => token.spells option.name.text

/-- The clauses of a command, the tokens that belong to none, and what is wrong with the first
clause that cannot be read. -/
structure Clauses where
  clauses : List Clause
  surplus : List Token
  fault : Option Fault

namespace Clauses

/-- After a clause that cannot be read, every token that names no option is surplus. -/
def stop (command : Command) (fault : Fault) (rest : List Token) : Clauses :=
  ⟨[], rest.filter fun token => (command.optionNamed token).isNone, some fault⟩

/-- Reads clauses up to `finish`, where the statement ends; the options of the names in `used` have
been given already. -/
def read (command : Command) (finish : Nat) (used : List Capitals) : List Token → Clauses
  | [] => ⟨[], [], none⟩
  | token :: rest =>
    match command.optionNamed token with
    | none =>
      let others := read command finish used rest
      { others with surplus := token :: others.surplus }
    | some option =>
      if option.name ∈ used then
        stop command (.duplicateOption option.name.text token.position) rest
      else
        match option.value with
        | none =>
          let others := read command finish (option.name :: used) rest
          { others with clauses := ⟨option, none⟩ :: others.clauses }
        | some kind =>
          match rest with
          | [] => stop command (Clause.missing option kind finish) []
          | value :: rest =>
            let others := read command finish (option.name :: used) rest
            { others with clauses := ⟨option, some value⟩ :: others.clauses }

/-- Tokens that belong to no clause are too many arguments. They are reported unless the clause that
cannot be read comes before the first of them. -/
def report (command : Command) (clauses : Clauses) : Option Fault :=
  match clauses.surplus with
  | [] => clauses.fault
  | first :: _ =>
    let expected := command.arguments.length
    let tooMany : Fault :=
      .argumentCount command.name expected (expected + clauses.surplus.length) first.position
    match clauses.fault.bind Fault.position with
    | none => some tooMany
    | some position => if first.position < position then some tooMany else clauses.fault

end Clauses

def dropFinish (tokens : List Token) : List Token × Nat :=
  match tokens.getLast? with
  | none => ([], 0)
  | some last => (if last.isFinish then tokens.dropLast else tokens, last.position)

/-- The tokens without those that end the statement, a semicolon and its end, and the position of
the first of these. -/
def dropTerminator (tokens : List Token) : List Token × Nat :=
  let body := dropFinish tokens
  match body.1.getLast? with
  | some last => if last.isSymbol ";" then (body.1.dropLast, last.position) else body
  | none => body

namespace Arguments

def read (command : Command) (tokens : List Token) : Except Fault Arguments :=
  let given := dropTerminator tokens
  let expected := command.arguments.length
  if given.1.length < expected then
    .error (.argumentCount command.name expected given.1.length given.2)
  else
    let clauses := Clauses.read command given.2 [] (given.1.drop expected)
    match clauses.report command with
    | some fault => .error fault
    | none => do
      let positional ← ((given.1.take expected).zip command.arguments).mapM
        fun pair => Argument.read pair.1 pair.2
      let options ← clauses.clauses.mapM Clause.read
      pure ⟨positional, options⟩

end Arguments

end SqlDispatch
