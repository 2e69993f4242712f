import SqlDispatch.Streaming.Settings
import SqlDispatch.Text.Blank
import SqlDispatch.Text.Fold
import SqlDispatch.Text.Numeral

set_option autoImplicit false

/-!
Commands. A command is a directive that is carried out without the query engine. It is named by one
or more words, takes a fixed number of arguments and then options, each of which is a word that may
call for a value, and has a handler.
-/

namespace SqlDispatch

open Text

inductive ArgumentKind where
  | boolean
  /-- A whole number between two bounds, both allowed. -/
  | integer (least greatest : Int)
  | identifier
  | stringLiteral
  deriving DecidableEq, Repr

def ArgumentKind.describe : ArgumentKind → String
  | .boolean => "boolean"
  | .integer least greatest => "integer in [" ++ decimal least ++ ", " ++ decimal greatest ++ "]"
  | .identifier => "identifier"
  | .stringLiteral => "string literal"

/-- An option of a command; without a kind of value it is a flag. -/
structure OptionSpec where
  name : Capitals
  value : Option ArgumentKind
  deriving DecidableEq

namespace OptionSpec

def flag (name : String) : OptionSpec := ⟨.ofText name, none⟩

def valued (name : String) (kind : ArgumentKind) : OptionSpec := ⟨.ofText name, some kind⟩

end OptionSpec

inductive Handler where
  | acknowledge (summary : String)
  /-- To fail; of the causes the last is the root. -/
  | refuse (causes : List String)
  | streaming (defaults : Streaming.Settings)
  deriving DecidableEq

structure Command where
  words : List Capitals
  arguments : List ArgumentKind
  options : List OptionSpec
  handler : Handler
  deriving DecidableEq

namespace Command

def nameWords (name : String) : List Capitals := (Text.words name).map Capitals.ofText

def name (command : Command) : String := " ".intercalate (command.words.map Capitals.text)

end Command

end SqlDispatch
