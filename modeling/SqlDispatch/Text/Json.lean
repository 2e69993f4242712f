import SqlDispatch.Text.Binary64
import SqlDispatch.Text.Hex

set_option autoImplicit false

/-!
Values in JSON and their text. The text has no spaces, keeps the members of an object in the order
given, and escapes only what a string cannot hold: the quotation mark, the reverse solidus and the
characters below U+0020. So a text never holds a line end, whatever the strings in it hold.
-/

namespace SqlDispatch.Text

inductive Json where
  | null
  | bool (value : Bool)
  | integer (value : Int)
  | real (value : Binary64)
  | text (value : String)
  | array (items : List Json)
  | object (members : List (String × Json))

namespace Json

def escape (c : Char) : List Char :=
  if c = '\x22' then ['\\', '\x22']
  else if c = '\\' then ['\\', '\\']
  else if c.toNat = 0x08 then ['\\', 'b']
  else if c.toNat = 0x09 then ['\\', 't']
  else if c.toNat = 0x0A then ['\\', 'n']
  else if c.toNat = 0x0C then ['\\', 'f']
  else if c.toNat = 0x0D then ['\\', 'r']
  else if c.toNat < 0x20 then
    ['\\', 'u', '0', '0', hexDigit (lowNibble (c.toNat / 16)), hexDigit (lowNibble c.toNat)]
  else [c]

def quoted (text : String) : List Char :=
  '\x22' :: text.toList.flatMap escape ++ ['\x22']

mutual

def chars : Json → List Char
  | .null => "null".toList
  | .bool true => "true".toList
  | .bool false => "false".toList
  | .integer value => (decimal value).toList
  | .real value => if value.isFinite then value.chars else "null".toList
  | .text value => quoted value
  | .array items => '[' :: charsOfItems items ++ [']']
  | .object members => '\x7b' :: charsOfMembers members ++ ['\x7d']

def charsOfItems : List Json → List Char
  | [] => []
  | [item] => item.chars
  | item :: rest => item.chars ++ ',' :: charsOfItems rest

def charsOfMembers : List (String × Json) → List Char
  | [] => []
  | [(name, value)] => quoted name ++ ':' :: value.chars
  | (name, value) :: rest => quoted name ++ ':' :: value.chars ++ ',' :: charsOfMembers rest

end

def render (value : Json) : String := .ofList value.chars

/-- A member that is left out when there is no value for it. -/
def optional (name : String) : Option Json → List (String × Json)
  | none => []
  | some value => [(name, value)]

def orNull : Option Json → Json
  | none => .null
  | some value => value

end Json

end SqlDispatch.Text
