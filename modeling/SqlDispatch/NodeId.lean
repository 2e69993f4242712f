import SqlDispatch.Text.Blank
import SqlDispatch.Text.Fold
import SqlDispatch.Text.Hex

set_option autoImplicit false

/-!
Identifiers of nodes. An identifier is 32 hexadecimal digits. It is written in groups of 8, 4, 4, 4
and 12 digits with hyphens between them; it is read in that form, in braces or after `urn:uuid:` as
well, or as plain digits.
-/

namespace SqlDispatch

open Text

structure NodeId where
  digits : List (Fin 16)
  length_digits : digits.length = 32
  deriving DecidableEq

namespace NodeId

def groups : List Nat := [8, 4, 4, 4, 12]

def zero : NodeId := ⟨List.replicate 32 0, by decide⟩

def readPlain (cs : List Char) : Option NodeId :=
  (cs.mapM hexValue).bind fun digits =>
    if h : digits.length = 32 then some ⟨digits, h⟩ else none

def readGrouped (cs : List Char) : Option NodeId :=
  let parts := cs.splitOn '-'
  if parts.map List.length = groups then readPlain parts.flatten else none

def afterFolded (front : List Char) (cs : List Char) : Option (List Char) :=
  if (cs.take front.length).map Char.toLower = front then some (cs.drop front.length) else none

def unbraced : List Char → Option (List Char)
  | '\x7b' :: cs => if cs.getLast? = some '\x7d' then some cs.dropLast else none
  | _ => none

def read (cs : List Char) : Option NodeId :=
  readPlain cs <|> readGrouped cs <|> (unbraced cs).bind readGrouped <|>
    (afterFolded "urn:uuid:".toList cs).bind readGrouped

def grouped : List Nat → List (Fin 16) → List (List Char)
  | [], _ => []
  | n :: sizes, digits => (digits.take n).map hexDigit :: grouped sizes (digits.drop n)

def display (id : NodeId) : List Char :=
  ['-'].intercalate (grouped groups id.digits)

end NodeId

end SqlDispatch
