import SqlDispatch.Router
import SqlDispatch.Text.Utf8

set_option autoImplicit false

/-!
Records. For every statement that is executed the shell writes one record, a line of JSON with the
number of the statement's line and either what it came to or what is wrong with it.
-/

namespace SqlDispatch.Shell

open Text

structure Record where
  line : Nat
  result : Except Fault Outcome

namespace Record

def failed (record : Record) : Bool :=
  match record.result with
  | .error _ => true
  | .ok _ => false

def json (record : Record) : Json :=
  .object
    [("line", .integer record.line),
      match record.result with
      | .ok outcome => ("outcome", outcome.json)
      | .error fault => ("error", fault.diagnostic.json)]

def bytes (record : Record) : List UInt8 := encode (record.json.render ++ "\n")

end Record

end SqlDispatch.Shell
