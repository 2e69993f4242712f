import SqlDispatch.Event
import SqlDispatch.Text.Blank

set_option autoImplicit false

/-!
How events are logged, by default as text. A format that is not known is complained of.
-/

namespace SqlDispatch.Shell

open Text

inductive LogFormat where
  | text
  | json
  deriving DecidableEq, Repr

namespace LogFormat

/-- The format that a variable asks for, and a complaint if there is no such format. -/
def read (value : Option String) : LogFormat × Option String :=
  match value.map trim with
  | none => (.text, none)
  | some word =>
    if word = "" then (.text, none)
    else if alike word "json" then (.json, none)
    else if alike word "text" ∨ alike word "pretty" then (.text, none)
    else (.text, some ("GRIDSQL_LOG_FORMAT '" ++ word ++ "' is not recognised; defaulting to text"))

def line (format : LogFormat) (event : Event) : String :=
  match format with
  | .json => event.json.render
  | .text => event.level.name ++ " " ++ event.message ++ " " ++ (Json.object event.fields).render

end LogFormat

end SqlDispatch.Shell
