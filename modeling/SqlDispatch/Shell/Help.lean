import SqlDispatch.Shell.Invocation

set_option autoImplicit false

/-!
What the shell tells of itself. Options stand in one column and what they do in another, filled with
as many words as a line of `lineWidth` characters holds.
-/

namespace SqlDispatch.Shell

open Text

def splitAfterSpaces : List Char → List (List Char)
  | [] => []
  | [c] => [[c]]
  | c :: d :: cs =>
    match splitAfterSpaces (d :: cs) with
    | [] => [[c]]
    | word :: words =>
      if c = ' ' ∧ d ≠ ' ' then [c] :: word :: words else (c :: word) :: words

def dropSpacesAtEnd (cs : List Char) : List Char := (cs.reverse.dropWhile (· = ' ')).reverse

/-- Adds a word to lines, the last of which comes first, and starts a line if it does not fit. -/
def addWord (width : Nat) (lines : List (List Char)) (word : List Char) : List (List Char) :=
  match lines with
  | [] => [word]
  | line :: lines =>
    if line.length + (dropSpacesAtEnd word).length > width then
      word :: dropSpacesAtEnd line :: lines
    else (line ++ word) :: lines

/-- The text in lines of no more characters than `width`, unless a word has more. -/
def fill (width : Nat) (text : String) : List String :=
  (((splitAfterSpaces text.toList).foldl (addWord width) []).reverse).map .ofList

namespace Help

def lineWidth : Nat := 100

def entries (lookup : Lookup) : List (String × String) :=
  [("      --dsn <DSN>",
      "Database URL of the development engine [env: " ++ Invocation.dsnVariable ++ "=" ++
        (lookup Invocation.dsnVariable).getD "" ++ "] [default: " ++ Invocation.standardDsn ++ "]"),
    ("      --target <TARGET>",
      "Execution target: cluster, local, servers, clients, data-nodes:<cache>, " ++
        "nodes:<uuid,...> or attr:<name>=<value>"),
    ("      --timeout-secs <TIMEOUT_SECS>", "Query timeout in seconds (0 disables the limit)"),
    ("      --fail-fast", "Stop at the first failing statement and exit non-zero"),
    ("  -h, --help", "Print help"),
    ("  -V, --version", "Print version")]

def column (entries : List (String × String)) : Nat :=
  entries.foldl (fun width entry => max width (entry.1.length + 2)) 0

def entryText (column : Nat) (entry : String × String) : String :=
  let spaces (n : Nat) : String := .ofList (List.replicate n ' ')
  entry.1 ++ spaces (column - entry.1.length) ++
    ("\n" ++ spaces column).intercalate (fill (lineWidth - column) entry.2) ++ "\n"

def text (lookup : Lookup) : String :=
  let entries := entries lookup
  "Run SQL statements and driver directives against a development engine\n\n" ++
    "Usage: gridsql-shell [OPTIONS]\n\n" ++
    "Options:\n" ++ String.join (entries.map (entryText (column entries)))

end Help

def versionText : String := "gridsql-shell 0.1.0\n"

def Stop.answer (lookup : Lookup) : Stop → Option String
  | .help => some (Help.text lookup)
  | .version => some versionText
  | _ => none

end SqlDispatch.Shell
