import SqlDispatch.Text.Utf8

set_option autoImplicit false

/-!
Lines. A line ends with a line feed, before which one carriage return does not count; what follows
the last line feed is a line as it is, unless it is empty. A line whose bytes are no text cannot be
read, which concerns that line alone.
-/

namespace SqlDispatch.Shell

open Text

def lineFeed : UInt8 := 0x0A

def carriageReturn : UInt8 := 0x0D

def dropReturn (line : List UInt8) : List UInt8 :=
  if line.getLast? = some carriageReturn then line.dropLast else line

/-- The lines as bytes: the last piece is no line if it is empty, and keeps its carriage return. -/
def linesOf : List (List UInt8) → List (List UInt8)
  | [] => []
  | [last] => if last = [] then [] else [last]
  | line :: rest => dropReturn line :: linesOf rest

/-- The lines of an input; one that cannot be read is `none`. -/
def lines (input : List UInt8) : List (Option String) :=
  (linesOf (input.splitOn lineFeed)).map decode

example : lines (encode "a\r\n\nb\r") = [some "a", some "", some "b\r"] := by decide +kernel
example : lines [0x61, 0x0A, 0xFF, 0x0A, 0x62] = [some "a", none, some "b"] := by decide +kernel
example : lines [] = [] := by decide +kernel

end SqlDispatch.Shell
