import SqlDispatch.Text.Blank
import SqlDispatch.Token.Basic

set_option autoImplicit false

/-!
How far each kind of token and gap reaches. Every function here is given the characters of a text
from some place on and answers how many of them belong to what starts there, or that what starts
there is never closed. Words and numbers end where the next character cannot continue them; quoted
texts and comments end at their closing mark.
-/

namespace SqlDispatch.Extent

open Text

def isWordStart (c : Char) : Bool :=
  c.isAlpha || c == '_' || (0x80 ≤ c.toNat && !isBlank c)

def isWordPart (c : Char) : Bool := isWordStart c || c.isDigit || c == '$'

def run (p : Char → Bool) (cs : List Char) : Nat := (cs.takeWhile p).length

theorem run_le (p : Char → Bool) (cs : List Char) : run p cs ≤ cs.length :=
  (List.takeWhile_sublist p).length_le

theorem take_run (p : Char → Bool) (cs : List Char) : cs.take (run p cs) = cs.takeWhile p := by
  induction cs with
  | nil => rfl
  | cons c cs ih => by_cases h : p c <;> simp_all [run]

theorem drop_run (p : Char → Bool) (cs : List Char) : cs.drop (run p cs) = cs.dropWhile p := by
  induction cs with
  | nil => rfl
  | cons c cs ih => by_cases h : p c <;> simp_all [run]

def startsWithDigit : List Char → Bool
  | c :: _ => c.isDigit
  | [] => false

def startsNumber : List Char → Bool
  | '.' :: cs => startsWithDigit cs
  | cs => startsWithDigit cs

def sign : List Char → Nat
  | '+' :: _ | '-' :: _ => 1
  | _ => 0

/-- A point and the digits after it, of which there may be none. -/
def fraction : List Char → Nat
  | '.' :: cs => 1 + run Char.isDigit cs
  | _ => 0

/-- The letter `e`, a sign if there is one, and digits; nothing if there are no digits. -/
def exponent : List Char → Nat
  | [] => 0
  | c :: cs =>
    if (c == 'e' || c == 'E') && startsWithDigit (cs.drop (sign cs)) then
      1 + sign cs + run Char.isDigit (cs.drop (sign cs))
    else 0

/-- Digits, a fraction and an exponent, each of which may be missing. -/
def number (cs : List Char) : Nat :=
  let whole := run Char.isDigit cs
  let point := fraction (cs.drop whole)
  whole + point + exponent (cs.drop (whole + point))

/-- Up to and with the closing mark; a mark written twice does not close. -/
def quoted (mark : Char) : List Char → Option Nat
  | [] => none
  | [c] => if c = mark then some 1 else none
  | c :: d :: cs =>
    if c = mark then
      if d = mark then (quoted mark cs).map (· + 2) else some 1
    else (quoted mark (d :: cs)).map (· + 1)

def lineComment (cs : List Char) : Nat := run (· != '\n') cs

/-- Up to and with the mark that closes a comment inside which `depth` more are open. -/
def blockComment (depth : Nat) : List Char → Option Nat
  | '*' :: '/' :: cs =>
    match depth with
    | 0 => some 2
    | depth + 1 => (blockComment depth cs).map (· + 2)
  | '/' :: '*' :: cs => (blockComment (depth + 1) cs).map (· + 2)
  | _ :: cs => (blockComment depth cs).map (· + 1)
  | [] => none

def symbols : List Char := "()[]\x7b\x7d,;.:*=<>!+-/%|&^~@#?".toList

def pairs : List (Char × Char) :=
  [('<', '='), ('<', '>'), ('>', '='), ('!', '='), ('|', '|'), (':', ':')]

/-- How much of the characters after `c` belongs to the mark of punctuation that `c` starts. -/
def pair (c : Char) : List Char → Nat
  | d :: _ => if (c, d) ∈ pairs then 1 else 0
  | [] => 0

example : quoted '\x27' "a\x27\x27b\x27c".toList = some 5 := by decide +kernel
example : quoted '\x27' "a\x27\x27".toList = none := by decide +kernel
example : blockComment 0 " /* */ */ x".toList = some 9 := by decide +kernel
example : blockComment 0 "/".toList = none := by decide +kernel
example : number "12.5e+3x".toList = 7 := by decide +kernel
example : number "1e+".toList = 1 := by decide +kernel

end SqlDispatch.Extent
