import SqlDispatch.Statement

set_option autoImplicit false

/-!
A text read with a cursor, which is a number of bytes. Whatever is looked at is a slice of the text
between two numbers of bytes, and there is a slice only where neither end cuts a character in two
(`slice?`). A program that asks for any other slice has no result, and neither has one with a loop
that does not end within so many turns (`turns`). Nothing here makes a turn move the cursor: that
there are turns enough has to be proved of each loop.
-/

namespace SqlDispatch

open Text

/-- A program that moves the cursor, with what keeps it from going on. -/
abbrev Cursor := ExceptT Obstacle (StateT Nat Option)

namespace Cursor

/-- The text from one byte to another, if these are in order, within the text and between
characters. -/
def slice? (text : String) (start stop : Nat) : Option String :=
  if h : start ≤ stop ∧ (⟨start⟩ : String.Pos.Raw).IsValid text ∧
      (⟨stop⟩ : String.Pos.Raw).IsValid text then
    some (text.extract (text.pos ⟨start⟩ h.2.1) (text.pos ⟨stop⟩ h.2.2))
  else none

example : slice? "aéb" 1 3 = some "é" := by decide +kernel
example : slice? "aéb" 1 2 = none := by decide +kernel

def stuck {ε α : Type} : ExceptT ε (StateT Nat Option) α := liftM (none : Option α)

variable (text : String) (turns : Nat)

def ahead : Cursor (List Char) := do
  let rest ← slice? text (← get) text.utf8ByteSize
  return rest.toList

def peek (n : Nat) : Cursor (Option Char) := return (← ahead text)[n]?

def advance : Cursor (Option Char) := do
  let next ← peek text 0
  if let some c := next then
    modify (· + c.utf8Size)
  return next

def accept (c : Char) : Cursor Bool := do
  if (← peek text 0) = some c then
    modify (· + c.utf8Size)
    return true
  else
    return false

def skip : Nat → (Char → Bool) → Cursor Unit
  | 0, _ => stuck
  | turns + 1, p => do
    if let some c ← peek text 0 then
      if p c then
        modify (· + c.utf8Size)
        skip turns p

def reading {α : Type} (program : Cursor α) : Cursor (α × String) := do
  let start ← get
  let answer ← program
  let slice ← slice? text start (← get)
  return (answer, slice)

def takeWhile (p : Char → Bool) : Cursor String := do
  return (← reading text (skip text turns p)).2

/-- Goes on up to the closing mark and over it; a mark written twice does not close. -/
def closeQuote : Nat → Enclosure → Char → Cursor Unit
  | 0, _, _ => stuck
  | turns + 1, enclosure, mark => do
    match ← advance text with
    | some c =>
      if c = mark then
        if ← accept text mark then
          closeQuote turns enclosure mark
      else
        closeQuote turns enclosure mark
    | none => throw (.unclosed enclosure)

def quoted (enclosure : Enclosure) (mark : Char) : Cursor Unit := do
  discard (advance text)
  closeQuote text turns enclosure mark

/-- Goes on over the mark that closes a comment inside which `depth` more are open. -/
def closeComment : Nat → Nat → Cursor Unit
  | 0, _ => stuck
  | turns + 1, depth => do
    match ← advance text with
    | some c =>
      if c = '*' then
        if ← accept text '/' then
          if depth ≠ 0 then
            closeComment turns (depth - 1)
        else
          closeComment turns depth
      else if c = '/' then
        if ← accept text '*' then
          closeComment turns (depth + 1)
        else
          closeComment turns depth
      else
        closeComment turns depth
    | none => throw (.unclosed .blockComment)

def blockComment : Cursor Unit := do
  discard (advance text)
  discard (advance text)
  closeComment text turns 0

def digits : Cursor Unit := discard (takeWhile text turns Char.isDigit)

def fraction : Cursor Unit := do
  if ← accept text '.' then
    digits text turns

/-- Stands still unless digits follow the letter and the sign. -/
def exponent : Cursor Unit := do
  if (← peek text 0) ∈ [some 'e', some 'E'] then
    let signed := (← peek text 1) ∈ [some '+', some '-']
    if (← peek text (if signed then 2 else 1)).any Char.isDigit then
      discard (advance text)
      if signed then
        discard (advance text)
      digits text turns

def number : Cursor Unit := do
  digits text turns
  fraction text turns
  exponent text turns

def punctuation : Cursor Unit := do
  if let some c ← advance text then
    if let some d ← peek text 0 then
      if Extent.pairs.contains (c, d) then
        discard (advance text)

def word : Cursor TokenKind := do
  if isKeyword (← takeWhile text turns Extent.isWordPart) then
    return .keyword
  else
    return .identifier

def opensWord (c : Char) : Bool := c.isAlpha || c == '_' || 0x80 ≤ c.toNat

/-- Goes over the lexeme that starts with `c` before `cs`, where no gap does. -/
def lexeme (signed : Bool) (c : Char) (cs : List Char) : Cursor TokenKind := do
  if c = Quote.single.mark then
    quoted text turns .stringLiteral Quote.single.mark
    return .stringLiteral
  else if c = Quote.double.mark then
    quoted text turns .quotedIdentifier Quote.double.mark
    return .quotedIdentifier
  else if opensWord c then
    word text turns
  else if c.isDigit ∨ c = '.' ∧ Extent.startsNumber cs then
    number text turns
    return .number
  else if (c = '+' ∨ c = '-') ∧ signed ∧ Extent.startsNumber cs then
    discard (advance text)
    number text turns
    return .number
  else if c ∈ Extent.symbols then
    punctuation text
    return .punctuation
  else
    throw (.stray c)

inductive Turn where
  | finish
  | gap
  | lexeme (kind : TokenKind) (text : String)
  deriving DecidableEq, Repr

def piece (signed : Bool) (c : Char) (cs : List Char) : Cursor Turn := do
  if isBlank c then
    discard (advance text)
    return .gap
  else if c = '-' ∧ cs.head? = some '-' then
    discard (takeWhile text turns (· != '\n'))
    return .gap
  else if c = '/' ∧ cs.head? = some '*' then
    blockComment text turns
    return .gap
  else
    let found ← reading text (lexeme text turns signed c cs)
    return .lexeme found.1 found.2

def turn (signed : Bool) : Cursor Turn := do
  match ← ahead text with
  | [] => return .finish
  | c :: cs => piece text turns signed c cs

def signedAfter (tokens : List Token) : Bool :=
  tokens.getLast?.all fun token => signMayFollow token.kind token.lexeme.toList

def loop : Nat → List Token → ExceptT Fault (StateT Nat Option) (List Token)
  | 0, _ => stuck
  | left + 1, tokens => do
    let start ← get
    match ← (turn text turns (signedAfter tokens)).run with
    | .error obstacle => throw (obstacle.fault start)
    | .ok .finish => return tokens ++ [.finish text.utf8ByteSize]
    | .ok .gap => loop left tokens
    | .ok (.lexeme kind slice) => loop left (tokens ++ [⟨slice, kind, start⟩])

def scan : Option (Except Fault Statement) :=
  ((loop text turns turns []).run.run 0).map fun last => last.1.map (⟨text, ·⟩)

end Cursor

end SqlDispatch
