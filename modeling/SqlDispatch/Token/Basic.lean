import SqlDispatch.Text.Fold
import SqlDispatch.Text.Quoted

set_option autoImplicit false

/-!
Tokens. A token is a kind, the characters it was read from and the byte offset where they start.
A bare word is a keyword or an identifier; only bare words can name a directive or an option.
-/

namespace SqlDispatch

open Text

inductive TokenKind where
  | keyword
  | identifier
  | quotedIdentifier
  | stringLiteral
  | number
  | punctuation
  | finish
  deriving DecidableEq, Repr

namespace TokenKind

def name : TokenKind → String
  | .keyword => "keyword"
  | .identifier => "identifier"
  | .quotedIdentifier => "quoted identifier"
  | .stringLiteral => "string literal"
  | .number => "number"
  | .punctuation => "punctuation"
  | .finish => "end of statement"

def isWord : TokenKind → Bool
  | .keyword | .identifier => true
  | _ => false

def quote : TokenKind → Option Quote
  | .stringLiteral => some .single
  | .quotedIdentifier => some .double
  | _ => none

end TokenKind

def keywords : List String :=
  ["ALL", "ALLOW_OVERWRITE", "ALTER", "AND", "AS", "ASC", "BATCH_SIZE", "BETWEEN", "BY", "CASE",
    "CREATE", "DELETE", "DESC", "DISTINCT", "DROP", "ELSE", "END", "EXISTS", "FALSE",
    "FLUSH_FREQUENCY", "FROM", "GROUP", "HAVING", "IN", "INDEX", "INSERT", "INTO", "IS", "JOIN",
    "LIKE", "LIMIT", "MERGE", "NOT", "NULL", "OFF", "ON", "OR", "ORDER", "ORDERED",
    "PER_NODE_BUFFER_SIZE", "PER_NODE_PARALLEL_OPERATIONS", "SELECT", "SET", "STREAMING", "TABLE",
    "THEN", "TRUE", "UNION", "UPDATE", "VALUES", "WHEN", "WHERE", "WITH"]

def isKeyword (word : String) : Bool := keywords.contains (upper word)

theorem isKeyword_of_alike {a b : String} (h : alike a b = true) : isKeyword a = isKeyword b := by
  rw [alike_iff_upper] at h
  simp [isKeyword, h]

structure Token where
  lexeme : String
  kind : TokenKind
  /-- The number of bytes before the lexeme. -/
  position : Nat
  deriving DecidableEq, Repr

namespace Token

def finish (position : Nat) : Token := ⟨"", .finish, position⟩

def isFinish (token : Token) : Bool := token.kind == .finish

def isWord (token : Token) : Bool := token.kind.isWord

def isSymbol (token : Token) (symbol : String) : Bool :=
  token.kind == .punctuation && token.lexeme == symbol

/-- The token is this word, bare and in any case. -/
def spells (token : Token) (word : String) : Bool := token.isWord && alike token.lexeme word

def content (token : Token) : Option String :=
  token.kind.quote.bind fun q => q.decode token.lexeme

def display (token : Token) : String :=
  if token.isFinish then token.kind.name else token.lexeme

theorem alike_of_spells {token : Token} {word : String} (h : token.spells word = true) :
    alike token.lexeme word = true := by
  simp only [spells, Bool.and_eq_true] at h
  exact h.2

theorem spells_iff {token : Token} {word : String} :
    token.spells word = true ↔ token.isWord = true ∧ lower token.lexeme = lower word := by
  simp [spells, alike_iff_lower]

end Token

end SqlDispatch
