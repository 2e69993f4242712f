import SqlDispatch.Token.Extent

set_option autoImplicit false

/-!
A text cut into pieces. A piece is a gap, which means nothing, or a lexeme with its kind. Cutting
goes from left to right and takes at each place the piece that starts there, at least one
character of it; it stops at the end of the text or at a place where no piece starts. The pieces
and what is left over are the text (`texts_cut`).
-/

namespace SqlDispatch

open Text

inductive Piece where
  | gap (text : List Char)
  | lexeme (kind : TokenKind) (text : List Char)
  deriving DecidableEq, Repr

def Piece.text : Piece → List Char
  | .gap text => text
  | .lexeme _ text => text

inductive Enclosure where
  | stringLiteral
  | quotedIdentifier
  | blockComment
  deriving DecidableEq, Repr

def Enclosure.name : Enclosure → String
  | .stringLiteral => "string literal"
  | .quotedIdentifier => "quoted identifier"
  | .blockComment => "block comment"

inductive Obstacle where
  | unclosed (enclosure : Enclosure)
  | stray (character : Char)
  deriving DecidableEq, Repr

/-- What starts at a place: a piece made of the character there and `more` of those after it, or
none. -/
inductive Start where
  | gap (more : Nat)
  | lexeme (kind : TokenKind) (more : Nat)
  | obstacle (reason : Obstacle)
  deriving DecidableEq, Repr

namespace Start

def closed (enclosure : Enclosure) (piece : Nat → Start) : Option Nat → Start
  | some more => piece more
  | none => .obstacle (.unclosed enclosure)

def word (text : List Char) : TokenKind :=
  if isKeyword (.ofList text) then .keyword else .identifier

/-- What starts with the character `c` before `cs`. A sign starts a number only where `signed`
says that it cannot stand between two operands. -/
def read (signed : Bool) (c : Char) (cs : List Char) : Start :=
  if isBlank c then .gap 0
  else if c = '-' ∧ cs.head? = some '-' then .gap (Extent.lineComment cs)
  else if c = '/' ∧ cs.head? = some '*' then
    closed .blockComment (fun n => .gap (n + 1)) (Extent.blockComment 0 (cs.drop 1))
  else if c = Quote.single.mark then
    closed .stringLiteral (.lexeme .stringLiteral) (Extent.quoted Quote.single.mark cs)
  else if c = Quote.double.mark then
    closed .quotedIdentifier (.lexeme .quotedIdentifier) (Extent.quoted Quote.double.mark cs)
  else if Extent.isWordStart c then
    let more := Extent.run Extent.isWordPart cs
    .lexeme (word (c :: cs.take more)) more
  else if c.isDigit ∨ c = '.' ∧ Extent.startsNumber cs then
    .lexeme .number (Extent.number (c :: cs) - 1)
  else if (c = '+' ∨ c = '-') ∧ signed ∧ Extent.startsNumber cs then
    .lexeme .number (Extent.number cs)
  else if c ∈ Extent.symbols then .lexeme .punctuation (Extent.pair c cs)
  else .obstacle (.stray c)

end Start

def operandKeywords : List String := ["END", "FALSE", "NULL", "TRUE"]

/-- A sign after this lexeme belongs to a number: the lexeme does not end an operand. -/
def signMayFollow (kind : TokenKind) (text : List Char) : Bool :=
  match kind with
  | .keyword => !operandKeywords.contains (upper (.ofList text))
  | .punctuation => text ∉ [[')'], [']'], ['\x7d']]
  | _ => false

/-- The pieces of a text up to the place where no piece starts, with the reason, or up to its
end. -/
structure Cut where
  pieces : List Piece
  obstacle : Option Obstacle
  deriving DecidableEq, Repr

def Cut.cons (piece : Piece) (rest : Cut) : Cut := { rest with pieces := piece :: rest.pieces }

/-- Cuts a text; `signed` says whether a sign at its start would belong to a number. -/
def cut (signed : Bool) : List Char → Cut
  | [] => ⟨[], none⟩
  | c :: cs =>
    match Start.read signed c cs with
    | .gap more => (cut signed (cs.drop more)).cons (.gap (c :: cs.take more))
    | .lexeme kind more =>
      let text := c :: cs.take more
      (cut (signMayFollow kind text) (cs.drop more)).cons (.lexeme kind text)
    | .obstacle reason => ⟨[], some reason⟩
termination_by cs => cs.length
decreasing_by all_goals simp only [List.length_drop, List.length_cons]; omega

def texts (pieces : List Piece) : List Char := pieces.flatMap Piece.text

theorem texts_cut (signed : Bool) (cs : List Char) :
    ∃ rest, texts (cut signed cs).pieces ++ rest = cs ∧
      (rest = [] ↔ (cut signed cs).obstacle = none) := by
  fun_induction cut signed cs with
  | case1 => exact ⟨[], rfl, by simp⟩
  | case2 signed c cs more h ih =>
    obtain ⟨rest, hr, hn⟩ := ih
    refine ⟨rest, ?_, hn⟩
    simp only [texts, Cut.cons, List.flatMap_cons, Piece.text, List.cons_append,
      List.append_assoc] at hr ⊢
    rw [hr, List.take_append_drop]
  | case3 signed c cs kind more h text ih =>
    obtain ⟨rest, hr, hn⟩ := ih
    refine ⟨rest, ?_, hn⟩
    simp only [texts, Cut.cons, List.flatMap_cons, Piece.text, text, List.cons_append,
      List.append_assoc] at hr ⊢
    rw [hr, List.take_append_drop]
  | case4 signed c cs reason h => exact ⟨c :: cs, rfl, by simp⟩

def byteLength (cs : List Char) : Nat := cs.foldr (fun c n => c.utf8Size + n) 0

theorem byteLength_append (a b : List Char) :
    byteLength (a ++ b) = byteLength a + byteLength b := by
  induction a with
  | nil => simp [byteLength]
  | cons c a ih =>
    simp only [byteLength, List.cons_append, List.foldr_cons] at ih ⊢
    omega

def place (position : Nat) : List Piece → List Token
  | [] => []
  | .gap text :: rest => place (position + byteLength text) rest
  | .lexeme kind text :: rest =>
    ⟨.ofList text, kind, position⟩ :: place (position + byteLength text) rest

end SqlDispatch
