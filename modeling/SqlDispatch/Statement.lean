import SqlDispatch.Fault
import SqlDispatch.Token.Piece

set_option autoImplicit false

/-!
Statements. A statement is a text together with its tokens, in the order of the text and closed by
the token that stands for its end. A text of which some part belongs to no token is no statement.
-/

namespace SqlDispatch

open Text

namespace Obstacle

def fault (position : Nat) : Obstacle → Fault
  | .unclosed enclosure => .lexical ("Unterminated " ++ enclosure.name) position
  | .stray character => .unknownToken (.ofList [character]) position

end Obstacle

structure Statement where
  text : String
  tokens : List Token
  deriving DecidableEq, Repr

namespace Statement

def read (text : String) : Except Fault Statement :=
  let parts := cut true text.toList
  match parts.obstacle with
  | some obstacle => .error (obstacle.fault (byteLength (texts parts.pieces)))
  | none => .ok ⟨text, place 0 parts.pieces ++ [.finish text.utf8ByteSize]⟩

def isEmpty (statement : Statement) : Bool := statement.tokens.length == 1

theorem text_of_read {text : String} {statement : Statement} (h : read text = .ok statement) :
    statement.text = text := by
  unfold read at h
  simp only at h
  split at h
  · cases h
  · cases h
    rfl

theorem read_eq_ok_iff {text : String} {statement : Statement} :
    read text = .ok statement ↔
      (cut true text.toList).obstacle = none ∧
        statement = ⟨text, place 0 (cut true text.toList).pieces ++
          [.finish text.utf8ByteSize]⟩ := by
  unfold read
  simp only
  split
  · rename_i h
    simp [h]
  · rename_i h
    simp [h, eq_comm]

end Statement

end SqlDispatch
