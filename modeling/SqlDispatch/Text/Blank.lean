set_option autoImplicit false

/-!
Blank characters, those with the Unicode property White_Space, and what is done with them: a text
loses the blanks at its two ends, or is cut into the words between them. Other invisible
characters, such as U+200B and U+FEFF, are not blank.
-/

namespace SqlDispatch.Text

/-- The code points of White_Space as closed ranges in increasing order. -/
def blankRanges : List (Nat × Nat) :=
  [(0x09, 0x0D), (0x20, 0x20), (0x85, 0x85), (0xA0, 0xA0), (0x1680, 0x1680), (0x2000, 0x200A),
    (0x2028, 0x2029), (0x202F, 0x202F), (0x205F, 0x205F), (0x3000, 0x3000)]

def isBlank (c : Char) : Bool :=
  blankRanges.any fun r => r.1 ≤ c.toNat && c.toNat ≤ r.2

theorem isBlank_iff (c : Char) :
    isBlank c = true ↔ ∃ r ∈ blankRanges, r.1 ≤ c.toNat ∧ c.toNat ≤ r.2 := by
  simp [isBlank]

example : (blankRanges.map fun r => r.2 + 1 - r.1).sum = 25 := by decide

def strip (cs : List Char) : List Char :=
  ((cs.dropWhile isBlank).reverse.dropWhile isBlank).reverse

def trim (text : String) : String := .ofList (strip text.toList)

def isVoid (text : String) : Bool := text.toList.all isBlank

/-- The maximal runs of characters that are not blank. -/
def words (text : String) : List String :=
  ((text.toList.splitOnP isBlank).filter (· ≠ [])).map .ofList

end SqlDispatch.Text
