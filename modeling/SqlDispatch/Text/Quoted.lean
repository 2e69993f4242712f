set_option autoImplicit false

/-!
Quoted text. A text is quoted by a mark at each end, and a mark inside it is written twice.
Reading a quoted text takes the mark off the front and then off the back, and reads each pair of
marks as one; a mark that stands alone is kept.
-/

namespace SqlDispatch.Text

inductive Quote where
  | single
  | double
  deriving DecidableEq, Repr

namespace Quote

def mark : Quote → Char
  | .single => '\x27'
  | .double => '\x22'

def twice (q : Quote) : List Char → List Char
  | [] => []
  | c :: cs => if c = q.mark then c :: c :: q.twice cs else c :: q.twice cs

/-- The text with each pair of marks, found from the left, read as one. -/
def once (q : Quote) : List Char → List Char
  | [] => []
  | [c] => [c]
  | c :: d :: cs => if c = q.mark ∧ d = q.mark then c :: q.once cs else c :: q.once (d :: cs)

def encode (q : Quote) (text : String) : String :=
  .ofList (q.mark :: q.twice text.toList ++ [q.mark])

/-- The text between the outer marks, if both are there; a lone mark has only the first. -/
def decode (q : Quote) (text : String) : Option String :=
  match text.toList with
  | [] => none
  | c :: cs =>
    if c = q.mark ∧ cs.getLast? = some q.mark then some (.ofList (q.once cs.dropLast)) else none

theorem once_cons_of_ne {q : Quote} {c : Char} (h : c ≠ q.mark) (cs : List Char) :
    q.once (c :: cs) = c :: q.once cs := by
  cases cs with
  | nil => simp [once]
  | cons d cs => simp [once, h]

theorem once_twice (q : Quote) (cs : List Char) : q.once (q.twice cs) = cs := by
  induction cs with
  | nil => rfl
  | cons c cs ih =>
    by_cases h : c = q.mark
    · simp [twice, once, h, ih]
    · simp [twice, once_cons_of_ne h, h, ih]

theorem decode_encode (q : Quote) (text : String) : q.decode (q.encode text) = some text := by
  simp [decode, encode, once_twice]

end Quote

end SqlDispatch.Text
