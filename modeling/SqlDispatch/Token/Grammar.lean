import SqlDispatch.Token.Extent

set_option autoImplicit false

/-!
What tokens and gaps look like, said without reading a text. A word is its characters; a quoted text
is a text with every mark written twice between two marks; a number is digits with a fraction and an
exponent that may be missing; a gap is blanks and comments. The extents reach as far as these
allow: see `run_isWordPart` and `quoted_eq_some_iff`.
-/

namespace SqlDispatch.Grammar

open Text

def IsWord (cs : List Char) : Prop :=
  ∃ c rest, cs = c :: rest ∧ Extent.isWordStart c = true ∧ ∀ d ∈ rest, Extent.isWordPart d = true

def IsQuoted (q : Quote) (cs : List Char) : Prop :=
  ∃ body, cs = q.mark :: q.twice body ++ [q.mark]

def AreDigits (cs : List Char) : Prop := ∀ c ∈ cs, c.isDigit = true

/-- Digits on at least one side of a point, or without one. -/
def IsMantissa (cs : List Char) : Prop :=
  cs ≠ [] ∧ AreDigits cs ∨
    ∃ whole part, cs = whole ++ '.' :: part ∧ AreDigits whole ∧ AreDigits part ∧
      (whole ≠ [] ∨ part ≠ [])

def IsExponent (cs : List Char) : Prop :=
  ∃ letter sign part, cs = letter :: sign ++ part ∧ letter ∈ ['e', 'E'] ∧
    sign ∈ [[], ['+'], ['-']] ∧ part ≠ [] ∧ AreDigits part

def IsNumber (cs : List Char) : Prop :=
  ∃ mantissa exponent, cs = mantissa ++ exponent ∧ IsMantissa mantissa ∧
    (exponent = [] ∨ IsExponent exponent)

def IsPunctuation (cs : List Char) : Prop :=
  (∃ c ∈ Extent.symbols, cs = [c]) ∨ ∃ pair ∈ Extent.pairs, cs = [pair.1, pair.2]

/-- The marks of comments and everything else in a text, each mark of two characters read at once
from the left. -/
inductive Mark where
  | opening
  | closing
  | other (c : Char)
  deriving DecidableEq, Repr

def marks : List Char → List Mark
  | '/' :: '*' :: cs => .opening :: marks cs
  | '*' :: '/' :: cs => .closing :: marks cs
  | c :: cs => .other c :: marks cs
  | [] => []

def IsBalanced (ms : List Mark) : Prop := ms.count .opening = ms.count .closing

/-- A comment from its first mark to the one that closes it, the first at which as many comments are
closed as opened. -/
def IsBlockComment (cs : List Char) : Prop :=
  marks cs ≠ [] ∧ (marks cs).head? = some .opening ∧ IsBalanced (marks cs) ∧
    ∀ front, front ≠ [] → front <+: marks cs → IsBalanced front → front = marks cs

def IsLineComment (cs : List Char) : Prop :=
  ∃ rest, cs = '-' :: '-' :: rest ∧ '\n' ∉ rest

inductive IsGap : List Char → Prop where
  | nil : IsGap []
  | blank {c : Char} {cs : List Char} : isBlank c = true → IsGap cs → IsGap (c :: cs)
  | line {front cs : List Char} :
      IsLineComment front → (cs = [] ∨ cs.head? = some '\n') → IsGap cs → IsGap (front ++ cs)
  | block {front cs : List Char} : IsBlockComment front → IsGap cs → IsGap (front ++ cs)

theorem run_isWordPart {c : Char} (h : Extent.isWordStart c = true) (cs : List Char) :
    IsWord (c :: cs.take (Extent.run Extent.isWordPart cs)) := by
  refine ⟨c, _, rfl, h, fun d hd => ?_⟩
  rw [Extent.take_run] at hd
  exact List.all_eq_true.1 List.all_takeWhile d hd

theorem quoted_cons_of_ne {mark c : Char} (h : c ≠ mark) (cs : List Char) :
    Extent.quoted mark (c :: cs) = (Extent.quoted mark cs).map (· + 1) := by
  cases cs <;> simp [Extent.quoted, h]

theorem quoted_twice_append (q : Quote) (body : List Char) {rest : List Char}
    (h : rest.head? ≠ some q.mark) :
    Extent.quoted q.mark (q.twice body ++ q.mark :: rest) = some ((q.twice body).length + 1) := by
  induction body with
  | nil => cases rest <;> simp_all [Extent.quoted, Quote.twice]
  | cons c body ih =>
    by_cases hc : c = q.mark
    · subst hc
      simp [Quote.twice, Extent.quoted, ih]
    · simp [Quote.twice, hc, quoted_cons_of_ne hc, ih]

theorem quoted_eq_some_iff (q : Quote) (cs : List Char) (n : Nat) :
    Extent.quoted q.mark cs = some n ↔
      ∃ body rest, cs = q.twice body ++ q.mark :: rest ∧ rest.head? ≠ some q.mark ∧
        n = (q.twice body).length + 1 := by
  constructor
  · intro h
    fun_induction Extent.quoted q.mark cs generalizing n with
    | case1 => simp at h
    | case2 => exact ⟨[], [], by simp_all [Quote.twice]⟩
    | case3 => simp at h
    | case4 cs ih =>
      obtain ⟨m, hm, rfl⟩ := Option.map_eq_some_iff.1 h
      obtain ⟨body, rest, rfl, hr, rfl⟩ := ih m hm
      exact ⟨q.mark :: body, rest, by simp [Quote.twice], hr, by simp [Quote.twice]⟩
    | case5 d cs hd => exact ⟨[], d :: cs, by simp_all [Quote.twice]⟩
    | case6 c d cs hc ih =>
      obtain ⟨m, hm, rfl⟩ := Option.map_eq_some_iff.1 h
      obtain ⟨body, rest, he, hr, rfl⟩ := ih m hm
      exact ⟨c :: body, rest, by simp [Quote.twice, hc, he], hr, by simp [Quote.twice, hc]⟩
  · rintro ⟨body, rest, rfl, hr, rfl⟩
    exact quoted_twice_append q body hr

end SqlDispatch.Grammar
