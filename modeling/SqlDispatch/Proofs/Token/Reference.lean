import SqlDispatch.Proofs.Token.Longest

set_option autoImplicit false

/-!
Reading a whole text by the grammar alone. At each place a gap is skipped, or else the longest
lexeme is taken; where neither stands the text is at fault there. A text has one such reading
(`exists_lexes`), and a statement is read in the same way but for one slip: a point right before a
number that begins with a point becomes a number itself (`read_eq_reference_iff`).
-/

namespace SqlDispatch

open Text

namespace Grammar

/-- A sign before a number belongs to it: the token before the sign does not end an operand. -/
def SignFits : Option Token → Prop
  | none => True
  | some token =>
    token.kind = .keyword ∧ upper token.lexeme ∉ operandKeywords ∨
      token.kind = .punctuation ∧ token.lexeme ∉ [")", "]", "\x7d"]

/-- What the text `cs` holds, where `previous` is the last token before it and `position` the number
of bytes before it: its tokens, or its first fault. -/
inductive Lexes : Option Token → Nat → List Char → Except Fault (List Token) → Prop where
  | finish {previous : Option Token} {position : Nat} :
      Lexes previous position [] (.ok [.finish position])
  | gap {previous : Option Token} {position : Nat} {text rest : List Char}
      {result : Except Fault (List Token)} :
      IsGapPiece text rest → Lexes previous (position + byteLength text) rest result →
      Lexes previous position (text ++ rest) result
  | token {previous : Option Token} {position : Nat} {kind : TokenKind} {text rest : List Char}
      {result : Except Fault (List Token)} :
      ¬ OpensComment (text ++ rest) → IsLongest (SignFits previous) kind text rest →
      Lexes (some ⟨.ofList text, kind, position⟩) (position + byteLength text) rest result →
      Lexes previous position (text ++ rest) (result.map (⟨.ofList text, kind, position⟩ :: ·))
  | fault {previous : Option Token} {position : Nat} {cs : List Char} {reason : Obstacle} :
      IsBlocked (SignFits previous) cs → Blames reason cs →
      Lexes previous position cs (.error (reason.fault position))

theorem exists_signed (previous : Option Token) :
    ∃ signed : Bool, (signed = true) = SignFits previous := by
  by_cases h : SignFits previous
  · exact ⟨true, by simp [h]⟩
  · exact ⟨false, by simp [h]⟩

theorem signMayFollow_eq (kind : TokenKind) (text : List Char) (position : Nat) :
    (signMayFollow kind text = true) = SignFits (some ⟨.ofList text, kind, position⟩) := by
  cases kind <;> simp [signMayFollow, SignFits, ← String.toList_inj]

instance (cs : List Char) : Decidable (PointBeforeNumber cs) :=
  decidable_of_iff (['.', '.'] <+: cs ∧ Extent.startsWithDigit (cs.drop 2) = true) (by
    constructor
    · intro h
      obtain ⟨⟨rest, rfl⟩, hd⟩ := h
      cases rest with
      | nil => exact absurd hd (by decide)
      | cons d rest => exact ⟨d, rest, rfl, hd⟩
    · intro h
      obtain ⟨d, rest, rfl, hd⟩ := h
      exact ⟨⟨d :: rest, rfl⟩, hd⟩)

end Grammar

open Grammar

namespace Start

def expected (signed : Bool) (c : Char) (cs : List Char) : Start :=
  if PointBeforeNumber (c :: cs) then .lexeme .punctuation 0 else read signed c cs

variable {signed : Bool} {c : Char} {cs : List Char}

theorem expected_eq_gap_iff {text rest : List Char} :
    expected signed c (text ++ rest) = .gap text.length ↔ IsGapPiece (c :: text) rest := by
  rw [← read_eq_gap_iff signed]
  unfold expected
  split
  · rename_i hp
    rw [read_of_pointBeforeNumber hp]
    simp
  · exact Iff.rfl

theorem expected_eq_lexeme_iff {kind : TokenKind} {text rest : List Char} :
    expected signed c (text ++ rest) = .lexeme kind text.length ↔
      ¬ OpensComment (c :: (text ++ rest)) ∧ IsLongest (signed = true) kind (c :: text) rest := by
  unfold expected
  split
  · rename_i hp
    rw [← List.cons_append, isLongest_iff_of_pointBeforeNumber hp]
    obtain ⟨d, more, he, _⟩ := hp
    rw [(List.cons.inj he).1]
    cases text <;> simp [eq_comm]
  · rename_i hp
    exact read_eq_lexeme_iff hp

theorem expected_eq_obstacle_iff {reason : Obstacle} :
    expected signed c cs = .obstacle reason ↔
      IsBlocked (signed = true) (c :: cs) ∧ Blames reason (c :: cs) := by
  rw [← read_eq_obstacle_iff]
  unfold expected
  split
  · rename_i hp
    rw [read_of_pointBeforeNumber hp]
    simp
  · exact Iff.rfl

theorem exists_append_of_expected {n : Nat} (h : expected signed c cs = .gap n ∨
    ∃ kind, expected signed c cs = .lexeme kind n) :
    ∃ text rest, cs = text ++ rest ∧ n = text.length := by
  suffices hn : n ≤ cs.length by
    exact ⟨cs.take n, cs.drop n, (List.take_append_drop n cs).symm, by simp [hn]⟩
  unfold expected at h
  split at h
  · rcases h with h | ⟨kind, h⟩
    · cases h
    · cases h
      exact Nat.zero_le _
  · rename_i hp
    rcases h with h | ⟨kind, h⟩
    · exact (isGapPiece_of_read h).1
    · exact (isLexeme_of_read h hp).1

end Start

namespace Grammar

variable {signed : Bool} {previous : Option Token} {position : Nat}

theorem lexes_nil_iff {result : Except Fault (List Token)} :
    Lexes previous position [] result ↔ result = .ok [.finish position] := by
  constructor
  · intro h
    generalize hc : ([] : List Char) = cs at h
    cases h with
    | finish => rfl
    | gap hg =>
      rw [(List.append_eq_nil_iff.1 hc.symm).1] at hg
      exact absurd hg not_isGapPiece_nil
    | token _ hl =>
      rw [(List.append_eq_nil_iff.1 hc.symm).1] at hl
      exact absurd hl.1 not_isLexeme_nil
    | fault _ hb =>
      subst hc
      cases hb with
      | unclosed ho => cases ho
  · intro h
    subst h
    exact .finish

theorem lexes_cons_iff (hs : (signed = true) = SignFits previous) {c : Char} {cs : List Char}
    {result : Except Fault (List Token)} :
    Lexes previous position (c :: cs) result ↔
      match Start.expected signed c cs with
      | .gap n => Lexes previous (position + byteLength (c :: cs.take n)) (cs.drop n) result
      | .lexeme kind n => ∃ tail,
          Lexes (some ⟨.ofList (c :: cs.take n), kind, position⟩)
            (position + byteLength (c :: cs.take n)) (cs.drop n) tail ∧
          result = tail.map (⟨.ofList (c :: cs.take n), kind, position⟩ :: ·)
      | .obstacle reason => result = .error (reason.fault position) := by
  constructor
  · intro h
    generalize hc : c :: cs = text at h
    cases h with
    | finish => cases hc
    | @gap _ _ text rest _ hg hr =>
      cases text with
      | nil => exact absurd hg not_isGapPiece_nil
      | cons d text =>
        obtain ⟨rfl, rfl⟩ : c = d ∧ cs = text ++ rest := List.cons.inj hc
        rw [Start.expected_eq_gap_iff.2 hg]
        dsimp only
        rw [List.take_left, List.drop_left]
        exact hr
    | @token _ _ kind text rest tail ho hl hr =>
      cases text with
      | nil => exact absurd hl.1 not_isLexeme_nil
      | cons d text =>
        obtain ⟨rfl, rfl⟩ : c = d ∧ cs = text ++ rest := List.cons.inj hc
        rw [← hs] at hl
        rw [Start.expected_eq_lexeme_iff.2 ⟨ho, hl⟩]
        dsimp only
        rw [List.take_left, List.drop_left]
        exact ⟨tail, hr, rfl⟩
    | fault hb hr =>
      rw [← hs, ← hc] at hb
      rw [Start.expected_eq_obstacle_iff.2 ⟨hb, hc ▸ hr⟩]
  · intro h
    cases he : Start.expected signed c cs with
    | gap n =>
      rw [he] at h
      obtain ⟨text, rest, rfl, rfl⟩ := Start.exists_append_of_expected (.inl he)
      dsimp only at h
      rw [List.take_left, List.drop_left] at h
      exact .gap (Start.expected_eq_gap_iff.1 he) h
    | lexeme kind n =>
      rw [he] at h
      obtain ⟨text, rest, rfl, rfl⟩ := Start.exists_append_of_expected (.inr ⟨kind, he⟩)
      dsimp only at h
      rw [List.take_left, List.drop_left] at h
      obtain ⟨tail, hr, rfl⟩ := h
      obtain ⟨ho, hl⟩ := Start.expected_eq_lexeme_iff.1 he
      exact .token ho (hs ▸ hl) hr
    | obstacle reason =>
      rw [he] at h
      subst h
      obtain ⟨hb, hr⟩ := Start.expected_eq_obstacle_iff.1 he
      exact .fault (hs ▸ hb) hr

theorem le_position_of_lexes {cs : List Char} {tokens : List Token}
    (h : Lexes previous position cs (.ok tokens)) :
    ∀ token ∈ tokens.head?, position ≤ token.position := by
  generalize hr : Except.ok tokens = result at h
  induction h with
  | finish =>
    cases hr
    simp [Token.finish]
  | gap _ _ ih =>
    intro token ht
    exact Nat.le_of_add_right_le (ih hr token ht)
  | @token _ _ _ _ _ tail =>
    cases tail with
    | error => cases hr
    | ok tokens =>
      cases hr
      simp
  | fault => cases hr

end Grammar

def Token.isPointBefore (token next : Token) : Bool :=
  token.isSymbol "." && next.kind == .number && next.lexeme.toList.head? == some '.' &&
    next.position == token.position + 1

theorem Token.isPointBefore_iff {token next : Token} :
    token.isPointBefore next = true ↔ token.kind = .punctuation ∧ token.lexeme = "." ∧
      next.kind = .number ∧ next.lexeme.toList.head? = some '.' ∧
      next.position = token.position + 1 := by
  simp [isPointBefore, isSymbol, and_assoc]

/-- The tokens with every point before a number taken for a number. -/
def misread : List Token → List Token
  | [] => []
  | token :: rest =>
    (if rest.head?.any token.isPointBefore then { token with kind := .number } else token) ::
      misread rest

def HasDoublePoint (tokens : List Token) : Prop :=
  ∃ front token next back, tokens = front ++ token :: next :: back ∧
    token.isPointBefore next = true

theorem hasDoublePoint_cons {token : Token} {rest : List Token} :
    HasDoublePoint (token :: rest) ↔
      rest.head?.any token.isPointBefore = true ∨ HasDoublePoint rest := by
  constructor
  · intro h
    obtain ⟨front, first, next, back, he, hp⟩ := h
    cases front with
    | nil =>
      obtain ⟨rfl, rfl⟩ := List.cons.inj he
      exact .inl hp
    | cons _ front => exact .inr ⟨front, first, next, back, (List.cons.inj he).2, hp⟩
  · intro h
    rcases h with h | ⟨front, first, next, back, rfl, hp⟩
    · cases rest with
      | nil => cases h
      | cons next back => exact ⟨[], token, next, back, rfl, h⟩
    · exact ⟨token :: front, first, next, back, rfl, hp⟩

theorem misread_eq_iff {tokens : List Token} :
    misread tokens = tokens ↔ ¬ HasDoublePoint tokens := by
  induction tokens with
  | nil => simp [misread, HasDoublePoint]
  | cons token rest ih =>
    rw [misread, List.cons.injEq, hasDoublePoint_cons, not_or, ih]
    refine and_congr_left fun _ => ?_
    cases rest.head? with
    | none => simp
    | some next =>
      cases hp : token.isPointBefore next with
      | false => simp [hp]
      | true =>
        have hk : token.kind = .punctuation := (Token.isPointBefore_iff.1 hp).1
        simp only [Option.any_some, hp, if_true, not_true, iff_false]
        intro he
        rw [← he] at hk
        cases hk

namespace Start

theorem expected_point_eq_number_iff (signed : Bool) (cs : List Char) :
    (∃ n, expected signed '.' cs = .lexeme .number n) ↔ Extent.startsWithDigit cs = true := by
  unfold expected
  constructor
  · intro h
    obtain ⟨n, h⟩ := h
    split at h
    · cases h
    · rename_i hp
      generalize hk : TokenKind.number = kind at h
      cases read_eq_iff.1 h with
      | quoted hq =>
        subst hk
        cases hq
      | word hw => exact absurd hw (by decide)
      | number hn =>
        rcases hn with hd | ⟨_, hs⟩
        · exact absurd hd (by decide)
        · exact (startsNumber_iff_of_point.1 hs).resolve_right hp
      | signedNumber hc => exact absurd hc (by decide)
      | symbol => cases hk
  · intro h
    have hs := Extent.startsNumber_iff.2 (.inl h)
    split
    · rename_i hp
      obtain ⟨d, rest, he, _⟩ := hp
      rw [(List.cons.inj he).2] at h
      simp [Extent.startsWithDigit] at h
    · exact ⟨_, read_of_reading (.number (.inr ⟨rfl, hs⟩))⟩

end Start

namespace Grammar

theorem any_isPointBefore_iff (token : Token)
    (ht : token.kind = .punctuation ∧ token.lexeme = ".") {previous : Option Token}
    {cs : List Char} {tokens : List Token}
    (h : Lexes previous (token.position + 1) cs (.ok tokens)) :
    tokens.head?.any token.isPointBefore = true ↔ PointBeforeNumber ('.' :: cs) := by
  rw [pointBeforeNumber_iff]
  cases cs with
  | nil =>
    cases lexes_nil_iff.1 h
    simp [Token.isPointBefore, Token.finish]
  | cons c cs =>
    obtain ⟨signed, hs⟩ := exists_signed previous
    have hn := Start.expected_point_eq_number_iff signed cs
    rw [lexes_cons_iff hs] at h
    cases he : Start.expected signed c cs with
    | gap n =>
      rw [he] at h
      have hl := le_position_of_lexes h
      have hb := byteLength_cons_pos c (cs.take n)
      constructor
      · intro ha
        obtain ⟨next, hh, hp⟩ := (Option.any_eq_true ..).1 ha
        have hl := hl next hh
        have hp := (Token.isPointBefore_iff.1 hp).2.2.2.2
        omega
      · intro hd
        obtain ⟨rest, hc, hd⟩ := hd
        obtain ⟨rfl, rfl⟩ := List.cons.inj hc
        obtain ⟨m, hm⟩ := hn.2 hd
        rw [he] at hm
        cases hm
    | lexeme kind n =>
      rw [he] at h
      obtain ⟨tail, _, hr⟩ := h
      cases tail with
      | error => cases hr
      | ok tail =>
        cases hr
        simp only [List.head?_cons, Option.any_some, Token.isPointBefore_iff, String.toList_ofList,
          Option.some.injEq, and_true, ht, true_and]
        constructor
        · intro hk
          obtain ⟨rfl, rfl⟩ := hk
          exact ⟨cs, rfl, hn.1 ⟨n, he⟩⟩
        · intro hd
          obtain ⟨rest, hc, hd⟩ := hd
          obtain ⟨rfl, rfl⟩ := List.cons.inj hc
          obtain ⟨m, hm⟩ := hn.2 hd
          rw [he] at hm
          cases hm
          exact ⟨rfl, rfl⟩
    | obstacle reason =>
      rw [he] at h
      cases h

theorem pointBeforeNumber_of_any {previous : Option Token} {position : Nat} {kind : TokenKind}
    {text rest : List Char} {tokens : List Token}
    (h : Lexes previous (position + byteLength text) rest (.ok tokens))
    (ha : tokens.head?.any (Token.isPointBefore ⟨.ofList text, kind, position⟩) = true) :
    PointBeforeNumber (text ++ rest) := by
  obtain ⟨next, _, hb⟩ := (Option.any_eq_true ..).1 ha
  obtain ⟨hk, hx, _⟩ := Token.isPointBefore_iff.1 hb
  obtain rfl : text = ['.'] := by simpa [← String.toList_inj] using hx
  exact (any_isPointBefore_iff _ ⟨hk, hx⟩ h).1 ha

end Grammar

open Grammar

theorem map_cons_misread {token other : Token} {tail : Except Fault (List Token)}
    (h : ∀ rest, tail = .ok rest → other =
      if rest.head?.any token.isPointBefore then { token with kind := .number } else token) :
    (tail.map misread).map (other :: ·) = (tail.map (token :: ·)).map misread := by
  cases tail with
  | error => rfl
  | ok rest =>
    rw [h rest rfl]
    rfl

theorem cut_point (a b : Bool) (cs : List Char) : cut a ('.' :: cs) = cut b ('.' :: cs) := by
  have hr : Start.read a '.' cs = Start.read b '.' cs := by simp [Start.read]
  rw [cut, cut, hr]
  cases he : Start.read b '.' cs with
  | gap n =>
    cases Start.read_eq_iff.1 he with
    | blank hb => exact absurd hb (by decide)
    | line hc => exact absurd hc (by decide)
    | block hc => exact absurd hc (by decide)
  | lexeme kind n => rfl
  | obstacle reason => rfl

/-- Every text has one reading by the grammar, and is cut into the tokens of that reading, misread.
-/
theorem exists_lexes (cs : List Char) {signed : Bool} {previous : Option Token}
    (hs : (signed = true) = SignFits previous) (position : Nat) :
    ∃ result, (∀ other, Lexes previous position cs other ↔ other = result) ∧
      (cut signed cs).outcome position = result.map misread := by
  -- one step takes any number of characters, so the induction is on how many there are
  induction hn : cs.length using Nat.strongRecOn generalizing cs signed previous position with
  | ind n ih =>
  cases cs with
  | nil =>
    refine ⟨.ok [.finish position], fun other => lexes_nil_iff, ?_⟩
    rw [Cut.outcome_nil]
    rfl
  | cons c cs =>
    have hl (m : Nat) : (cs.drop m).length < n := by
      rw [List.length_drop, ← hn, List.length_cons]
      omega
    simp only [lexes_cons_iff hs]
    by_cases hp : PointBeforeNumber (c :: cs)
    · have he : Start.expected signed c cs = .lexeme .punctuation 0 := if_pos hp
      simp only [he]
      obtain ⟨tail, hu, ho⟩ := ih _ (hl 0) _ (signMayFollow_eq .punctuation [c] position)
        (position + byteLength [c]) rfl
      refine ⟨tail.map (⟨.ofList [c], .punctuation, position⟩ :: ·), fun other => ?_, ?_⟩
      · simp only [List.take_zero, hu, exists_eq_left]
      · rw [Cut.outcome_of_lexeme (Start.read_of_pointBeforeNumber hp signed), List.take_zero,
          List.drop_zero]
        rw [List.drop_zero] at ho hu
        obtain ⟨d, rest, hd, _⟩ := id hp
        obtain ⟨rfl, rfl⟩ := List.cons.inj hd
        -- a sign could follow the point and none a number, but the next character is no sign
        rw [cut_point _ (signMayFollow .punctuation ['.']), ho]
        refine map_cons_misread fun tokens ht => ?_
        have ha := any_isPointBefore_iff ⟨.ofList ['.'], .punctuation, position⟩ ⟨rfl, rfl⟩
          ((hu _).2 ht.symm)
        rw [if_pos (ha.2 hp)]
    · have he : Start.expected signed c cs = Start.read signed c cs := if_neg hp
      simp only [he]
      cases hr : Start.read signed c cs with
      | gap m =>
        rw [Cut.outcome_of_gap hr]
        exact ih _ (hl m) _ hs _ rfl
      | lexeme kind m =>
        obtain ⟨tail, hu, ho⟩ := ih _ (hl m) _ (signMayFollow_eq kind (c :: cs.take m) position)
          (position + byteLength (c :: cs.take m)) rfl
        refine ⟨tail.map (⟨.ofList (c :: cs.take m), kind, position⟩ :: ·), fun other => ?_, ?_⟩
        · simp only [hu, exists_eq_left]
        · rw [Cut.outcome_of_lexeme hr, ho]
          refine map_cons_misread fun tokens ht => ?_
          rw [if_neg]
          intro ha
          have hb := pointBeforeNumber_of_any ((hu _).2 ht.symm) ha
          rw [List.cons_append, List.take_append_drop] at hb
          exact hp hb
      | obstacle reason =>
        refine ⟨_, fun other => Iff.rfl, ?_⟩
        rw [Cut.outcome_of_obstacle hr]
        rfl

namespace Statement

/-- A statement is read as the grammar reads its text, but for the points before numbers; the two
readings are the same where there is no such point. -/
theorem read_eq_reference_iff (text : String) :
    ∃ result, (∀ other, Lexes none 0 text.toList other ↔ other = result) ∧
      read text = result.map (fun tokens => ⟨text, misread tokens⟩) ∧
      (read text = result.map (fun tokens => ⟨text, tokens⟩) ↔
        ∀ tokens, result = .ok tokens → ¬ HasDoublePoint tokens) := by
  have hs : (true = true) = SignFits none := by simp [SignFits]
  obtain ⟨result, hu, ho⟩ := exists_lexes text.toList hs 0
  have hr : read text = result.map (fun tokens => ⟨text, misread tokens⟩) := by
    rw [read_eq_outcome, ho]
    cases result <;> rfl
  refine ⟨result, hu, hr, ?_⟩
  rw [hr]
  cases result with
  | error fault => simp [Except.map]
  | ok tokens => simp [Except.map, misread_eq_iff]

/-- The first of two points before a digit is a mark of punctuation, and is read as a number. -/
theorem read_double_point :
    Lexes none 0 "..5".toList
        (.ok [⟨".", .punctuation, 0⟩, ⟨".5", .number, 1⟩, .finish 3]) ∧
      read "..5" = .ok ⟨"..5", [⟨".", .number, 0⟩, ⟨".5", .number, 1⟩, .finish 3]⟩ := by
  constructor
  · have hf : (true = true) = SignFits none := by simp [SignFits]
    have hs : (true = true) = SignFits (some ⟨".", .punctuation, 0⟩) := by simp [SignFits]
    have hp : Start.expected true '.' ['.', '5'] = .lexeme .punctuation 0 := by decide +kernel
    have hn : Start.expected true '.' ['5'] = .lexeme .number 1 := by decide +kernel
    have hl : Lexes (some ⟨".", .punctuation, 0⟩) 1 ['.', '5']
        (.ok [⟨".5", .number, 1⟩, .finish 3]) := by
      rw [lexes_cons_iff hs, hn]
      exact ⟨_, .finish, rfl⟩
    change Lexes none 0 ['.', '.', '5'] _
    rw [lexes_cons_iff hf, hp]
    exact ⟨_, hl, rfl⟩
  · have hp : Start.read true '.' ['.', '5'] = .lexeme .number 0 := by decide +kernel
    have hn : Start.read false '.' ['5'] = .lexeme .number 1 := by decide +kernel
    rw [read_eq_outcome]
    change ((cut true ['.', '.', '5']).outcome 0).map _ = _
    rw [Cut.outcome_of_lexeme hp]
    change Except.map _ (((cut false ['.', '5']).outcome 1).map _) = _
    rw [Cut.outcome_of_lexeme hn]
    change Except.map _ ((((cut false []).outcome 3).map _).map _) = _
    rw [Cut.outcome_nil]
    rfl

end Statement

end SqlDispatch
