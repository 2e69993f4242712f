import SqlDispatch.Proofs.Token.Step

set_option autoImplicit false

/-!
The pieces of the grammar with what stands behind them, and the longest of them at a place. The
reader takes a gap where the grammar has one and a longest lexeme everywhere else, but for one
place: a point with another point and a digit behind it is taken for a number, although it has no
digit of its own (`read_of_pointBeforeNumber`).
-/

namespace SqlDispatch

open Text

namespace Grammar

inductive IsGapPiece : List Char → List Char → Prop where
  | blank {c : Char} {rest : List Char} : isBlank c = true → IsGapPiece [c] rest
  | line {text rest : List Char} :
      IsLineComment text → (rest = [] ∨ rest.head? = some '\n') → IsGapPiece text rest
  | block {text rest : List Char} : IsBlockComment text → IsGapPiece text rest

/-- A lexeme of a kind, with the characters `rest` behind it. A mark that closes a quoted text has
no second mark behind it, and a number has a sign only where `signed` allows one. -/
inductive IsLexeme (signed : Prop) : TokenKind → List Char → List Char → Prop where
  | word {text rest : List Char} : IsWord text →
      IsLexeme signed (if isKeyword (.ofList text) then .keyword else .identifier) text rest
  | quoted {kind : TokenKind} {q : Quote} {text rest : List Char} :
      kind.quote = some q → IsQuoted q text → rest.head? ≠ some q.mark →
      IsLexeme signed kind text rest
  | number {text rest : List Char} : IsNumber text → IsLexeme signed .number text rest
  | signedNumber {sign : Char} {text rest : List Char} :
      signed → sign ∈ ['+', '-'] → IsNumber text → IsLexeme signed .number (sign :: text) rest
  | punctuation {text rest : List Char} :
      IsPunctuation text → IsLexeme signed .punctuation text rest

def IsLongest (signed : Prop) (kind : TokenKind) (text rest : List Char) : Prop :=
  IsLexeme signed kind text rest ∧
    ∀ (other : TokenKind) (front back : List Char), front ++ back = text ++ rest →
      IsLexeme signed other front back → front.length ≤ text.length

def IsBlocked (signed : Prop) (cs : List Char) : Prop :=
  (∀ text rest, text ++ rest = cs → ¬ IsGapPiece text rest) ∧
    (OpensComment cs ∨ ∀ kind text rest, text ++ rest = cs → ¬ IsLexeme signed kind text rest)

inductive Blames : Obstacle → List Char → Prop where
  | unclosed {enclosure : Enclosure} {cs : List Char} :
      Opens enclosure cs → Blames (.unclosed enclosure) cs
  | stray {c : Char} {cs : List Char} :
      (∀ enclosure, ¬ Opens enclosure (c :: cs)) → Blames (.stray c) (c :: cs)

def PointBeforeNumber (cs : List Char) : Prop :=
  ∃ d rest, cs = '.' :: '.' :: d :: rest ∧ d.isDigit = true

theorem not_isNumber_nil : ¬ IsNumber [] := by
  intro h
  have hs := Extent.startsNumber_of_isNumber h []
  exact absurd hs (by simp [Extent.startsNumber, Extent.startsWithDigit])

theorem not_isGapPiece_nil {rest : List Char} : ¬ IsGapPiece [] rest := by
  intro h
  generalize ht : ([] : List Char) = text at h
  cases h with
  | blank => cases ht
  | line h =>
    obtain ⟨_, rfl, _⟩ := h
    cases ht
  | block h =>
    obtain ⟨_, rfl, _⟩ := Extent.isBlockComment_iff.1 h
    cases ht

theorem not_isLexeme_nil {signed : Prop} {kind : TokenKind} {rest : List Char} :
    ¬ IsLexeme signed kind [] rest := by
  intro h
  generalize ht : ([] : List Char) = text at h
  cases h with
  | word h =>
    obtain ⟨_, _, rfl, _⟩ := h
    cases ht
  | quoted _ h =>
    obtain ⟨_, rfl⟩ := h
    cases ht
  | number h => exact not_isNumber_nil (ht ▸ h)
  | signedNumber => cases ht
  | punctuation h =>
    rcases h with ⟨_, _, rfl⟩ | ⟨_, _, rfl⟩
    · cases ht
    · cases ht

theorem number_pos {cs : List Char} (h : Extent.startsNumber cs = true) :
    0 < Extent.number cs := by
  cases hn : Extent.number cs with
  | zero =>
    have ht := Extent.isNumber_take h
    rw [hn, List.take_zero] at ht
    exact absurd ht not_isNumber_nil
  | succ n => exact Nat.succ_pos n

theorem pointBeforeNumber_iff {cs : List Char} : PointBeforeNumber ('.' :: cs) ↔
    ∃ rest, cs = '.' :: rest ∧ Extent.startsWithDigit rest = true := by
  constructor
  · intro h
    obtain ⟨d, rest, he, hd⟩ := h
    exact ⟨d :: rest, (List.cons.inj he).2, hd⟩
  · intro h
    obtain ⟨rest, rfl, hd⟩ := h
    cases rest with
    | nil => cases hd
    | cons d rest => exact ⟨d, rest, rfl, hd⟩

theorem startsNumber_iff_of_point {cs : List Char} :
    Extent.startsNumber cs = true ↔
      Extent.startsWithDigit cs = true ∨ PointBeforeNumber ('.' :: cs) := by
  rw [Extent.startsNumber_iff, pointBeforeNumber_iff]

end Grammar

open Grammar

namespace Start

theorem isGapPiece_of_read {signed : Bool} {c : Char} {cs : List Char} {n : Nat}
    (h : read signed c cs = .gap n) :
    n ≤ cs.length ∧ IsGapPiece (c :: cs.take n) (cs.drop n) := by
  cases read_eq_iff.1 h with
  | blank hb => exact ⟨Nat.zero_le _, .blank hb⟩
  | line hc hh =>
    obtain ⟨rest, rfl⟩ := List.head?_eq_some_iff.1 hh
    refine ⟨Extent.run_le _ _, .line ?_ (Extent.drop_lineComment _)⟩
    have hn := Extent.not_mem_take_lineComment ('-' :: rest)
    have hl : Extent.lineComment ('-' :: rest) = Extent.lineComment rest + 1 := by
      simp [Extent.lineComment, Extent.run]
    rw [hl, List.take_succ_cons, List.mem_cons, not_or] at hn
    exact ⟨rest.take (Extent.lineComment rest), by rw [hl, List.take_succ_cons, hc], hn.2⟩
  | @block rest n hc he hb =>
    obtain ⟨body, back, rfl, rfl, hm⟩ := (Extent.blockComment_eq_some_iff 0 rest n).1 hb
    subst hc he
    refine ⟨by simp, .block (Extent.isBlockComment_iff.2 ⟨body, ?_, hm⟩)⟩
    rw [List.take_succ_cons, List.take_left]

theorem read_of_isGapPiece {c : Char} {text rest : List Char} (h : IsGapPiece (c :: text) rest)
    (signed : Bool) : read signed c (text ++ rest) = .gap text.length := by
  rw [read_eq_iff]
  generalize ht : c :: text = front at h
  cases h with
  | blank hb =>
    obtain ⟨rfl, rfl⟩ := List.cons.inj ht
    exact .blank hb
  | line hl hr =>
    obtain ⟨body, rfl, hn⟩ := hl
    obtain ⟨rfl, rfl⟩ := List.cons.inj ht
    have hb : '\n' ∉ '-' :: body := by simpa using hn
    have he := Extent.lineComment_eq hb hr
    rw [← he]
    exact .line rfl rfl
  | block hb =>
    obtain ⟨body, rfl, hm⟩ := Extent.isBlockComment_iff.1 hb
    obtain ⟨rfl, rfl⟩ := List.cons.inj ht
    exact .block rfl rfl ((Extent.blockComment_eq_some_iff 0 _ _).2 ⟨body, rest, rfl, rfl, hm⟩)

theorem read_eq_gap_iff (signed : Bool) {c : Char} {text rest : List Char} :
    read signed c (text ++ rest) = .gap text.length ↔ IsGapPiece (c :: text) rest := by
  constructor
  · intro h
    obtain ⟨_, hg⟩ := isGapPiece_of_read h
    rw [List.take_left, List.drop_left] at hg
    exact hg
  · intro h
    exact read_of_isGapPiece h signed

theorem read_of_pointBeforeNumber {c : Char} {cs : List Char} (h : PointBeforeNumber (c :: cs))
    (signed : Bool) : read signed c cs = .lexeme .number 0 := by
  obtain ⟨d, rest, he, hd⟩ := h
  obtain ⟨rfl, rfl⟩ := List.cons.inj he
  have hn : Extent.number ('.' :: '.' :: d :: rest) = 1 := by
    simp [Extent.number, Extent.run, Extent.fraction, Extent.exponent]
  have hs : Extent.startsNumber ('.' :: d :: rest) = true := hd
  have hr : Reading signed '.' ('.' :: d :: rest) _ := .number (.inr ⟨rfl, hs⟩)
  rw [hn] at hr
  exact read_of_reading hr

theorem not_opensComment_of_read {signed : Bool} {c : Char} {cs : List Char} {kind : TokenKind}
    {n : Nat} (h : read signed c cs = .lexeme kind n) : ¬ OpensComment (c :: cs) := by
  intro ho
  rcases opensComment_cons.1 ho with ⟨hc, hh⟩ | ⟨hc, hh⟩
  · have hl : Reading signed c cs (.gap _) := .line hc hh
    rw [read_of_reading hl] at h
    cases h
  · obtain ⟨rest, rfl⟩ := List.head?_eq_some_iff.1 hh
    cases hb : Extent.blockComment 0 rest with
    | none =>
      rw [read_of_reading (.unclosedComment hc rfl hb)] at h
      cases h
    | some n =>
      rw [read_of_reading (.block hc rfl hb)] at h
      cases h

theorem isLexeme_of_read {signed : Bool} {c : Char} {cs : List Char} {kind : TokenKind} {n : Nat}
    (h : read signed c cs = .lexeme kind n) (hp : ¬ PointBeforeNumber (c :: cs)) :
    n ≤ cs.length ∧ IsLexeme (signed = true) kind (c :: cs.take n) (cs.drop n) := by
  cases read_eq_iff.1 h with
  | @quoted _ q _ hk hc hq =>
    obtain ⟨body, rest, rfl, hr, rfl⟩ := (quoted_eq_some_iff q cs n).1 hq
    have ht : (q.twice body ++ q.mark :: rest).take ((q.twice body).length + 1) =
        q.twice body ++ [q.mark] := by
      rw [List.take_length_add_append, List.take_succ_cons, List.take_zero]
    have hd : (q.twice body ++ q.mark :: rest).drop ((q.twice body).length + 1) = rest := by
      rw [List.drop_length_add_append, List.drop_succ_cons, List.drop_zero]
    rw [ht, hd, hc]
    exact ⟨by simp, .quoted hk ⟨body, rfl⟩ hr⟩
  | word hw => exact ⟨Extent.run_le _ _, .word (run_isWordPart hw cs)⟩
  | number hn =>
    have hs : Extent.startsNumber (c :: cs) = true := by
      rcases hn with hd | ⟨rfl, hs⟩
      · exact Extent.startsNumber_iff.2 (.inl hd)
      · rcases startsNumber_iff_of_point.1 hs with hs | hs
        · exact Extent.startsNumber_iff.2 (.inr ⟨cs, rfl, hs⟩)
        · exact absurd hs hp
    have ht := Extent.isNumber_take hs
    have hl := Extent.number_le (c :: cs)
    obtain ⟨m, hm⟩ := Nat.exists_eq_add_of_lt (number_pos hs)
    rw [Nat.zero_add] at hm
    rw [hm] at ht hl ⊢
    exact ⟨Nat.le_of_succ_le_succ hl, .number ht⟩
  | signedNumber hc hs hn =>
    exact ⟨Extent.number_le cs, .signedNumber hs (by simpa using hc) (Extent.isNumber_take hn)⟩
  | symbol hm _ _ _ =>
    cases cs with
    | nil => exact ⟨Nat.le_refl 0, .punctuation (.inl ⟨c, hm, rfl⟩)⟩
    | cons d cs =>
      by_cases hd : (c, d) ∈ Extent.pairs
      · simp only [Extent.pair, hd, if_true]
        exact ⟨by simp, .punctuation (.inr ⟨(c, d), hd, rfl⟩)⟩
      · simp only [Extent.pair, hd, if_false]
        exact ⟨Nat.zero_le _, .punctuation (.inl ⟨c, hm, rfl⟩)⟩

theorem le_length_of_read {signed : Bool} {c : Char} {cs : List Char} {kind : TokenKind}
    {n : Nat} (h : read signed c cs = .lexeme kind n) : n ≤ cs.length := by
  by_cases hp : PointBeforeNumber (c :: cs)
  · rw [read_of_pointBeforeNumber hp] at h
    cases h
    exact Nat.zero_le _
  · exact (isLexeme_of_read h hp).1

theorem of_mem_pairs : ∀ pair ∈ Extent.pairs, pair.1 ∈ Extent.symbols ∧
    ¬ (pair.1 = '.' ∨ pair.1 = '+' ∨ pair.1 = '-') := by
  decide +kernel

theorem exists_read_of_mem_symbols (signed : Bool) {c : Char} {cs : List Char}
    (hm : c ∈ Extent.symbols) (ho : ¬ OpensComment (c :: cs))
    (hp : ¬ PointBeforeNumber (c :: cs)) :
    ∃ kind n, read signed c cs = .lexeme kind n ∧ (n = Extent.pair c cs ∧ kind = .punctuation ∨
      0 < n ∧ (c = '.' ∨ c = '+' ∨ c = '-')) := by
  by_cases hn : c = '.' ∧ Extent.startsNumber cs = true
  · refine ⟨_, _, read_of_reading (.number (.inr hn)), .inr ⟨?_, .inl hn.1⟩⟩
    obtain ⟨rfl, hs⟩ := hn
    have hd := (startsNumber_iff_of_point.1 hs).resolve_right hp
    have ht := Extent.isNumber_take (Extent.startsNumber_iff.2 (.inr ⟨cs, rfl, hd⟩))
    have hl := Extent.length_le_number ht (('.' :: cs).drop (Extent.number ('.' :: cs)))
    have hr := Extent.take_run_ne_nil hd
    have hz : Extent.run Char.isDigit cs ≠ 0 := by
      intro e
      rw [e] at hr
      exact hr rfl
    have hf : Extent.number ('.' :: cs) =
        0 + (Extent.fraction ('.' :: cs) + Extent.exponent (('.' :: cs).drop _)) :=
      Extent.number_append (by simp [AreDigits] : AreDigits []) (by simp)
    have he : Extent.fraction ('.' :: cs) = 1 + Extent.run Char.isDigit cs := rfl
    omega
  · by_cases hs : (c = '+' ∨ c = '-') ∧ signed = true ∧ Extent.startsNumber cs = true
    · exact ⟨_, _, read_of_reading (.signedNumber hs.1 hs.2.1 hs.2.2),
        .inr ⟨number_pos hs.2.2, .inr hs.1⟩⟩
    · exact ⟨_, _, read_of_reading (.symbol hm ho hn hs), .inl ⟨rfl, rfl⟩⟩

/-- Where a lexeme stands, one is read that is no shorter, and of the same kind if no longer. -/
theorem exists_read_of_isLexeme {signed : Bool} {kind : TokenKind} {c : Char}
    {text rest : List Char} (ho : ¬ OpensComment (c :: (text ++ rest)))
    (hp : ¬ PointBeforeNumber (c :: (text ++ rest)))
    (h : IsLexeme (signed = true) kind (c :: text) rest) :
    ∃ other n, read signed c (text ++ rest) = .lexeme other n ∧ text.length ≤ n ∧
      (n = text.length → other = kind) := by
  generalize hf : c :: text = front at h
  cases h with
  | word hw =>
    subst hf
    have hl := Extent.length_le_run_of_isWord hw rest
    obtain ⟨_, _, he, hs, _⟩ := hw
    obtain ⟨rfl, rfl⟩ := List.cons.inj he
    refine ⟨_, _, read_of_reading (.word hs), hl, fun hn => ?_⟩
    rw [hn, List.take_left]
    rfl
  | @quoted _ q _ _ hk hq hr =>
    obtain ⟨body, rfl⟩ := hq
    obtain ⟨rfl, rfl⟩ : c = q.mark ∧ text = q.twice body ++ [q.mark] := List.cons.inj hf
    have he := quoted_twice_append q body hr
    rw [List.append_assoc, List.singleton_append]
    exact ⟨_, _, read_of_reading (.quoted hk rfl he), by simp, fun _ => rfl⟩
  | number hn =>
    subst hf
    have hl := Extent.length_le_number hn rest
    have hs := Extent.startsNumber_of_isNumber hn rest
    have hc : c.isDigit = true ∨ c = '.' ∧ Extent.startsNumber (text ++ rest) = true := by
      rcases Extent.startsNumber_iff.1 hs with hd | ⟨_, he, hd⟩
      · exact .inl hd
      · obtain ⟨rfl, rfl⟩ := List.cons.inj he
        exact .inr ⟨rfl, startsNumber_iff_of_point.2 (.inl hd)⟩
    exact ⟨_, _, read_of_reading (.number hc), Nat.le_sub_one_of_lt hl, fun _ => rfl⟩
  | signedNumber hs hm hn =>
    obtain ⟨rfl, rfl⟩ := List.cons.inj hf
    have hc : c = '+' ∨ c = '-' := by simpa using hm
    exact ⟨_, _, read_of_reading (.signedNumber hc hs (Extent.startsNumber_of_isNumber hn rest)),
      Extent.length_le_number hn rest, fun _ => rfl⟩
  | punctuation hu =>
    subst hf
    rcases hu with ⟨d, hm, he⟩ | ⟨pair, hm, he⟩
    · obtain ⟨rfl, rfl⟩ := List.cons.inj he
      obtain ⟨other, n, hr, hk⟩ := exists_read_of_mem_symbols signed hm ho hp
      refine ⟨other, n, hr, Nat.zero_le n, fun hn => ?_⟩
      rcases hk with hk | hk
      · exact hk.2
      · rw [hn] at hk
        exact absurd hk.1 (Nat.lt_irrefl 0)
    · obtain ⟨rfl, rfl⟩ := List.cons.inj he
      have hc := of_mem_pairs pair hm
      obtain ⟨other, n, hr, hk⟩ := exists_read_of_mem_symbols signed hc.1 ho hp
      rcases hk with hk | hk
      · refine ⟨other, n, hr, ?_, fun _ => hk.2⟩
        simp [hk.1, Extent.pair, hm]
      · exact absurd hk.2 hc.2

/-- But for the point before a number, a lexeme is read where it is the longest at a place that
opens no comment. -/
theorem read_eq_lexeme_iff {signed : Bool} {kind : TokenKind} {c : Char} {text rest : List Char}
    (hp : ¬ PointBeforeNumber (c :: (text ++ rest))) :
    read signed c (text ++ rest) = .lexeme kind text.length ↔
      ¬ OpensComment (c :: (text ++ rest)) ∧ IsLongest (signed = true) kind (c :: text) rest := by
  constructor
  · intro h
    have ho := not_opensComment_of_read h
    obtain ⟨_, hl⟩ := isLexeme_of_read h hp
    rw [List.take_left, List.drop_left] at hl
    refine ⟨ho, hl, fun other front back he hf => ?_⟩
    cases front with
    | nil => exact Nat.zero_le _
    | cons d front =>
      obtain ⟨rfl, hb⟩ := List.cons.inj he
      rw [List.append_eq, List.append_eq] at hb
      rw [← hb] at ho hp h
      obtain ⟨kind', n, hr, hn, _⟩ := exists_read_of_isLexeme ho hp hf
      rw [hr] at h
      cases h
      exact Nat.succ_le_succ hn
  · intro h
    obtain ⟨ho, hl, hm⟩ := h
    obtain ⟨other, n, hr, hn, hk⟩ := exists_read_of_isLexeme ho hp hl
    obtain ⟨hle, hl'⟩ := isLexeme_of_read hr hp
    have hm := hm _ _ _ (by rw [List.cons_append, List.take_append_drop, List.cons_append]) hl'
    simp only [List.length_cons, List.length_take] at hm
    have he : n = text.length := by omega
    rw [hr, hk he, he]

/-- The only lexeme that a point before a number starts is the point. -/
theorem isLongest_iff_of_pointBeforeNumber {signed : Prop} {kind : TokenKind}
    {text rest : List Char} (hp : PointBeforeNumber (text ++ rest)) :
    ¬ OpensComment (text ++ rest) ∧ IsLongest signed kind text rest ↔
      kind = .punctuation ∧ text = ['.'] := by
  obtain ⟨d, cs, he, hd⟩ := hp
  have honly (other : TokenKind) (front back : List Char) (hf : front ++ back = text ++ rest)
      (h : IsLexeme signed other front back) : other = .punctuation ∧ front = ['.'] := by
    rw [he] at hf
    cases h with
    | word hw =>
      obtain ⟨c, more, rfl, hc, _⟩ := hw
      rw [(List.cons.inj hf).1] at hc
      exact absurd hc (by decide)
    | @quoted _ q _ _ _ hq =>
      obtain ⟨body, rfl⟩ := hq
      have hc := (List.cons.inj hf).1
      cases q <;> exact absurd hc (by decide)
    | number hn =>
      have hs := Extent.startsNumber_of_isNumber hn back
      rw [hf] at hs
      exact absurd hs (by simp [Extent.startsNumber, Extent.startsWithDigit])
    | signedNumber _ hm _ =>
      rw [(List.cons.inj hf).1] at hm
      exact absurd hm (by decide)
    | punctuation hu =>
      rcases hu with ⟨c, _, rfl⟩ | ⟨pair, hm, rfl⟩
      · exact ⟨rfl, by rw [(List.cons.inj hf).1]⟩
      · exact absurd (.inl (List.cons.inj hf).1) (of_mem_pairs pair hm).2
  constructor
  · intro h
    exact honly kind text rest rfl h.2.1
  · intro h
    obtain ⟨rfl, rfl⟩ := h
    refine ⟨by rw [he, opensComment_cons]; simp, ?_, fun other front back hf h => ?_⟩
    · exact .punctuation (.inl ⟨'.', by decide, rfl⟩)
    · exact Nat.le_of_eq (congrArg List.length (honly other front back hf h).2)

theorem opens_cons_iff {enclosure : Enclosure} {c : Char} {cs : List Char} :
    Opens enclosure (c :: cs) ↔ enclosure = .stringLiteral ∧ c = Quote.single.mark ∨
      enclosure = .quotedIdentifier ∧ c = Quote.double.mark ∨
      enclosure = .blockComment ∧ c = '/' ∧ cs.head? = some '*' := by
  constructor
  · intro h
    cases h with
    | stringLiteral => exact .inl ⟨rfl, rfl⟩
    | quotedIdentifier => exact .inr (.inl ⟨rfl, rfl⟩)
    | blockComment => exact .inr (.inr ⟨rfl, rfl, rfl⟩)
  · intro h
    rcases h with ⟨rfl, rfl⟩ | ⟨rfl, rfl⟩ | ⟨rfl, rfl, hh⟩
    · exact .stringLiteral
    · exact .quotedIdentifier
    · obtain ⟨rest, rfl⟩ := List.head?_eq_some_iff.1 hh
      exact .blockComment

theorem opens_unique {a b : Enclosure} {cs : List Char} (ha : Opens a cs) (hb : Opens b cs) :
    a = b := by
  cases ha <;> cases hb <;> rfl

theorem blames_unique {a b : Obstacle} {cs : List Char} (ha : Blames a cs) (hb : Blames b cs) :
    a = b := by
  cases ha with
  | unclosed ha =>
    cases hb with
    | unclosed hb => rw [opens_unique ha hb]
    | stray hb => exact absurd ha (hb _)
  | stray ha =>
    cases hb with
    | unclosed hb => exact absurd hb (ha _)
    | stray => rfl

theorem blames_of_read {signed : Bool} {reason : Obstacle} {c : Char} {cs : List Char}
    (h : read signed c cs = .obstacle reason) : Blames reason (c :: cs) := by
  cases read_eq_iff.1 h with
  | unclosedQuote hc ho _ => exact .unclosed (hc ▸ ho)
  | unclosedComment hc he _ => exact .unclosed (hc ▸ he ▸ .blockComment)
  | stray _ hq _ _ hm =>
    refine .stray fun enclosure ho => ?_
    rcases opens_cons_iff.1 ho with ⟨_, hc⟩ | ⟨_, hc⟩ | ⟨_, rfl, _⟩
    · exact hq .single hc
    · exact hq .double hc
    · exact hm (by decide)

theorem isBlocked_of_read {signed : Bool} {reason : Obstacle} {c : Char} {cs : List Char}
    (h : read signed c cs = .obstacle reason) : IsBlocked (signed = true) (c :: cs) := by
  have hp : ¬ PointBeforeNumber (c :: cs) := by
    intro hp
    rw [read_of_pointBeforeNumber hp] at h
    cases h
  refine ⟨fun text rest he hg => ?_, Classical.or_iff_not_imp_left.2 fun ho => ?_⟩
  · cases text with
    | nil => exact not_isGapPiece_nil hg
    | cons d text =>
      obtain ⟨rfl, rfl⟩ := List.cons.inj he
      rw [List.append_eq, read_of_isGapPiece hg] at h
      cases h
  · intro kind text rest he hl
    cases text with
    | nil => exact not_isLexeme_nil hl
    | cons d text =>
      obtain ⟨rfl, rfl⟩ := List.cons.inj he
      obtain ⟨other, n, hr, _⟩ := exists_read_of_isLexeme ho hp hl
      rw [List.append_eq, hr] at h
      cases h

theorem read_eq_obstacle_iff {signed : Bool} {reason : Obstacle} {c : Char} {cs : List Char} :
    read signed c cs = .obstacle reason ↔
      IsBlocked (signed = true) (c :: cs) ∧ Blames reason (c :: cs) := by
  constructor
  · intro h
    exact ⟨isBlocked_of_read h, blames_of_read h⟩
  · intro h
    obtain ⟨⟨hg, hl⟩, hb⟩ := h
    have htd (n : Nat) : c :: cs.take n ++ cs.drop n = c :: cs := by
      rw [List.cons_append, List.take_append_drop]
    cases hr : read signed c cs with
    | gap n => exact absurd (isGapPiece_of_read hr).2 (hg _ _ (htd n))
    | lexeme kind n =>
      have hl := hl.resolve_left (not_opensComment_of_read hr)
      by_cases hp : PointBeforeNumber (c :: cs)
      · obtain ⟨d, rest, he, _⟩ := hp
        have hu : IsPunctuation ['.'] := .inl ⟨'.', by decide, rfl⟩
        exact absurd (.punctuation hu) (hl .punctuation ['.'] ('.' :: d :: rest) he.symm)
      · exact absurd (isLexeme_of_read hr hp).2 (hl _ _ _ (htd n))
    | obstacle other => rw [blames_unique hb (blames_of_read hr)]

end Start

end SqlDispatch
