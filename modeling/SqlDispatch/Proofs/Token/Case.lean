import Mathlib.Data.List.Forall2
import SqlDispatch.Proofs.Token.Step

set_option autoImplicit false

/-!
The case of a text as the lexer sees it. Every test made of a character has the same answer for a
capital and its small letter, so every extent is the same, and a text in small letters is read into
the same tokens in small letters or fails in the very same way (`outcome_map_toLower`).
-/

namespace SqlDispatch

open Text

namespace Text

def capitalLetters : List Char := "ABCDEFGHIJKLMNOPQRSTUVWXYZ".toList

theorem toLower_of_not_mem_capitalLetters {c : Char} (h : c ∉ capitalLetters) : c.toLower = c := by
  have hm : ∀ n < 26, Char.ofNat (65 + n) ∈ capitalLetters := by decide
  apply Char.toNat_inj.1
  rw [toNat_toLower, if_neg]
  intro hc
  refine h ?_
  have hn := hm (c.toNat - 65) (by omega)
  rwa [Nat.add_sub_cancel' hc.1, Char.ofNat_toNat] at hn

/-- What is the same for a capital and its small letter does not depend on case. -/
theorem apply_toLower {α : Type} [DecidableEq α] {f : Char → α}
    (h : (capitalLetters.all fun c => f c.toLower = f c) = true) (c : Char) :
    f c.toLower = f c := by
  by_cases hc : c ∈ capitalLetters
  · simpa using List.all_eq_true.1 h c hc
  · rw [toLower_of_not_mem_capitalLetters hc]

theorem toLower_eq_iff {c mark : Char} (h : mark.isAlpha = false) :
    c.toLower = mark ↔ c = mark := by
  have hall : (capitalLetters.all fun c => c.isAlpha && c.toLower.isAlpha) = true := by
    decide
  by_cases hc : c ∈ capitalLetters
  · obtain ⟨hu, hl⟩ := Bool.and_eq_true_iff.1 (List.all_eq_true.1 hall c hc)
    refine iff_of_false (fun e => ?_) (fun e => ?_)
    · rw [e, h] at hl
      cases hl
    · rw [e, h] at hu
      cases hu
  · rw [toLower_of_not_mem_capitalLetters hc]

theorem exists_cons_of_map_toLower {mark : Char} (h : mark.isAlpha = false) {cs rest : List Char}
    (he : cs.map Char.toLower = mark :: rest) : ∃ back, cs = mark :: back := by
  obtain ⟨c, back, rfl, hc, _⟩ := List.map_eq_cons_iff.1 he
  exact ⟨back, by rw [(toLower_eq_iff h).1 hc]⟩

theorem map_toLower_eq_singleton_iff {mark : Char} (h : mark.isAlpha = false) (cs : List Char) :
    cs.map Char.toLower = [mark] ↔ cs = [mark] := by
  simp [List.map_eq_cons_iff, toLower_eq_iff h, eq_comm]

theorem map_toLower_eq_some_iff {mark : Char} (h : mark.isAlpha = false) (c : Option Char) :
    c.map Char.toLower = some mark ↔ c = some mark := by
  simp [toLower_eq_iff h]

@[simp] theorem isBlank_toLower (c : Char) : isBlank c.toLower = isBlank c :=
  apply_toLower (by decide) c

@[simp] theorem isDigit_toLower (c : Char) : c.toLower.isDigit = c.isDigit :=
  apply_toLower (f := Char.isDigit) (by decide) c

@[simp] theorem utf8Size_toLower (c : Char) : c.toLower.utf8Size = c.utf8Size :=
  apply_toLower (by decide) c

theorem Quote.isAlpha_mark (q : Quote) : q.mark.isAlpha = false := by cases q <;> decide

end Text

namespace Extent

@[simp] theorem isWordStart_toLower (c : Char) : isWordStart c.toLower = isWordStart c :=
  apply_toLower (by decide) c

@[simp] theorem isWordPart_toLower (c : Char) : isWordPart c.toLower = isWordPart c :=
  apply_toLower (by decide) c

@[simp] theorem mem_symbols_toLower (c : Char) : c.toLower ∈ symbols ↔ c ∈ symbols := by
  have h : symbols.contains c.toLower = symbols.contains c := apply_toLower (by decide) c
  rw [← List.contains_iff_mem, h, List.contains_iff_mem]

theorem run_map_toLower {p : Char → Bool} (hp : ∀ c, p c.toLower = p c) (cs : List Char) :
    run p (cs.map Char.toLower) = run p cs := by
  have h : p ∘ Char.toLower = p := funext hp
  rw [run, List.takeWhile_map, h, List.length_map]
  rfl

@[simp] theorem lineComment_map_toLower (cs : List Char) :
    lineComment (cs.map Char.toLower) = lineComment cs :=
  run_map_toLower (apply_toLower (by decide)) cs

@[simp] theorem startsWithDigit_map_toLower (cs : List Char) :
    startsWithDigit (cs.map Char.toLower) = startsWithDigit cs := by
  cases cs <;> simp [startsWithDigit]

@[simp] theorem startsNumber_map_toLower (cs : List Char) :
    startsNumber (cs.map Char.toLower) = startsNumber cs := by
  cases cs with
  | nil => rfl
  | cons c cs =>
    by_cases h : c = '.'
    · subst h
      exact startsWithDigit_map_toLower cs
    · have hl : c.toLower ≠ '.' := mt (toLower_eq_iff (by decide)).1 h
      simp [startsNumber, h, hl, startsWithDigit]

@[simp] theorem sign_map_toLower (cs : List Char) : sign (cs.map Char.toLower) = sign cs := by
  have h (c : Char) (cs : List Char) : sign (c :: cs) = if c = '+' ∨ c = '-' then 1 else 0 := by
    by_cases hp : c = '+'
    · simp [sign, hp]
    · by_cases hm : c = '-' <;> simp [sign, hp, hm]
  cases cs with
  | nil => rfl
  | cons c cs => simp (disch := decide) only [List.map_cons, h, toLower_eq_iff]

@[simp] theorem fraction_map_toLower (cs : List Char) :
    fraction (cs.map Char.toLower) = fraction cs := by
  cases cs with
  | nil => rfl
  | cons c cs =>
    by_cases h : c = '.'
    · subst h
      exact congrArg (1 + ·) (run_map_toLower isDigit_toLower cs)
    · have hl : c.toLower ≠ '.' := mt (toLower_eq_iff (by decide)).1 h
      simp [fraction, h, hl]

@[simp] theorem exponent_map_toLower (cs : List Char) :
    exponent (cs.map Char.toLower) = exponent cs := by
  cases cs with
  | nil => rfl
  | cons c cs =>
    have h : (c.toLower == 'e' || c.toLower == 'E') = (c == 'e' || c == 'E') :=
      apply_toLower (f := fun c => c == 'e' || c == 'E') (by decide) c
    simp [exponent, h, ← List.map_drop, run_map_toLower isDigit_toLower]

@[simp] theorem number_map_toLower (cs : List Char) : number (cs.map Char.toLower) = number cs := by
  simp [number, ← List.map_drop, run_map_toLower isDigit_toLower]

theorem quoted_map_toLower {mark : Char} (h : mark.isAlpha = false) (cs : List Char) :
    quoted mark (cs.map Char.toLower) = quoted mark cs := by
  fun_induction quoted mark cs <;> simp_all [quoted, toLower_eq_iff]

@[simp] theorem blockComment_map_toLower (depth : Nat) (cs : List Char) :
    blockComment depth (cs.map Char.toLower) = blockComment depth cs := by
  fun_induction blockComment depth cs with
  | case1 cs => rfl
  | case2 cs depth ih => exact congrArg (Option.map (· + 2)) ih
  | case3 depth cs ih => exact congrArg (Option.map (· + 2)) ih
  | case4 depth c cs hc ho ih =>
    have hc (rest : List Char) (hl : c.toLower = '*') (he : cs.map Char.toLower = '/' :: rest) :
        False := by
      obtain ⟨back, he⟩ := exists_cons_of_map_toLower (by decide) he
      exact hc back ((toLower_eq_iff (by decide)).1 hl) he
    have ho (rest : List Char) (hl : c.toLower = '/') (he : cs.map Char.toLower = '*' :: rest) :
        False := by
      obtain ⟨back, he⟩ := exists_cons_of_map_toLower (by decide) he
      exact ho back ((toLower_eq_iff (by decide)).1 hl) he
    rw [List.map_cons, blockComment, ih]
    · exact hc
    · exact ho
  | case5 => rfl

@[simp] theorem pair_map_toLower (c : Char) (cs : List Char) :
    pair c.toLower (cs.map Char.toLower) = pair c cs := by
  cases cs with
  | nil => rfl
  | cons d cs => simp (disch := decide) [pair, pairs, toLower_eq_iff]

end Extent

theorem lower_ofList (cs : List Char) : lower (.ofList cs) = .ofList (cs.map Char.toLower) := by
  simp [lower]

theorem alike_lower (text : String) : alike (lower text) text = true :=
  alike_iff_lower.2 (lower_lower text)

namespace Start

theorem word_map_toLower (cs : List Char) : word (cs.map Char.toLower) = word cs := by
  rw [word, word, ← lower_ofList, isKeyword_of_alike (alike_lower _)]

theorem toLower_of_not_isWordStart {c : Char} (h : Extent.isWordStart c = false) :
    c.toLower = c := by
  have hall : capitalLetters.all Extent.isWordStart = true := by decide
  refine toLower_of_not_mem_capitalLetters fun hc => ?_
  rw [List.all_eq_true.1 hall c hc] at h
  cases h

theorem read_map_toLower (signed : Bool) (c : Char) (cs : List Char) :
    read signed c.toLower (cs.map Char.toLower) = read signed c cs := by
  have hq := Quote.isAlpha_mark
  have hn := Extent.number_map_toLower (c :: cs)
  rw [List.map_cons] at hn
  unfold read
  simp (disch := first | decide | exact hq _) only [isBlank_toLower, toLower_eq_iff,
    List.head?_map, map_toLower_eq_some_iff, ← List.map_drop, Extent.lineComment_map_toLower,
    Extent.blockComment_map_toLower, Extent.quoted_map_toLower, Extent.isWordStart_toLower,
    Extent.run_map_toLower Extent.isWordPart_toLower, isDigit_toLower,
    Extent.startsNumber_map_toLower, hn, Extent.number_map_toLower, Extent.mem_symbols_toLower,
    Extent.pair_map_toLower]
  -- the test for a word is passed by every letter, so the case of `c` shows in the word alone
  cases hs : Extent.isWordStart c with
  | true =>
    have hw := word_map_toLower (c :: cs.take (Extent.run Extent.isWordPart cs))
    rw [List.map_cons, List.map_take] at hw
    simp only [if_true, hw]
  | false => simp only [toLower_of_not_isWordStart hs, Bool.false_eq_true, if_false]

end Start

theorem signMayFollow_map_toLower (kind : TokenKind) (text : List Char) :
    signMayFollow kind (text.map Char.toLower) = signMayFollow kind text := by
  cases kind with
  | keyword => simp only [signMayFollow, ← lower_ofList, upper_lower]
  | punctuation =>
    simp (disch := decide) only [signMayFollow, List.mem_cons, map_toLower_eq_singleton_iff,
      List.not_mem_nil]
  | _ => rfl

theorem byteLength_map_toLower (cs : List Char) :
    byteLength (cs.map Char.toLower) = byteLength cs := by
  simp [byteLength, List.foldr_map]

namespace Token

def lowered (token : Token) : Token := { token with lexeme := lower token.lexeme }

@[simp] theorem kind_lowered (token : Token) : token.lowered.kind = token.kind := rfl

@[simp] theorem position_lowered (token : Token) : token.lowered.position = token.position := rfl

@[simp] theorem lexeme_lowered (token : Token) : token.lowered.lexeme = lower token.lexeme := rfl

def Alike (token other : Token) : Prop :=
  token.kind = other.kind ∧ token.position = other.position ∧
    alike token.lexeme other.lexeme = true

theorem alike_iff_lowered {token other : Token} :
    token.Alike other ↔ token.lowered = other.lowered := by
  simp only [Alike, lowered, alike_iff_lower, Token.mk.injEq]
  exact ⟨fun h => ⟨h.2.2, h.1, h.2.1⟩, fun h => ⟨h.2.1, h.2.2, h.1⟩⟩

theorem forall₂_alike_iff {tokens others : List Token} :
    List.Forall₂ Alike tokens others ↔ tokens.map lowered = others.map lowered := by
  have h : Alike = fun a b => a.lowered = b.lowered :=
    funext₂ fun _ _ => propext alike_iff_lowered
  have he := List.forall₂_eq_eq_eq (α := Token)
  rw [h, ← he, List.forall₂_map_left_iff, List.forall₂_map_right_iff]

end Token

/-- In small letters a text is read into the same tokens in small letters, or has the very same
fault. -/
theorem Cut.outcome_map_toLower (signed : Bool) (cs : List Char) (position : Nat) :
    (cut signed (cs.map Char.toLower)).outcome position =
      ((cut signed cs).outcome position).map (List.map Token.lowered) := by
  induction signed, cs using cut.induct generalizing position with
  | case1 signed =>
    rw [List.map_nil, outcome_nil]
    rfl
  | case2 signed c cs n h ih =>
    have hl := (Start.read_map_toLower signed c cs).trans h
    rw [List.map_cons, outcome_of_gap hl, outcome_of_gap h, ← List.map_drop, ← List.map_take,
      ← List.map_cons, byteLength_map_toLower, ih]
  | case3 signed c cs kind n h text ih =>
    have hl := (Start.read_map_toLower signed c cs).trans h
    rw [List.map_cons, outcome_of_lexeme hl, outcome_of_lexeme h, ← List.map_drop, ← List.map_take,
      ← List.map_cons, byteLength_map_toLower, signMayFollow_map_toLower, ih, ← lower_ofList]
    cases (cut (signMayFollow kind text) (cs.drop n)).outcome (position + byteLength text) <;> rfl
  | case4 signed c cs reason h =>
    have hl := (Start.read_map_toLower signed c cs).trans h
    rw [List.map_cons, outcome_of_obstacle hl, outcome_of_obstacle h]
    rfl

namespace Statement

def lowered (statement : Statement) : Statement :=
  ⟨lower statement.text, statement.tokens.map Token.lowered⟩

theorem read_lower (text : String) : read (lower text) = (read text).map lowered := by
  rw [read_eq_outcome, read_eq_outcome, toList_lower, Cut.outcome_map_toLower]
  cases (cut true text.toList).outcome 0 <;> rfl

/-- Texts that are the same but for case have the same fault, or tokens that are the same but for
case. -/
theorem read_of_alike {text other : String} (h : alike text other = true) :
    (∃ fault, read text = .error fault ∧ read other = .error fault) ∨
      ∃ tokens others, read text = .ok ⟨text, tokens⟩ ∧ read other = .ok ⟨other, others⟩ ∧
        List.Forall₂ Token.Alike tokens others := by
  have hl : (read text).map lowered = (read other).map lowered := by
    rw [← read_lower, ← read_lower, alike_iff_lower.1 h]
  cases ht : read text with
  | error fault =>
    cases ho : read other with
    | error fault' =>
      rw [ht, ho] at hl
      cases hl
      exact .inl ⟨fault, rfl, rfl⟩
    | ok statement' =>
      rw [ht, ho] at hl
      cases hl
  | ok statement =>
    cases ho : read other with
    | error fault' =>
      rw [ht, ho] at hl
      cases hl
    | ok statement' =>
      rw [ht, ho] at hl
      have he := congrArg tokens (Except.ok.inj hl)
      obtain ⟨_, tokens⟩ := statement
      obtain ⟨_, others⟩ := statement'
      cases text_of_read ht
      cases text_of_read ho
      exact .inr ⟨tokens, others, rfl, rfl, Token.forall₂_alike_iff.2 he⟩

end Statement

end SqlDispatch
