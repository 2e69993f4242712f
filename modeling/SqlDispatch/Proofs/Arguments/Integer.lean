import SqlDispatch.Arguments
import SqlDispatch.Proofs.Text.Numeral
import SqlDispatch.Proofs.Token.Longest

set_option autoImplicit false

/-!
Whole numbers among arguments. A number that stands in a statement denotes a value, unless it is
written with a point or an exponent (`exists_denotes_of_token`). It is taken for a whole number just
if it denotes one between the bounds, whatever the count of its digits, and the two ways in which it
can fail have faults of their own (`read_number_exact`). Words of 64 bits do for the reading
wherever the bounds are such words (`map_toInt_readWord`).
-/

namespace SqlDispatch

open Text Grammar

namespace Grammar

def HasPointOrExponent (cs : List Char) : Prop := '.' ∈ cs ∨ 'e' ∈ cs ∨ 'E' ∈ cs

instance (cs : List Char) : Decidable (HasPointOrExponent cs) :=
  inferInstanceAs (Decidable (_ ∨ _ ∨ _))

theorem areDigits_of_isNumber {cs : List Char} (h : IsNumber cs) (hp : ¬ HasPointOrExponent cs) :
    cs ≠ [] ∧ AreDigits cs := by
  obtain ⟨mantissa, exponent, rfl, hm, he⟩ := h
  rcases he with rfl | ⟨letter, sign, part, rfl, hl, _⟩
  · rw [List.append_nil] at hp ⊢
    rcases hm with hm | ⟨whole, part, rfl, _⟩
    · exact hm
    · exact absurd (.inl (by simp)) hp
  · refine absurd (.inr ?_) hp
    simp only [List.mem_cons, List.not_mem_nil, or_false] at hl
    rcases hl with rfl | rfl
    · exact .inl (by simp)
    · exact .inr (by simp)

theorem not_hasPointOrExponent_of_areDigits {cs : List Char} (h : AreDigits cs) :
    ¬ HasPointOrExponent cs := by
  rintro (hm | hm | hm) <;> exact absurd (h _ hm) (by decide)

end Grammar

theorem Text.Denotes.not_hasPointOrExponent {cs : List Char} {value : Int} (h : Denotes cs value) :
    ¬ HasPointOrExponent cs := by
  have hs {sign : Char} {cs : List Char} (hsign : sign ∉ ['.', 'e', 'E']) (hd : AreDigits cs) :
      ¬ HasPointOrExponent (sign :: cs) := by
    have hn := not_hasPointOrExponent_of_areDigits hd
    simp only [List.mem_cons, List.not_mem_nil, or_false, not_or] at hsign
    simp only [HasPointOrExponent, List.mem_cons, not_or] at hn ⊢
    exact ⟨⟨hsign.1 ∘ Eq.symm, hn.1⟩, ⟨hsign.2.1 ∘ Eq.symm, hn.2.1⟩,
      ⟨hsign.2.2 ∘ Eq.symm, hn.2.2⟩⟩
  cases h with
  | unsigned _ hd => exact not_hasPointOrExponent_of_areDigits hd
  | plus _ hd => exact hs (by decide) hd
  | minus _ hd => exact hs (by decide) hd

theorem Start.exists_denotes_of_read {signed : Bool} {c : Char} {cs : List Char} {n : Nat}
    (h : read signed c cs = .lexeme .number n) (hp : ¬ HasPointOrExponent (c :: cs.take n)) :
    ∃ value, Denotes (c :: cs.take n) value := by
  -- the point right before a number is read as a number too, but it is a point
  have hb : ¬ PointBeforeNumber (c :: cs) := by
    rintro ⟨_, _, hc, _⟩
    exact hp (.inl ((List.cons.inj hc).1 ▸ List.mem_cons_self))
  obtain ⟨_, hl⟩ := isLexeme_of_read h hb
  generalize hk : TokenKind.number = kind, c :: cs.take n = text at hl hp
  cases hl with
  | word => split at hk <;> cases hk
  | quoted hq => simp [← hk, TokenKind.quote] at hq
  | number hn =>
    obtain ⟨hne, hd⟩ := areDigits_of_isNumber hn hp
    exact ⟨_, .unsigned hne hd⟩
  | signedNumber _ hs hn =>
    have hp' := hp ∘ Or.imp (List.mem_cons_of_mem _)
      (Or.imp (List.mem_cons_of_mem _) (List.mem_cons_of_mem _))
    obtain ⟨hne, hd⟩ := areDigits_of_isNumber hn hp'
    simp only [List.mem_cons, List.not_mem_nil, or_false] at hs
    rcases hs with rfl | rfl
    · exact ⟨_, .plus hne hd⟩
    · exact ⟨_, .minus hne hd⟩
  | punctuation => cases hk

theorem Statement.exists_denotes_of_token {text : String} {statement : Statement} {token : Token}
    (hr : read text = .ok statement) (hm : token ∈ statement.tokens) (hk : token.kind = .number)
    (hp : ¬ HasPointOrExponent token.lexeme.toList) :
    ∃ value, Denotes token.lexeme.toList value := by
  rw [read_eq_outcome] at hr
  cases ho : (cut true text.toList).outcome 0 with
  | error fault =>
    rw [ho] at hr
    cases hr
  | ok tokens =>
    rw [ho] at hr
    obtain rfl := Except.ok.inj hr
    obtain ⟨_, c, cs, n, hread, hl⟩ :=
      Cut.exists_read_of_mem ho hm (by rw [Token.isFinish, hk]; rfl)
    rw [hk] at hread
    rw [hl, String.toList_ofList] at hp ⊢
    exact Start.exists_denotes_of_read hread hp

namespace Argument

variable {token : Token} {least greatest value : Int}

theorem isFractional_iff (lexeme : String) :
    isFractional lexeme = true ↔ HasPointOrExponent lexeme.toList := by
  simp only [isFractional, HasPointOrExponent, List.any_eq_true, Bool.or_eq_true, beq_iff_eq]
  constructor
  · rintro ⟨c, hc, (rfl | rfl) | rfl⟩
    · exact .inl hc
    · exact .inr (.inl hc)
    · exact .inr (.inr hc)
  · rintro (hc | hc | hc)
    · exact ⟨_, hc, .inl (.inl rfl)⟩
    · exact ⟨_, hc, .inl (.inr rfl)⟩
    · exact ⟨_, hc, .inr rfl⟩

theorem read_of_hasPointOrExponent (hk : token.kind = .number)
    (hp : HasPointOrExponent token.lexeme.toList) :
    read token (.integer least greatest) =
      .error (.argumentType token.position (ArgumentKind.integer least greatest).describe
        token.lexeme ("Unexpected token: '" ++ token.lexeme ++ "', integer expected.")) := by
  have hf : token.isFinish = false := by
    rw [Token.isFinish, hk]
    rfl
  rw [read, readInteger, if_pos (.inr ((isFractional_iff _).2 hp)), unexpected, hf]
  simp [Except.map, String.append_assoc]

theorem read_of_denotes (hk : token.kind = .number) (h : Denotes token.lexeme.toList value) :
    read token (.integer least greatest) =
      if least ≤ value ∧ value ≤ greatest then .ok (.integer value)
      else .error (outOfRange token least greatest) := by
  have hf : ¬ isFractional token.lexeme = true := by
    rw [isFractional_iff]
    exact h.not_hasPointOrExponent
  rw [read, readInteger, if_neg (by simp [hk, hf]), integer_eq_some_iff.2 h]
  dsimp only
  split <;> rfl

def readWord (token : Token) (least greatest : Int64) : Except Fault Int64 :=
  if token.kind ≠ .number ∨ isFractional token.lexeme then
    .error (unexpected token (.integer least.toInt greatest.toInt) "integer")
  else
    match word token.lexeme with
    | some value =>
      if least ≤ value ∧ value ≤ greatest then .ok value
      else .error (outOfRange token least.toInt greatest.toInt)
    | none => .error (outOfRange token least.toInt greatest.toInt)

/-- Between words the exact value is read: one that no word holds is out of range anyway. -/
theorem map_toInt_readWord (token : Token) (least greatest : Int64) :
    (readWord token least greatest).map Int64.toInt =
      readInteger token least.toInt greatest.toInt := by
  unfold readWord readInteger
  split
  · rfl
  rw [word_eq]
  cases hv : Text.integer token.lexeme with
  | none => rfl
  | some value =>
    rw [Option.bind_some]
    cases hw : wordOf value with
    | some w =>
      obtain rfl := wordOf_eq_some_iff.1 hw
      simp only [Int64.le_iff_toInt_le]
      split <;> rfl
    | none =>
      have hb : ¬ (least.toInt ≤ value ∧ value ≤ greatest.toInt) := by
        rintro ⟨hl, hg⟩
        have hmin := least.minValue_le_toInt
        have hmax := greatest.toInt_le
        rw [wordOf, if_pos ⟨by omega, by omega⟩] at hw
        cases hw
      simp only [if_neg hb]
      rfl

/-- A number of a statement is read as a whole number between two bounds just if it has neither
point nor exponent and the value that it denotes lies between them. Otherwise the fault names the
number and its place, and says whether it is not whole or out of range. To read it in words of 64
bits comes to the same. -/
theorem read_number_exact {text : String} {statement : Statement} {token : Token}
    (hr : Statement.read text = .ok statement) (hm : token ∈ statement.tokens)
    (hk : token.kind = .number) (least greatest : Int64) :
    let lexeme := token.lexeme.toList
    let kind : ArgumentKind := .integer least.toInt greatest.toInt
    let fault (message : String) : Fault :=
      .argumentType token.position kind.describe token.lexeme message
    (¬ HasPointOrExponent lexeme ↔ ∃ value, Denotes lexeme value) ∧
    (∀ argument, read token kind = .ok argument ↔ ∃ value, argument = .integer value ∧
      ¬ HasPointOrExponent lexeme ∧ Denotes lexeme value ∧
      least.toInt ≤ value ∧ value ≤ greatest.toInt) ∧
    (∀ error, read token kind = .error error ↔
      HasPointOrExponent lexeme ∧
        error = fault ("Unexpected token: '" ++ token.lexeme ++ "', integer expected.") ∨
      ∃ value, Denotes lexeme value ∧ ¬ (least.toInt ≤ value ∧ value ≤ greatest.toInt) ∧
        error = fault ("Value " ++ token.lexeme ++ " is out of range, expected value in [" ++
          decimal least.toInt ++ ", " ++ decimal greatest.toInt ++ "].")) ∧
    (readWord token least greatest).map (.integer ·.toInt) = read token kind := by
  intro lexeme kind fault
  have hnumeral : ¬ HasPointOrExponent lexeme ↔ ∃ value, Denotes lexeme value :=
    ⟨Statement.exists_denotes_of_token hr hm hk, fun ⟨_, hd⟩ => hd.not_hasPointOrExponent⟩
  have hword :
      (readWord token least greatest).map (Argument.integer ·.toInt) = read token kind := by
    change _ = (readInteger token least.toInt greatest.toInt).map Argument.integer
    rw [← map_toInt_readWord]
    cases readWord token least greatest <;> rfl
  by_cases hp : HasPointOrExponent lexeme
  · have hn : ∀ value, ¬ Denotes lexeme value := fun value hd => hd.not_hasPointOrExponent hp
    have he : read token kind = _ := read_of_hasPointOrExponent hk hp
    refine ⟨hnumeral, fun argument => ?_, fun error => ?_, hword⟩
    · simp [he, hp]
    · simp [he, hp, hn, fault, kind, eq_comm]
  · obtain ⟨value, hd⟩ := hnumeral.1 hp
    have hv (other : Int) : Denotes lexeme other ↔ other = value :=
      ⟨fun ho => ho.functional hd, fun ho => ho ▸ hd⟩
    have he : read token kind = _ := read_of_denotes hk hd
    by_cases hb : least.toInt ≤ value ∧ value ≤ greatest.toInt
    · rw [if_pos hb] at he
      refine ⟨hnumeral, fun argument => ?_, fun error => ?_, hword⟩
      · simp [he, hp, hv, hb, eq_comm]
      · simp [he, hp, hv, hb]
    · rw [if_neg hb] at he
      refine ⟨hnumeral, fun argument => ?_, fun error => ?_, hword⟩
      · simp only [he, hv, reduceCtorEq, false_iff]
        rintro ⟨_, _, _, rfl, hbounds⟩
        exact hb hbounds
      · constructor
        · intro h
          exact .inr ⟨value, hd, hb, (Except.error.inj (he.symm.trans h)).symm⟩
        · rintro (⟨hpoint, _⟩ | ⟨_, _, _, rfl⟩)
          · exact absurd hpoint hp
          · exact he

/-- The least number that a word holds is taken, and its sign belongs to it behind a keyword. -/
theorem read_number_exact_least :
    let statement : Statement := ⟨"SET -9223372036854775808",
      [⟨"SET", .keyword, 0⟩, ⟨"-9223372036854775808", .number, 4⟩, .finish 24]⟩
    let token : Token := ⟨"-9223372036854775808", .number, 4⟩
    Statement.read "SET -9223372036854775808" = .ok statement ∧ token ∈ statement.tokens ∧
      token.kind = .number ∧ Denotes token.lexeme.toList Int64.minValue.toInt ∧
      read token (.integer Int64.minValue.toInt Int64.maxValue.toInt) =
        .ok (.integer Int64.minValue.toInt) := by
  intro statement token
  have hr : Statement.read "SET -9223372036854775808" = .ok statement := by decide +kernel
  have hm : token ∈ statement.tokens := by simp [statement, token]
  have hd : Denotes token.lexeme.toList Int64.minValue.toInt :=
    word_eq_some_iff.1 (by decide +kernel)
  refine ⟨hr, hm, rfl, hd, ?_⟩
  exact ((read_number_exact hr hm rfl _ _).2.1 _).2
    ⟨_, rfl, hd.not_hasPointOrExponent, hd, le_rfl, Int64.minValue.toInt_le⟩

end Argument

end SqlDispatch
