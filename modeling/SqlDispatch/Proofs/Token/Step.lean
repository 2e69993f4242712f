import SqlDispatch.Proofs.Token.Reach
import SqlDispatch.Statement

set_option autoImplicit false

/-!
What starts at one place of a text. `Reading` lists the ten ways in which a place can be read, with
all that the reader has tested by then; they exclude each other and one of them always holds
(`read_eq_iff`), so whatever is said of the reader is said by going through them once. What is read
from a whole text follows from its places one by one (`Cut.outcome_of_gap` and its siblings).
-/

namespace SqlDispatch

open Text Grammar

namespace Grammar

def OpensComment (cs : List Char) : Prop := ['-', '-'] <+: cs ∨ ['/', '*'] <+: cs

inductive Opens : Enclosure → List Char → Prop where
  | stringLiteral {rest : List Char} : Opens .stringLiteral ('\x27' :: rest)
  | quotedIdentifier {rest : List Char} : Opens .quotedIdentifier ('\x22' :: rest)
  | blockComment {rest : List Char} : Opens .blockComment ('/' :: '*' :: rest)

end Grammar

namespace Start

inductive Reading (signed : Bool) (c : Char) (cs : List Char) : Start → Prop where
  | blank : isBlank c = true → Reading signed c cs (.gap 0)
  | line : c = '-' → cs.head? = some '-' → Reading signed c cs (.gap (Extent.lineComment cs))
  | block {rest : List Char} {n : Nat} :
      c = '/' → cs = '*' :: rest → Extent.blockComment 0 rest = some n →
      Reading signed c cs (.gap (n + 1))
  | quoted {kind : TokenKind} {q : Quote} {n : Nat} :
      kind.quote = some q → c = q.mark → Extent.quoted q.mark cs = some n →
      Reading signed c cs (.lexeme kind n)
  | word : Extent.isWordStart c = true →
      Reading signed c cs (.lexeme (word (c :: cs.take (Extent.run Extent.isWordPart cs)))
        (Extent.run Extent.isWordPart cs))
  | number : c.isDigit = true ∨ c = '.' ∧ Extent.startsNumber cs = true →
      Reading signed c cs (.lexeme .number (Extent.number (c :: cs) - 1))
  | signedNumber : c = '+' ∨ c = '-' → signed = true → Extent.startsNumber cs = true →
      Reading signed c cs (.lexeme .number (Extent.number cs))
  | symbol : c ∈ Extent.symbols → ¬ OpensComment (c :: cs) →
      ¬ (c = '.' ∧ Extent.startsNumber cs = true) →
      ¬ ((c = '+' ∨ c = '-') ∧ signed = true ∧ Extent.startsNumber cs = true) →
      Reading signed c cs (.lexeme .punctuation (Extent.pair c cs))
  | unclosedQuote {enclosure : Enclosure} {q : Quote} :
      c = q.mark → Opens enclosure (q.mark :: cs) → Extent.quoted q.mark cs = none →
      Reading signed c cs (.obstacle (.unclosed enclosure))
  | unclosedComment {rest : List Char} :
      c = '/' → cs = '*' :: rest → Extent.blockComment 0 rest = none →
      Reading signed c cs (.obstacle (.unclosed .blockComment))
  | stray : isBlank c = false → (∀ q : Quote, c ≠ q.mark) → Extent.isWordStart c = false →
      c.isDigit = false → c ∉ Extent.symbols → Reading signed c cs (.obstacle (.stray c))

theorem isAlpha_iff_toNat {c : Char} :
    c.isAlpha = true ↔ 65 ≤ c.toNat ∧ c.toNat ≤ 90 ∨ 97 ≤ c.toNat ∧ c.toNat ≤ 122 := by
  change (decide (c.val ≥ 65 ∧ c.val ≤ 90) ||
    (decide (c.val ≥ 97) && decide (c.val ≤ 122))) = true ↔ _
  simp only [Bool.or_eq_true, Bool.and_eq_true, decide_eq_true_eq, ge_iff_le,
    UInt32.le_iff_toNat_le]
  rfl

/-- Blanks are below the first visible character, or above the last one of ASCII. -/
theorem toNat_of_isBlank {c : Char} (h : isBlank c = true) : c.toNat ≤ 32 ∨ 133 ≤ c.toNat := by
  obtain ⟨r, hr, hl, hu⟩ := (isBlank_iff c).1 h
  have hb : ∀ r ∈ blankRanges, r.2 ≤ 32 ∨ 133 ≤ r.1 := by decide
  have hr := hb r hr
  omega

theorem isBlank_of_isWordStart {c : Char} (h : Extent.isWordStart c = true) :
    isBlank c = false := by
  cases hb : isBlank c with
  | false => rfl
  | true =>
    have hn := toNat_of_isBlank hb
    have hu : '_'.toNat = 95 := rfl
    simp only [Extent.isWordStart, hb, Bool.not_true, Bool.and_false, Bool.or_false,
      Bool.or_eq_true, beq_iff_eq, isAlpha_iff_toNat] at h
    rcases h with h | rfl <;> omega

theorem isBlank_of_isDigit {c : Char} (h : c.isDigit = true) : isBlank c = false := by
  cases hb : isBlank c with
  | false => rfl
  | true =>
    have hn := toNat_of_isBlank hb
    have hd := Char.isDigit_iff_toNat.1 h
    simp only [Char.reduceToNat] at hd
    omega

theorem isWordStart_of_isDigit {c : Char} (h : c.isDigit = true) :
    Extent.isWordStart c = false := by
  have hd := Char.isDigit_iff_toNat.1 h
  simp only [Char.reduceToNat] at hd
  have ha : c.isAlpha = false := by
    rw [Bool.eq_false_iff, Ne, isAlpha_iff_toNat]
    omega
  have hu : c ≠ '_' := by
    intro e
    rw [e] at h
    exact absurd h (by decide)
  have hc : ¬ 0x80 ≤ c.toNat := by omega
  simp [Extent.isWordStart, ha, hu, hc]

theorem of_mem_symbols {c : Char} (h : c ∈ Extent.symbols) :
    isBlank c = false ∧ Extent.isWordStart c = false ∧ c.isDigit = false ∧
      c ≠ Quote.single.mark ∧ c ≠ Quote.double.mark := by
  have hall : (Extent.symbols.all fun c => !isBlank c && !Extent.isWordStart c && !c.isDigit &&
      c != Quote.single.mark && c != Quote.double.mark) = true := by decide +kernel
  simpa [and_assoc] using List.all_eq_true.1 hall c h

theorem opensComment_cons {c : Char} {cs : List Char} :
    OpensComment (c :: cs) ↔
      c = '-' ∧ cs.head? = some '-' ∨ c = '/' ∧ cs.head? = some '*' := by
  cases cs <;> simp [OpensComment, List.cons_prefix_cons, eq_comm]

theorem reading_read (signed : Bool) (c : Char) (cs : List Char) :
    Reading signed c cs (read signed c cs) := by
  unfold read
  split
  · rename_i hb
    exact .blank hb
  rename_i hb
  split
  · rename_i hl
    exact .line hl.1 hl.2
  rename_i hl
  split
  · rename_i hc
    obtain ⟨rest, rfl⟩ := List.head?_eq_some_iff.1 hc.2
    rw [List.drop_succ_cons, List.drop_zero]
    cases he : Extent.blockComment 0 rest with
    | none => exact .unclosedComment hc.1 rfl he
    | some n => exact .block hc.1 rfl he
  rename_i hc
  have ho : ¬ OpensComment (c :: cs) := by
    rw [opensComment_cons]
    exact not_or.2 ⟨hl, hc⟩
  split
  · rename_i hq
    cases he : Extent.quoted Quote.single.mark cs with
    | none => exact .unclosedQuote hq .stringLiteral he
    | some n => exact .quoted rfl hq he
  rename_i hs
  split
  · rename_i hq
    cases he : Extent.quoted Quote.double.mark cs with
    | none => exact .unclosedQuote hq .quotedIdentifier he
    | some n => exact .quoted rfl hq he
  rename_i hd
  split
  · rename_i hw
    exact .word hw
  rename_i hw
  split
  · rename_i hn
    exact .number hn
  rename_i hn
  split
  · rename_i hg
    exact .signedNumber hg.1 hg.2.1 hg.2.2
  rename_i hg
  split
  · rename_i hm
    exact .symbol hm ho (fun h => hn (.inr h)) hg
  · rename_i hm
    refine .stray (Bool.eq_false_iff.2 hb) (fun q => ?_) (Bool.eq_false_iff.2 hw)
      (Bool.eq_false_iff.2 fun h => hn (.inl h)) hm
    cases q with
    | single => exact hs
    | double => exact hd

theorem head_ne_hyphen_of_startsNumber {cs : List Char} (h : Extent.startsNumber cs = true) :
    cs.head? ≠ some '-' := by
  intro hh
  obtain ⟨rest, rfl⟩ := List.head?_eq_some_iff.1 hh
  exact absurd h (by simp [Extent.startsNumber, Extent.startsWithDigit])

theorem read_of_reading {signed : Bool} {c : Char} {cs : List Char} {start : Start}
    (h : Reading signed c cs start) : read signed c cs = start := by
  have hne {p : Char → Bool} {d : Char} (hc : p c = true) (hd : p d = false) : c ≠ d :=
    fun e => by simp [e, hd] at hc
  cases h with
  | blank h => simp [read, h]
  | line hc hl =>
    have hb : isBlank '-' = false := by decide
    simp [read, hc, hl, hb]
  | block hc he h =>
    have hb : isBlank '/' = false := by decide
    simp [read, hc, he, hb, h, closed]
  | @quoted kind q n hk hc h =>
    have hb : isBlank '\x27' = false ∧ isBlank '\x22' = false := by decide
    cases kind <;> cases q <;> simp only [TokenKind.quote, Option.some.injEq, reduceCtorEq] at hk
    · simp only [Quote.mark] at h
      simp [read, hc, Quote.mark, hb, h, closed]
    · simp only [Quote.mark] at h
      simp [read, hc, Quote.mark, hb, h, closed]
  | word h =>
    have h₁ : c ≠ '-' := hne h (by decide)
    have h₂ : c ≠ '/' := hne h (by decide)
    have h₃ (q : Quote) : c ≠ q.mark := hne h (by cases q <;> decide)
    simp [read, isBlank_of_isWordStart h, h₁, h₂, h₃, h]
  | number h =>
    have hc : isBlank c = false ∧ Extent.isWordStart c = false ∧ c ≠ '-' ∧ c ≠ '/' ∧
        ∀ q : Quote, c ≠ q.mark := by
      rcases h with h | h
      · exact ⟨isBlank_of_isDigit h, isWordStart_of_isDigit h, hne h (by decide),
          hne h (by decide), fun q => hne h (by cases q <;> decide)⟩
      · rw [h.1]
        exact ⟨by decide, by decide, by decide, by decide, fun q => by cases q <;> decide⟩
    obtain ⟨hb, hw, h₁, h₂, h₃⟩ := hc
    simp only [read, hb, hw, h₁, h₂, h₃, h, Bool.false_eq_true, false_and, if_false, if_true]
  | signedNumber hc hs h =>
    have hh := head_ne_hyphen_of_startsNumber h
    have hf : isBlank c = false ∧ Extent.isWordStart c = false ∧ c ≠ '/' ∧ c ≠ '.' ∧
        c.isDigit = false ∧ ∀ q : Quote, c ≠ q.mark := by
      rcases hc with rfl | rfl <;>
        exact ⟨by decide, by decide, by decide, by decide, by decide,
          fun q => by cases q <;> decide⟩
    obtain ⟨hb, hw, h₁, h₂, h₃, h₄⟩ := hf
    simp only [read, hb, hw, hh, h₁, h₂, h₃, h₄, hc, hs, h, Bool.false_eq_true, false_and,
      and_false, or_self, and_self, if_false, if_true]
  | symbol hm ho hn hs =>
    obtain ⟨hb, hw, hd, h₁, h₂⟩ := of_mem_symbols hm
    rw [opensComment_cons] at ho
    simp only [read, hb, hw, hd, h₁, h₂, not_or.1 ho, hn, hs, hm, Bool.false_eq_true, or_self,
      if_false, if_true]
  | @unclosedQuote enclosure q hc ho h =>
    have hb : isBlank '\x27' = false ∧ isBlank '\x22' = false := by decide
    cases q with
    | single =>
      cases ho
      simp only [Quote.mark] at h
      simp [read, hc, Quote.mark, hb, h, closed]
    | double =>
      cases ho
      simp only [Quote.mark] at h
      simp [read, hc, Quote.mark, hb, h, closed]
  | unclosedComment hc he h =>
    have hb : isBlank '/' = false := by decide
    simp [read, hc, he, hb, h, closed]
  | stray hb hq hw hd hm =>
    have hs {d : Char} (hd : d ∈ Extent.symbols) : c ≠ d := fun e => hm (e ▸ hd)
    have h₁ : c ≠ '-' := hs (by decide)
    have h₂ : c ≠ '/' := hs (by decide)
    have h₃ : c ≠ '.' := hs (by decide)
    have h₄ : c ≠ '+' := hs (by decide)
    simp [read, hb, hq, hw, hd, hm, h₁, h₂, h₃, h₄]

theorem read_eq_iff {signed : Bool} {c : Char} {cs : List Char} {start : Start} :
    read signed c cs = start ↔ Reading signed c cs start := by
  constructor
  · intro h
    rw [← h]
    exact reading_read signed c cs
  · exact read_of_reading

end Start

def Cut.outcome (position : Nat) (parts : Cut) : Except Fault (List Token) :=
  match parts.obstacle with
  | some obstacle => .error (obstacle.fault (position + byteLength (texts parts.pieces)))
  | none =>
    .ok (place position parts.pieces ++ [.finish (position + byteLength (texts parts.pieces))])

namespace Cut

variable {signed : Bool} {c : Char} {cs : List Char} {n : Nat}

theorem outcome_nil (signed : Bool) (position : Nat) :
    (cut signed []).outcome position = .ok [.finish position] := by
  rw [cut]
  rfl

theorem outcome_of_gap (h : Start.read signed c cs = .gap n) (position : Nat) :
    (cut signed (c :: cs)).outcome position =
      (cut signed (cs.drop n)).outcome (position + byteLength (c :: cs.take n)) := by
  rw [cut, h]
  dsimp only [outcome, cons]
  generalize c :: cs.take n = text
  simp [place, texts, Piece.text, byteLength_append, Nat.add_assoc]

theorem outcome_of_lexeme {kind : TokenKind} (h : Start.read signed c cs = .lexeme kind n)
    (position : Nat) :
    (cut signed (c :: cs)).outcome position =
      ((cut (signMayFollow kind (c :: cs.take n)) (cs.drop n)).outcome
        (position + byteLength (c :: cs.take n))).map
          (⟨.ofList (c :: cs.take n), kind, position⟩ :: ·) := by
  rw [cut, h]
  dsimp only [outcome, cons]
  generalize c :: cs.take n = text
  cases (cut (signMayFollow kind text) (cs.drop n)).obstacle <;>
    simp [place, texts, Piece.text, byteLength_append, Nat.add_assoc, Except.map]

theorem outcome_of_obstacle {reason : Obstacle} (h : Start.read signed c cs = .obstacle reason)
    (position : Nat) :
    (cut signed (c :: cs)).outcome position = .error (reason.fault position) := by
  rw [cut, h]
  rfl

theorem exists_read_of_mem {position : Nat} {tokens : List Token}
    (h : (cut signed cs).outcome position = .ok tokens) {token : Token} (hm : token ∈ tokens)
    (hf : token.isFinish = false) :
    ∃ signed c cs n, Start.read signed c cs = .lexeme token.kind n ∧
      token.lexeme = .ofList (c :: cs.take n) := by
  induction signed, cs using cut.induct generalizing position tokens with
  | case1 signed =>
    rw [outcome_nil] at h
    cases h
    rw [List.mem_singleton.1 hm] at hf
    cases hf
  | case2 signed c cs n hr ih =>
    rw [outcome_of_gap hr] at h
    exact ih h hm
  | case3 signed c cs kind n hr text =>
    rename_i ih
    rw [outcome_of_lexeme hr] at h
    cases ht : (cut (signMayFollow kind text) (cs.drop n)).outcome
        (position + byteLength text) with
    | error fault =>
      rw [ht] at h
      cases h
    | ok tail =>
      rw [ht] at h
      obtain rfl := Except.ok.inj h
      rcases List.mem_cons.1 hm with rfl | hm
      · exact ⟨signed, c, cs, n, hr, rfl⟩
      · exact ih ht hm
  | case4 signed c cs reason hr =>
    rw [outcome_of_obstacle hr] at h
    cases h

end Cut

theorem byteLength_eq (cs : List Char) : byteLength cs = (String.ofList cs).utf8ByteSize := by
  induction cs with
  | nil => rfl
  | cons c cs ih =>
    rw [String.ofList_cons, String.utf8ByteSize_append, String.utf8ByteSize_singleton, ← ih]
    rfl

theorem byteLength_toList (text : String) : byteLength text.toList = text.utf8ByteSize := by
  rw [byteLength_eq, String.ofList_toList]

theorem byteLength_cons_pos (c : Char) (cs : List Char) : 0 < byteLength (c :: cs) := by
  have hc := Char.utf8Size_pos c
  simp only [byteLength, List.foldr_cons]
  omega

theorem Statement.read_eq_outcome (text : String) :
    read text = ((cut true text.toList).outcome 0).map (⟨text, ·⟩) := by
  obtain ⟨rest, hr, hn⟩ := texts_cut true text.toList
  unfold read Cut.outcome
  dsimp only
  cases ho : (cut true text.toList).obstacle with
  | some obstacle => simp [Except.map]
  | none =>
    rw [hn.2 ho, List.append_nil] at hr
    simp [Except.map, hr, byteLength_eq]

end SqlDispatch
