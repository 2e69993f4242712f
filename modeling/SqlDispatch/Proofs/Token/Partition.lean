import SqlDispatch.Proofs.Token.Longest

set_option autoImplicit false

/-!
Tokens and gaps as the parts of a text. `Tiles` follows the tokens through a text, each behind a gap
and the last at the end of the text; whatever is read from a text tiles it (`tiles_of_outcome`).
That the tokens are slices of the text in order, with nothing but gaps between them, is read off the
tiling.
-/

namespace SqlDispatch

open Text

/-- The bytes of the text from `start` to `stop` are those of `slice`, and no character of the text
is cut in two. -/
structure IsSlice (text : String) (start stop : Nat) (slice : String) : Prop where
  start_valid : (⟨start⟩ : String.Pos.Raw).IsValid text
  stop_valid : (⟨stop⟩ : String.Pos.Raw).IsValid text
  bytes : text.toByteArray.extract start stop = slice.toByteArray

theorem isSlice_append (front slice back : String) :
    IsSlice (front ++ slice ++ back) front.utf8ByteSize
      (front.utf8ByteSize + slice.utf8ByteSize) slice := by
  refine ⟨?_, ?_, ?_⟩
  · exact String.Pos.Raw.isValid_iff_exists_append.2
      ⟨front, slice ++ back, String.append_assoc .., rfl⟩
  · refine String.Pos.Raw.isValid_iff_exists_append.2 ⟨front ++ slice, back, rfl, ?_⟩
    simp [String.Pos.Raw.ext_iff]
  · rw [String.append_assoc, String.toByteArray_append, String.toByteArray_append]
    have hf : (front.toByteArray ++ (slice.toByteArray ++ back.toByteArray)).extract
        (front.utf8ByteSize + 0) (front.utf8ByteSize + slice.utf8ByteSize) =
        (slice.toByteArray ++ back.toByteArray).extract 0 slice.utf8ByteSize :=
      ByteArray.extract_append_size_add
    have hs : (slice.toByteArray ++ back.toByteArray).extract 0 slice.utf8ByteSize =
        slice.toByteArray := ByteArray.extract_append_eq_left rfl
    exact hf.trans hs

theorem isSlice_of_toList {text : String} {before slice after : List Char}
    (h : text.toList = before ++ (slice ++ after)) :
    IsSlice text (byteLength before) (byteLength (before ++ slice)) (.ofList slice) := by
  have hs := isSlice_append (.ofList before) (.ofList slice) (.ofList after)
  rw [← String.ofList_append, ← String.ofList_append, List.append_assoc, ← h, String.ofList_toList,
    ← byteLength_eq, ← byteLength_eq, ← byteLength_append] at hs
  exact hs

def Token.stop (token : Token) : Nat := token.position + token.lexeme.utf8ByteSize

theorem Token.stop_ofList (text : List Char) (kind : TokenKind) (position : Nat) :
    Token.stop ⟨.ofList text, kind, position⟩ = position + byteLength text := by
  rw [stop, byteLength_eq]

def stopAfter (start : Nat) : List Token → Nat
  | [] => start
  | token :: rest => stopAfter token.stop rest

def interleave (text : String) (start : Nat) : List Token → ByteArray
  | [] => .empty
  | token :: rest =>
    text.toByteArray.extract start token.position ++ token.lexeme.toByteArray ++
      interleave text token.stop rest

namespace Grammar

/-- Blanks and comments one after the other, with the characters `rest` behind the last; a line
comment among them ends where its line does. -/
inductive IsGapBefore (rest : List Char) : List Char → Prop where
  | nil : IsGapBefore rest []
  | cons {piece gap : List Char} :
      IsGapPiece piece (gap ++ rest) → IsGapBefore rest gap → IsGapBefore rest (piece ++ gap)

/-- The tokens of a text, of which the first character is at `position`, each behind a gap. -/
inductive Tiles : Nat → List Char → List Token → Prop where
  | finish {position : Nat} {gap : List Char} :
      IsGapBefore [] gap → Tiles position gap [.finish (position + byteLength gap)]
  | token {position : Nat} {gap text rest : List Char} {kind : TokenKind} {tokens : List Token} :
      IsGapBefore (text ++ rest) gap → text ≠ [] → kind ≠ .finish →
      Tiles (position + byteLength (gap ++ text)) rest tokens →
      Tiles position (gap ++ (text ++ rest))
        (⟨.ofList text, kind, position + byteLength gap⟩ :: tokens)

theorem isGap_of_isGapBefore {rest gap : List Char} (h : IsGapBefore rest gap) : IsGap gap := by
  induction h with
  | nil => exact .nil
  | @cons piece gap hp _ ih =>
    cases hp with
    | blank hb => exact .blank hb ih
    | line hl hr =>
      refine .line hl ?_ ih
      cases gap with
      | nil => exact .inl rfl
      | cons c gap => exact .inr (hr.resolve_left (by simp))
    | block hb => exact .block hb ih

theorem tiles_append {position : Nat} {piece cs : List Char} {tokens : List Token}
    (hp : IsGapPiece piece cs) (h : Tiles (position + byteLength piece) cs tokens) :
    Tiles position (piece ++ cs) tokens := by
  cases h with
  | finish hg =>
    have hb : IsGapBefore [] (piece ++ cs) := .cons (by rwa [List.append_nil]) hg
    rw [Nat.add_assoc, ← byteLength_append]
    exact .finish hb
  | @token _ gap text rest kind tokens hg ht hk hr =>
    rw [Nat.add_assoc, ← byteLength_append, ← List.append_assoc] at hr
    rw [Nat.add_assoc, ← byteLength_append, ← List.append_assoc]
    exact .token (.cons hp hg) ht hk hr

theorem not_finish_of_read {signed : Bool} {c : Char} {cs : List Char} {kind : TokenKind} {n : Nat}
    (h : Start.read signed c cs = .lexeme kind n) : kind ≠ .finish := by
  cases Start.read_eq_iff.1 h with
  | quoted hq =>
    intro hk
    rw [hk] at hq
    cases hq
  | word => unfold Start.word; split <;> simp
  | number => simp
  | signedNumber => simp
  | symbol => simp

theorem tiles_of_outcome {signed : Bool} {cs : List Char} {position : Nat} {tokens : List Token}
    (h : (cut signed cs).outcome position = .ok tokens) : Tiles position cs tokens := by
  induction signed, cs using cut.induct generalizing position tokens with
  | case1 signed =>
    rw [Cut.outcome_nil] at h
    cases h
    exact .finish .nil
  | case2 signed c cs n hr ih =>
    rw [Cut.outcome_of_gap hr] at h
    have ht := tiles_append (Start.isGapPiece_of_read hr).2 (ih h)
    rw [List.cons_append, List.take_append_drop] at ht
    exact ht
  | case3 signed c cs kind n hr text =>
    rename_i ih
    rw [Cut.outcome_of_lexeme hr] at h
    cases ho : (cut (signMayFollow kind text) (cs.drop n)).outcome (position + byteLength text) with
    | error fault =>
      rw [ho] at h
      cases h
    | ok tail =>
      rw [ho] at h
      cases h
      have hc := List.cons_ne_nil c (cs.take n)
      have ht := Tiles.token .nil hc (not_finish_of_read hr) (ih ho)
      rw [List.nil_append, List.cons_append, List.take_append_drop] at ht
      exact ht
  | case4 signed c cs reason hr =>
    rw [Cut.outcome_of_obstacle hr] at h
    cases h

theorem exists_body_of_tiles {position : Nat} {cs : List Char} {tokens : List Token}
    (h : Tiles position cs tokens) :
    ∃ body, tokens = body ++ [.finish (position + byteLength cs)] ∧
      ∀ token ∈ body, token.kind ≠ .finish ∧ token.lexeme ≠ "" := by
  induction h with
  | finish => exact ⟨[], rfl, by simp⟩
  | @token position gap text rest kind tokens _ ht hk _ ih =>
    obtain ⟨body, rfl, hb⟩ := ih
    refine ⟨⟨.ofList text, kind, position + byteLength gap⟩ :: body, ?_, fun token hm => ?_⟩
    · simp [byteLength_append, Nat.add_assoc]
    · rcases List.mem_cons.1 hm with rfl | hm
      · exact ⟨hk, by simpa [← String.toList_inj] using ht⟩
      · exact hb token hm

theorem le_position_of_tiles {position : Nat} {cs : List Char} {tokens : List Token}
    (h : Tiles position cs tokens) : ∀ token ∈ tokens, position ≤ token.position := by
  induction h with
  | finish => simp [Token.finish]
  | token _ _ _ _ ih =>
    intro token hm
    rcases List.mem_cons.1 hm with rfl | hm
    · exact Nat.le_add_right ..
    · exact Nat.le_trans (Nat.le_add_right ..) (ih token hm)

theorem pairwise_of_tiles {position : Nat} {cs : List Char} {tokens : List Token}
    (h : Tiles position cs tokens) :
    tokens.Pairwise fun a b => a.position < b.position ∧ a.stop ≤ b.position := by
  induction h with
  | finish => simp
  | @token position gap text rest kind tokens _ ht _ hr ih =>
    refine List.pairwise_cons.2 ⟨fun b hb => ?_, ih⟩
    have hl := le_position_of_tiles hr b hb
    have hp : 0 < byteLength text := by
      obtain ⟨c, text, rfl⟩ := List.exists_cons_of_ne_nil ht
      exact byteLength_cons_pos c text
    rw [byteLength_append] at hl
    simp only [Token.stop_ofList]
    omega

theorem exists_split_of_tiles {position : Nat} {cs : List Char} {tokens : List Token}
    (h : Tiles position cs tokens) {front back : List Token} {token : Token}
    (ht : tokens = front ++ token :: back) :
    ∃ before gap after, cs = before ++ (gap ++ (token.lexeme.toList ++ after)) ∧
      position + byteLength before = stopAfter position front ∧
      position + byteLength (before ++ gap) = token.position ∧
      IsGapBefore (token.lexeme.toList ++ after) gap := by
  induction h generalizing front with
  | @finish position gap hg =>
    cases front with
    | nil =>
      cases ht
      exact ⟨[], gap, [], by simp [Token.finish], rfl, rfl, hg⟩
    | cons first front => simp at ht
  | @token position gap text rest kind tokens hg _ _ _ ih =>
    cases front with
    | nil =>
      obtain ⟨rfl, rfl⟩ := List.cons.inj ht
      exact ⟨[], gap, rest, by simp, rfl, rfl, by simpa using hg⟩
    | cons first front =>
      obtain ⟨rfl, rfl⟩ := List.cons.inj ht
      obtain ⟨before, gap', after, rfl, hb, hp, hg'⟩ := ih rfl
      rw [byteLength_append] at hb hp
      refine ⟨gap ++ (text ++ before), gap', after, by simp, ?_, ?_, hg'⟩
      · rw [stopAfter, Token.stop_ofList, Nat.add_assoc, hb.symm]
        simp only [byteLength_append]
        omega
      · rw [← hp]
        simp only [byteLength_append]
        omega

theorem interleave_of_tiles {position : Nat} {cs : List Char} {tokens : List Token}
    (h : Tiles position cs tokens) {before text : String} (hb : before.utf8ByteSize = position)
    (ht : text = before ++ .ofList cs) :
    interleave text position tokens = (String.ofList cs).toByteArray := by
  induction h generalizing before with
  | @finish position gap =>
    have hs := isSlice_append before (.ofList gap) ""
    rw [String.append_empty, ← ht, hb, ← byteLength_eq] at hs
    simp [interleave, Token.finish, hs.bytes]
  | @token position gap lexeme rest kind tokens _ _ _ _ ih =>
    have hs := isSlice_append before (.ofList gap) (.ofList (lexeme ++ rest))
    have hp : (before ++ .ofList (gap ++ lexeme)).utf8ByteSize =
        position + byteLength (gap ++ lexeme) := by
      rw [String.utf8ByteSize_append, hb, ← byteLength_eq]
    have hr := ih hp (by simp [ht, String.append_assoc])
    rw [String.append_assoc, ← String.ofList_append, ← ht, hb, ← byteLength_eq] at hs
    rw [byteLength_append, ← Nat.add_assoc] at hr
    rw [interleave, hs.bytes, Token.stop_ofList, hr]
    simp [ByteArray.append_assoc]

variable {text : String} {tokens : List Token}

theorem isSlice_of_tiles (h : Tiles 0 text.toList tokens) {token : Token} (hm : token ∈ tokens) :
    IsSlice text token.position token.stop token.lexeme := by
  obtain ⟨front, back, he⟩ := List.append_of_mem hm
  obtain ⟨before, gap, after, hc, _, hp, _⟩ := exists_split_of_tiles h he
  rw [← List.append_assoc] at hc
  have hs := isSlice_of_toList hc
  rw [byteLength_append _ token.lexeme.toList, byteLength_eq token.lexeme.toList,
    String.ofList_toList, ← Nat.zero_add (byteLength _), hp] at hs
  exact hs

theorem exists_gap_of_tiles (h : Tiles 0 text.toList tokens) {front back : List Token}
    {token : Token} (ht : tokens = front ++ token :: back) :
    ∃ gap after : String, IsSlice text (stopAfter 0 front) token.position gap ∧
      IsSlice text token.position text.utf8ByteSize after ∧
      IsGap gap.toList ∧ IsGapBefore after.toList gap.toList := by
  obtain ⟨before, gap, after, hc, hb, hp, hg⟩ := exists_split_of_tiles h ht
  rw [Nat.zero_add] at hb hp
  refine ⟨.ofList gap, .ofList (token.lexeme.toList ++ after), ?_, ?_, ?_, ?_⟩
  · have hs := isSlice_of_toList hc
    rw [hb, hp] at hs
    exact hs
  · have hn : text.toList = before ++ gap ++ (token.lexeme.toList ++ after ++ []) := by
      rw [List.append_nil, List.append_assoc, hc]
    have hs := isSlice_of_toList hn
    rw [hp, List.append_assoc, ← hc, byteLength_toList] at hs
    exact hs
  · simpa using isGap_of_isGapBefore hg
  · simpa using hg

end Grammar

open Grammar

namespace Statement

theorem tiles_of_read {text : String} {statement : Statement} (h : read text = .ok statement) :
    Tiles 0 text.toList statement.tokens := by
  rw [read_eq_outcome] at h
  cases ho : (cut true text.toList).outcome 0 with
  | error fault =>
    rw [ho] at h
    cases h
  | ok tokens =>
    rw [ho] at h
    cases h
    exact tiles_of_outcome ho

/-- The tokens of a statement and the gaps between them are the parts of its text. -/
theorem read_partitions_text {text : String} {statement : Statement}
    (h : read text = .ok statement) :
    statement.text = text ∧
      (∃ body, statement.tokens = body ++ [.finish text.utf8ByteSize] ∧
        ∀ token ∈ body, token.kind ≠ .finish ∧ token.lexeme ≠ "") ∧
      (∀ token ∈ statement.tokens, IsSlice text token.position token.stop token.lexeme) ∧
      statement.tokens.Pairwise (fun a b => a.position < b.position ∧ a.stop ≤ b.position) ∧
      (∀ front token back, statement.tokens = front ++ token :: back →
        ∃ gap after : String, IsSlice text (stopAfter 0 front) token.position gap ∧
          IsSlice text token.position text.utf8ByteSize after ∧
          IsGap gap.toList ∧ IsGapBefore after.toList gap.toList) ∧
      interleave text 0 statement.tokens = text.toByteArray := by
  have ht := tiles_of_read h
  refine ⟨text_of_read h, ?_, fun token hm => isSlice_of_tiles ht hm, pairwise_of_tiles ht,
    fun front token back he => exists_gap_of_tiles ht he, ?_⟩
  · have hb := exists_body_of_tiles ht
    rw [Nat.zero_add, byteLength_toList] at hb
    exact hb
  · have he : text = "" ++ .ofList text.toList := by simp
    have hi := interleave_of_tiles ht rfl he
    rw [String.ofList_toList] at hi
    exact hi

theorem interleave_line_comment :
    read "--\n1" = .ok ⟨"--\n1", [⟨"1", .number, 3⟩, .finish 4]⟩ ∧
      interleave "--\n1" 0 [⟨"1", .number, 3⟩, .finish 4] = "--\n1".toByteArray := by
  have h : read "--\n1" = .ok ⟨"--\n1", [⟨"1", .number, 3⟩, .finish 4]⟩ := by
    have hg : Start.read true '-' ['-', '\n', '1'] = .gap 1 := by decide +kernel
    have hb : Start.read true '\n' ['1'] = .gap 0 := by decide +kernel
    have hn : Start.read true '1' [] = .lexeme .number 0 := by decide +kernel
    rw [read_eq_outcome]
    change ((cut true ['-', '-', '\n', '1']).outcome 0).map _ = _
    rw [Cut.outcome_of_gap hg]
    change ((cut true ['\n', '1']).outcome 2).map _ = _
    rw [Cut.outcome_of_gap hb]
    change ((cut true ['1']).outcome 3).map _ = _
    rw [Cut.outcome_of_lexeme hn]
    change Except.map _ (((cut false []).outcome 4).map _) = _
    rw [Cut.outcome_nil]
    rfl
  obtain ⟨_, _, _, _, _, hi⟩ := read_partitions_text h
  exact ⟨h, hi⟩

end Statement

end SqlDispatch
