import Mathlib.Data.List.Forall2
import SqlDispatch.Command.Text
import SqlDispatch.Proofs.Token.Lookahead
import SqlDispatch.Proofs.Token.Partition
import SqlDispatch.Proofs.Token.Reference

set_option autoImplicit false

/-!
The layout of a text: the gaps before, between and behind its tokens. `Respaced` relates a text to
the same text with other gaps; the tokens of the one are those of the other in other places
(`exists_outcome_of_respaced`), except that a point that is read as a number because a number stands
right behind it is a mark of punctuation once a gap parts the two.
-/

namespace SqlDispatch

open Text

namespace Grammar

/-- The gap is left alone, or a gap that begins with a blank takes its place before `rest`. -/
def Replaces (rest gap other : List Char) : Prop :=
  other = gap ∨ (∃ b more, isBlank b = true ∧ other = b :: more) ∧ IsGapBefore rest other

/-- The last text is the first one, which has these tokens from `position` on, with other gaps. -/
inductive Respaced : Nat → List Char → List Token → List Char → Prop where
  | finish {position : Nat} {gap other : List Char} :
      IsGapBefore [] gap → Replaces [] gap other →
      Respaced position gap [.finish (position + byteLength gap)] other
  | token {position : Nat} {gap other text rest rest' : List Char} {kind : TokenKind}
      {tokens : List Token} :
      IsGapBefore (text ++ rest) gap → text ≠ [] → Replaces (text ++ rest') gap other →
      Respaced (position + byteLength (gap ++ text)) rest tokens rest' →
      Respaced position (gap ++ (text ++ rest))
        (⟨.ofList text, kind, position + byteLength gap⟩ :: tokens) (other ++ (text ++ rest'))

theorem respaced_self {position : Nat} {cs : List Char} {tokens : List Token}
    (h : Tiles position cs tokens) : Respaced position cs tokens cs := by
  induction h with
  | finish hg => exact .finish hg (.inl rfl)
  | token hg ht _ _ ih => exact .token hg ht (.inl rfl) ih

theorem isGapBefore_of_head_eq {gap cs ds : List Char} (h : IsGapBefore cs gap)
    (hh : cs.head? = ds.head?) : IsGapBefore ds gap := by
  induction h with
  | nil => exact .nil
  | @cons piece gap hp _ ih =>
    refine .cons (isGapPiece_of_head_eq hp ?_) ih
    cases gap with
    | nil => exact hh
    | cons c gap => rfl

theorem Replaces.isGapBefore {text rest rest' gap other : List Char} (ht : text ≠ [])
    (hg : IsGapBefore (text ++ rest) gap) (h : Replaces (text ++ rest') gap other) :
    IsGapBefore (text ++ rest') other := by
  rcases h with rfl | ⟨_, h⟩
  · refine isGapBefore_of_head_eq hg ?_
    obtain ⟨c, text, rfl⟩ := List.exists_cons_of_ne_nil ht
    rfl
  · exact h

theorem agrees_of_respaced {position : Nat} {cs ds : List Char} {tokens : List Token}
    (h : Respaced position cs tokens ds) : Agrees cs ds := by
  induction h with
  | finish _ hr =>
    rcases hr with rfl | ⟨⟨b, more, hb, rfl⟩, _⟩
    · exact .refl _
    · exact .blank _ hb
  | token _ _ hr _ ih =>
    rcases hr with rfl | ⟨⟨b, more, hb, rfl⟩, _⟩
    · exact (ih.append _).append _
    · exact .blank _ hb

end Grammar

open Grammar

namespace Cut

variable {signed : Bool} {position : Nat}

theorem outcome_of_isGapBefore {gap rest : List Char} (h : IsGapBefore rest gap) (position : Nat) :
    (cut signed (gap ++ rest)).outcome position =
      (cut signed rest).outcome (position + byteLength gap) := by
  induction h generalizing position with
  | nil => rfl
  | @cons piece gap hp _ ih =>
    cases piece with
    | nil => exact absurd hp not_isGapPiece_nil
    | cons c piece =>
      have hr := (Start.read_eq_gap_iff signed).2 hp
      rw [List.append_assoc, List.cons_append, outcome_of_gap hr, List.take_left, List.drop_left,
        ih, byteLength_append, Nat.add_assoc]

theorem exists_read_of_outcome {text rest : List Char} {kind : TokenKind} {tokens : List Token}
    (ht : text ≠ [])
    (h : (cut signed (text ++ rest)).outcome position =
      .ok (⟨.ofList text, kind, position⟩ :: tokens)) :
    ∃ c more, text = c :: more ∧
      Start.read signed c (more ++ rest) = .lexeme kind more.length ∧
      (cut (signMayFollow kind text) rest).outcome (position + byteLength text) = .ok tokens := by
  obtain ⟨c, more, rfl⟩ := List.exists_cons_of_ne_nil ht
  refine ⟨c, more, rfl, ?_⟩
  rw [List.cons_append] at h
  cases hr : Start.read signed c (more ++ rest) with
  | obstacle reason =>
    rw [outcome_of_obstacle hr] at h
    cases h
  | gap n =>
    rw [outcome_of_gap hr] at h
    have hl := le_position_of_tiles (tiles_of_outcome h) _ List.mem_cons_self
    have hp := byteLength_cons_pos c ((more ++ rest).take n)
    simp only at hl
    omega
  | lexeme other n =>
    rw [outcome_of_lexeme hr] at h
    obtain ⟨tail, ho, he⟩ := Argument.exists_of_map_eq_ok h
    simp only [List.cons.injEq, Token.mk.injEq, String.ofList_inj, true_and, and_true] at he
    obtain ⟨⟨ht, rfl⟩, rfl⟩ := he
    have hn : n = more.length := by
      have hl := congrArg List.length ht
      rwa [List.length_take, Nat.min_eq_left (Start.le_length_of_read hr)] at hl
    subst hn
    rw [List.take_left, List.drop_left] at ho
    exact ⟨rfl, ho⟩

end Cut

def Token.isLonePoint (token : Token) : Bool := token.kind == .number && token.lexeme == "."

theorem Token.isLonePoint_iff {token : Token} :
    token.isLonePoint = true ↔ token.kind = .number ∧ token.lexeme = "." := by
  simp [isLonePoint]

/-- The same tokens in other places. A lone point that the next token does not touch any more is a
mark of punctuation. -/
inductive Relaid : List Token → List Token → Prop where
  | nil : Relaid [] []
  | cons {token other : Token} {rest others : List Token} :
      other.lexeme = token.lexeme →
      other.kind = (if token.isLonePoint ∧ others.head?.map Token.position ≠ some other.stop then
        .punctuation else token.kind) →
      Relaid rest others → Relaid (token :: rest) (other :: others)

def PartsPoint (tokens others : List Token) : Prop :=
  ∃ (i : Nat) (token other : Token), tokens[i]? = some token ∧ others[i]? = some other ∧
    token.isLonePoint = true ∧ (others[i + 1]?).map Token.position ≠ some other.stop

theorem partsPoint_cons {token other : Token} {rest others : List Token} :
    PartsPoint (token :: rest) (other :: others) ↔
      token.isLonePoint = true ∧ others.head?.map Token.position ≠ some other.stop ∨
        PartsPoint rest others := by
  constructor
  · intro h
    obtain ⟨i, first, second, hf, hs, hp, hn⟩ := h
    cases i with
    | zero =>
      simp only [List.getElem?_cons_zero, Option.some.injEq] at hf hs
      subst hf hs
      rw [List.getElem?_cons_succ, ← List.head?_eq_getElem?] at hn
      exact .inl ⟨hp, hn⟩
    | succ i => exact .inr ⟨i, first, second, by simpa using hf, by simpa using hs, hp, hn⟩
  · intro h
    rcases h with ⟨hp, hn⟩ | ⟨i, first, second, hf, hs, hp, hn⟩
    · refine ⟨0, token, other, rfl, rfl, hp, ?_⟩
      rwa [List.getElem?_cons_succ, ← List.head?_eq_getElem?]
    · exact ⟨i + 1, first, second, by simpa using hf, by simpa using hs, hp, hn⟩

namespace Relaid

variable {tokens others : List Token}

theorem lexemes_eq (h : Relaid tokens others) :
    others.map Token.lexeme = tokens.map Token.lexeme := by
  induction h with
  | nil => rfl
  | cons hl _ _ ih => rw [List.map_cons, List.map_cons, hl, ih]

theorem kinds_eq_iff (h : Relaid tokens others) :
    others.map Token.kind = tokens.map Token.kind ↔ ¬ PartsPoint tokens others := by
  induction h with
  | nil => simp [PartsPoint]
  | @cons token other rest others _ hk _ ih =>
    rw [List.map_cons, List.map_cons, List.cons.injEq, partsPoint_cons, not_or, ih]
    refine and_congr_left fun _ => ?_
    rw [hk]
    split
    · rename_i hp
      simp [hp, (Token.isLonePoint_iff.1 hp.1).1]
    · rename_i hp
      simpa using hp

end Relaid

def Token.Resembles (token other : Token) : Prop :=
  other.lexeme = token.lexeme ∧
    (other.kind = token.kind ∨ token.isLonePoint = true ∧ other.kind = .punctuation)

theorem Relaid.forall₂ {tokens others : List Token} (h : Relaid tokens others) :
    List.Forall₂ Token.Resembles tokens others := by
  induction h with
  | nil => exact .nil
  | cons hl hk _ ih =>
    refine .cons ⟨hl, ?_⟩ ih
    split at hk
    · rename_i hp
      exact .inr ⟨hp.1, hk⟩
    · exact .inl hk

theorem Extent.two_le_number {d : Char} (hd : d.isDigit = true) (rest : List Char) :
    2 ≤ Extent.number ('.' :: d :: rest) := by
  have hn : IsNumber ['.', d] := by
    refine ⟨['.', d], [], rfl, .inr ⟨[], [d], rfl, ?_, ?_, .inr (by simp)⟩, .inl rfl⟩
    · simp [AreDigits]
    · simpa [AreDigits] using hd
  exact Extent.length_le_number hn rest

namespace Start

variable {signed : Bool}

theorem read_point_ne_gap (signed : Bool) (cs : List Char) (n : Nat) :
    read signed '.' cs ≠ .gap n := by
  intro h
  cases read_eq_iff.1 h with
  | blank hb => exact absurd hb (by decide)
  | line hc => exact absurd hc (by decide)
  | block hc => exact absurd hc (by decide)

theorem pointBeforeNumber_of_read {cs : List Char} (h : read signed '.' cs = .lexeme .number 0) :
    PointBeforeNumber ('.' :: cs) := by
  obtain ⟨n, hn⟩ : ∃ n, n = 0 := ⟨0, rfl⟩
  rw [← hn] at h
  generalize hk : TokenKind.number = kind at h
  cases read_eq_iff.1 h with
  | quoted hq =>
    subst hk
    cases hq
  | word hw => exact absurd hw (by decide)
  | number hs =>
    rcases hs with hd | ⟨_, hs⟩
    · exact absurd hd (by decide)
    · refine (startsNumber_iff_of_point.1 hs).resolve_left fun hd => ?_
      cases cs with
      | nil => cases hd
      | cons d cs =>
        have h2 := Extent.two_le_number hd cs
        omega
  | signedNumber hs => exact absurd hs (by decide)
  | symbol => cases hk

theorem read_point_of_agrees {rest other : List Char} (ha : Agrees rest other)
    (hp : PointBeforeNumber ('.' :: rest)) (hn : ¬ PointBeforeNumber ('.' :: other)) :
    read signed '.' other = .lexeme .punctuation 0 := by
  have hs : Extent.startsNumber other ≠ true := by
    intro hs
    have hd := (StopsAlso.of_agrees ha).startsWithDigit
      ((startsNumber_iff_of_point.1 hs).resolve_right hn)
    obtain ⟨d, more, he, _⟩ := hp
    obtain ⟨_, rfl⟩ := List.cons.inj he
    cases hd
  have hz : Extent.pair '.' other = 0 := by
    have hall : ∀ pair ∈ Extent.pairs, pair.1 ≠ '.' := by decide
    cases other with
    | nil => rfl
    | cons d other =>
      have hd : ('.', d) ∉ Extent.pairs := fun hm => hall _ hm rfl
      simp [Extent.pair, hd]
  have hr : Reading signed '.' other (.lexeme .punctuation (Extent.pair '.' other)) := by
    refine .symbol (by decide) ?_ (fun h => hs h.2) fun h => hs h.2.2
    simp [opensComment_cons]
  rw [hz] at hr
  exact read_of_reading hr

end Start

theorem Grammar.head_ne_point_of_isGapBefore {rest gap : List Char} (h : IsGapBefore rest gap) :
    gap.head? ≠ some '.' := by
  intro hh
  cases h with
  | nil => cases hh
  | @cons piece gap hp =>
    cases piece with
    | nil => exact absurd hp not_isGapPiece_nil
    | cons c piece =>
      obtain rfl : c = '.' := Option.some.inj hh
      exact Start.read_point_ne_gap true _ _ ((Start.read_eq_gap_iff true).2 hp)

namespace Cut

variable {signed : Bool} {position : Nat}

theorem position_lt_of_blank {b : Char} {cs : List Char} {tokens : List Token}
    (hb : isBlank b = true) (h : (cut signed (b :: cs)).outcome position = .ok tokens) :
    ∀ token ∈ tokens, position < token.position := by
  rw [outcome_of_gap (Start.read_of_reading (.blank hb))] at h
  intro token hm
  have hl := le_position_of_tiles (tiles_of_outcome h) token hm
  have hp := byteLength_cons_pos b (cs.take 0)
  omega

theorem head_position_of_point {cs : List Char} {tokens : List Token}
    (h : (cut signed ('.' :: cs)).outcome position = .ok tokens) :
    tokens.head?.map Token.position = some position := by
  cases hr : Start.read signed '.' cs with
  | gap n => exact absurd hr (Start.read_point_ne_gap signed cs n)
  | obstacle reason =>
    rw [outcome_of_obstacle hr] at h
    cases h
  | lexeme kind n =>
    rw [outcome_of_lexeme hr] at h
    obtain ⟨tail, _, rfl⟩ := Argument.exists_of_map_eq_ok h
    rfl

/-- The token behind a lone point still touches it in the new layout just if the point is still one
before a number there. -/
theorem head_position_iff_of_respaced {start : Nat} {sign : Bool} {cs ds : List Char}
    {tokens others : List Token} (hp : PointBeforeNumber ('.' :: cs))
    (h : Respaced position cs tokens ds) (ht : (cut signed cs).outcome position = .ok tokens)
    (ho : (cut sign ds).outcome start = .ok others) :
    others.head?.map Token.position = some start ↔ PointBeforeNumber ('.' :: ds) := by
  obtain ⟨d, tail, he, hd⟩ := hp
  cases h with
  | finish hg =>
    rw [(List.cons.inj he).2] at hg
    exact absurd rfl (head_ne_point_of_isGapBefore hg)
  | @token _ gap other text rest rest' kind tokens hg hne hr =>
    -- the text goes on with a point, which begins no gap
    obtain rfl : gap = [] := by
      cases gap with
      | nil => rfl
      | cons c gap =>
        obtain ⟨rfl, _⟩ := List.cons.inj (List.cons.inj he).2
        exact absurd rfl (head_ne_point_of_isGapBefore hg)
    rcases hr with rfl | ⟨⟨b, more, hb, rfl⟩, _⟩
    · obtain ⟨c, more, rfl, hc, _⟩ := exists_read_of_outcome hne ht
      obtain ⟨rfl, hm⟩ : c = '.' ∧ more ++ rest = d :: tail := by simpa using he
      rw [hm] at hc
      cases more with
      | nil =>
        have hs : Extent.startsNumber (d :: tail) = true := Extent.startsNumber_iff.2 (.inl hd)
        rw [Start.read_of_reading (.number (.inr ⟨rfl, hs⟩))] at hc
        have h2 := Extent.two_le_number hd tail
        simp only [List.length_nil, Start.lexeme.injEq] at hc
        omega
      | cons e more =>
        obtain ⟨rfl, _⟩ := List.cons.inj hm
        refine iff_of_true (head_position_of_point ho) ⟨e, more ++ rest', rfl, hd⟩
    · refine iff_of_false (fun hh => ?_) fun hp => ?_
      · obtain ⟨first, hf, hq⟩ := Option.map_eq_some_iff.1 hh
        have hl := position_lt_of_blank hb ho first (List.mem_of_mem_head? hf)
        omega
      · obtain ⟨e, back, hq, _⟩ := hp
        obtain ⟨rfl, _⟩ := List.cons.inj (List.cons.inj hq).2
        exact absurd hb (by decide)

theorem outcome_cons_of_read {c : Char} (more : List Char) {rest : List Char} {kind : TokenKind}
    {tokens : List Token} (hr : Start.read signed c (more ++ rest) = .lexeme kind more.length)
    (ht : (cut (signMayFollow kind (c :: more)) rest).outcome (position + byteLength (c :: more)) =
      .ok tokens) :
    (cut signed (c :: (more ++ rest))).outcome position =
      .ok (⟨.ofList (c :: more), kind, position⟩ :: tokens) := by
  rw [outcome_of_lexeme hr, List.take_left, List.drop_left, ht]
  rfl

/-- With other gaps a text is still read, into the same tokens laid out anew. -/
theorem exists_outcome_of_respaced {cs ds : List Char} {tokens : List Token}
    (h : Respaced position cs tokens ds) {signed : Bool}
    (ht : (cut signed cs).outcome position = .ok tokens) (start : Nat) :
    ∃ others, (cut signed ds).outcome start = .ok others ∧ Relaid tokens others := by
  induction h generalizing signed start with
  | @finish position gap other hg hr =>
    have hg : IsGapBefore [] other := by
      rcases hr with rfl | ⟨_, h⟩
      · exact hg
      · exact h
    have ho : (cut signed (other ++ [])).outcome start = _ := outcome_of_isGapBefore hg start
    rw [List.append_nil, outcome_nil] at ho
    refine ⟨_, ho, .cons rfl ?_ .nil⟩
    rfl
  | @token position gap other text rest rest' kind tokens hg hne hr hrest ih =>
    rw [outcome_of_isGapBefore hg] at ht
    obtain ⟨c, more, rfl, hc, ht⟩ := exists_read_of_outcome hne ht
    have ha := agrees_of_respaced hrest
    rw [outcome_of_isGapBefore (hr.isGapBefore hne hg), List.cons_append]
    rw [Nat.add_assoc, ← byteLength_append] at ht
    by_cases hp : PointBeforeNumber (c :: (more ++ rest))
    -- what a lone point is read as depends on whether the number behind it still touches it
    · obtain ⟨d, tail, he, hd⟩ := id hp
      rw [Start.read_of_pointBeforeNumber hp] at hc
      simp only [Start.lexeme.injEq] at hc
      obtain ⟨rfl, hz⟩ := hc
      obtain rfl := List.length_eq_zero_iff.1 hz.symm
      obtain rfl := (List.cons.inj he).1
      -- the next lexeme begins with a point, so it does not matter whether a sign could stand there
      have hsign (s : Bool) : (cut s rest).outcome (position + byteLength (gap ++ ['.'])) =
          .ok tokens := by
        rw [List.nil_append] at he
        rw [(List.cons.inj he).2, cut_point s (signMayFollow .number ['.']), ← (List.cons.inj he).2]
        exact ht
      have hiff {s : Bool} {others : List Token}
          (ho : (cut s rest').outcome (start + byteLength other + byteLength ['.']) = .ok others) :=
        head_position_iff_of_respaced hp hrest ht ho
      by_cases hn : PointBeforeNumber ('.' :: rest')
      · obtain ⟨others, ho, hl⟩ := ih (hsign _) (start + byteLength other + byteLength ['.'])
        have hread := Start.read_of_pointBeforeNumber hn signed
        refine ⟨_, outcome_cons_of_read [] hread ho, .cons rfl ?_ hl⟩
        rw [if_neg]
        intro h
        rw [Token.stop_ofList] at h
        exact h.2 ((hiff ho).2 hn)
      · obtain ⟨others, ho, hl⟩ := ih (hsign _) (start + byteLength other + byteLength ['.'])
        have hread : Start.read signed '.' rest' = _ := Start.read_point_of_agrees ha hp hn
        refine ⟨_, outcome_cons_of_read [] hread ho, .cons rfl ?_ hl⟩
        rw [if_pos]
        refine ⟨rfl, fun h => ?_⟩
        rw [Token.stop_ofList] at h
        exact hn ((hiff ho).1 h)
    · have hread := Start.read_of_stopsAlso (.of_agrees ha) (fun h => absurd h hp) hc
      obtain ⟨others, ho, hl⟩ := ih ht (start + byteLength other + byteLength (c :: more))
      refine ⟨_, outcome_cons_of_read more hread ho, .cons rfl ?_ hl⟩
      rw [if_neg]
      intro h
      obtain ⟨rfl, hl⟩ := Token.isLonePoint_iff.1 h.1
      obtain ⟨rfl, rfl⟩ : c = '.' ∧ more = [] := by simpa [← String.toList_inj] using hl
      exact hp (Start.pointBeforeNumber_of_read hc)

end Cut

theorem Statement.exists_read_of_respaced {text other : String} {statement : Statement}
    (h : read text = .ok statement)
    (hr : Respaced 0 text.toList statement.tokens other.toList) :
    ∃ tokens, read other = .ok ⟨other, tokens⟩ ∧ Relaid statement.tokens tokens := by
  rw [read_eq_outcome] at h
  obtain ⟨tokens, ht, rfl⟩ := Argument.exists_of_map_eq_ok h
  obtain ⟨others, ho, hl⟩ := Cut.exists_outcome_of_respaced hr ht 0
  exact ⟨others, by rw [read_eq_outcome, ho]; rfl, hl⟩

end SqlDispatch
