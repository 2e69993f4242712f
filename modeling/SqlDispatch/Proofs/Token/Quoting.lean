import SqlDispatch.Command.Text
import SqlDispatch.Proofs.Classification
import SqlDispatch.Proofs.Token.Lookahead
import SqlDispatch.Proofs.Token.Partition

set_option autoImplicit false

/-!
Quoted texts inside statements. Whatever is quoted stays one token, which reads as what was quoted,
and the text around it is read as if nothing had been quoted there (`exists_outcome_of_hole`); so no
quoted text can change what becomes of a statement (`read_encode`).
-/

namespace SqlDispatch

open Text Grammar

namespace Token

def moved (bytes : Nat) (token : Token) : Token := { token with position := token.position + bytes }

theorem spells_of_quote {token : Token} {q : Quote} (h : token.kind.quote = some q)
    (word : String) : token.spells word = false := by
  have hw : token.isWord = false := by
    unfold isWord
    cases hk : token.kind <;> simp_all [TokenKind.quote, TokenKind.isWord]
  simp [spells, hw]

end Token

theorem place_add (position bytes : Nat) (pieces : List Piece) :
    place (position + bytes) pieces = (place position pieces).map (Token.moved bytes) := by
  induction pieces generalizing position with
  | nil => rfl
  | cons piece pieces ih =>
    cases piece with
    | gap text => rw [place, place, Nat.add_right_comm, ih]
    | lexeme kind text =>
      rw [place, place, Nat.add_right_comm, ih]
      rfl

theorem Cut.outcome_add {parts : Cut} {position : Nat} {tokens : List Token}
    (h : parts.outcome position = .ok tokens) (bytes : Nat) :
    parts.outcome (position + bytes) = .ok (tokens.map (Token.moved bytes)) := by
  unfold outcome at h ⊢
  cases ho : parts.obstacle with
  | some obstacle =>
    rw [ho] at h
    cases h
  | none =>
    rw [ho] at h
    cases h
    simp [place_add, Token.moved, Token.finish, Nat.add_right_comm]

theorem signMayFollow_of_quote {kind : TokenKind} {q : Quote} (h : kind.quote = some q)
    (text : List Char) : signMayFollow kind text = false := by
  cases kind <;> simp_all [TokenKind.quote, signMayFollow]

theorem toList_encode (q : Quote) (text : String) :
    (q.encode text).toList = q.mark :: (q.twice text.toList ++ [q.mark]) := by
  simp [Quote.encode]

theorem encode_inj {q : Quote} {a b : String} (h : q.encode a = q.encode b) : a = b := by
  have hd := congrArg q.decode h
  rw [Quote.decode_encode, Quote.decode_encode] at hd
  exact Option.some.inj hd

theorem byteLength_cons (c : Char) (cs : List Char) :
    byteLength (c :: cs) = c.utf8Size + byteLength cs := rfl

theorem utf8ByteSize_encode (q : Quote) (text : String) :
    (q.encode text).utf8ByteSize =
      (q.encode "").utf8ByteSize + byteLength (q.twice text.toList) := by
  simp only [Quote.encode, ← byteLength_eq, byteLength_append, byteLength_cons]
  simp only [String.toList_empty, Quote.twice, byteLength, List.foldr_nil]
  omega

theorem utf8ByteSize_encode_pos (q : Quote) (text : String) :
    0 < (q.encode text).utf8ByteSize := by
  rw [← String.ofList_toList (s := q.encode text), ← byteLength_eq, toList_encode]
  exact byteLength_cons_pos ..

theorem agrees_encode (q : Quote) (a b : String) (back : List Char) :
    Agrees ((q.encode a).toList ++ back) ((q.encode b).toList ++ back) := by
  rw [toList_encode, toList_encode]
  exact .mark q ..

theorem exists_append_of_byteLength_le {front back : List Char} {n : Nat} (hb : back ≠ [])
    (h : byteLength ((front ++ back).take n) ≤ byteLength front) :
    ∃ text rest, front = text ++ rest ∧ n = text.length := by
  suffices hn : n ≤ front.length by
    exact ⟨front.take n, front.drop n, (List.take_append_drop n front).symm, by simp [hn]⟩
  by_contra hn
  obtain ⟨m, rfl⟩ := Nat.exists_eq_add_of_lt (Nat.lt_of_not_le hn)
  obtain ⟨d, back, rfl⟩ := List.exists_cons_of_ne_nil hb
  have hd := byteLength_cons_pos d (back.take m)
  rw [Nat.add_assoc, List.take_length_add_append, List.take_succ_cons, byteLength_append] at h
  omega

namespace Start

variable {q : Quote}

theorem read_mark (signed : Bool) (q : Quote) (cs : List Char) :
    ∃ kind enclosure, kind.quote = some q ∧ read signed q.mark cs =
      closed enclosure (.lexeme kind) (Extent.quoted q.mark cs) := by
  have hb : isBlank '\x27' = false ∧ isBlank '\x22' = false := by decide
  cases q with
  | single => exact ⟨.stringLiteral, .stringLiteral, rfl, by simp [read, Quote.mark, hb]⟩
  | double => exact ⟨.quotedIdentifier, .quotedIdentifier, rfl, by simp [read, Quote.mark, hb]⟩

theorem read_twice {signed : Bool} {kind : TokenKind} (hk : kind.quote = some q)
    (text : List Char) {back : List Char} (hb : back.head? ≠ some q.mark) :
    read signed q.mark (q.twice text ++ q.mark :: back) =
      .lexeme kind ((q.twice text).length + 1) :=
  read_of_reading (.quoted hk rfl (quoted_twice_append q text hb))

theorem exists_encode_of_read {signed : Bool} {c : Char} {cs : List Char} {kind : TokenKind}
    {n : Nat} (h : read signed c cs = .lexeme kind n) (hk : kind.quote = some q) :
    ∃ text, c :: cs.take n = (q.encode text).toList := by
  cases read_eq_iff.1 h with
  | @quoted _ other _ ho hc hn =>
    obtain rfl : other = q := Option.some.inj (ho.symm.trans hk)
    obtain ⟨body, rest, rfl, _, rfl⟩ := (quoted_eq_some_iff other _ _).1 hn
    refine ⟨.ofList body, ?_⟩
    rw [List.take_length_add_append, toList_encode, String.toList_ofList, hc]
    rfl
  | word =>
    unfold word at hk
    split at hk <;> cases hk
  | number => cases hk
  | signedNumber => cases hk
  | symbol => cases hk

end Start

namespace Cut

variable {q : Quote} {signed : Bool} {position : Nat}

theorem outcome_of_encode {kind : TokenKind} (hk : kind.quote = some q) (text : String)
    {back : List Char} (hb : back.head? ≠ some q.mark) :
    (cut signed ((q.encode text).toList ++ back)).outcome position =
      ((cut false back).outcome (position + (q.encode text).utf8ByteSize)).map
        (⟨q.encode text, kind, position⟩ :: ·) := by
  rw [toList_encode, List.cons_append, List.append_assoc, List.singleton_append,
    outcome_of_lexeme (Start.read_twice hk text.toList hb), List.take_length_add_append,
    List.drop_length_add_append, signMayFollow_of_quote hk, byteLength_eq]
  rfl

theorem exists_of_outcome_mark {cs : List Char} {tokens : List Token}
    (hc : cs.head? = some q.mark) (h : (cut signed cs).outcome position = .ok tokens) :
    ∃ kind text back tail, kind.quote = some q ∧ cs = (q.encode text).toList ++ back ∧
      back.head? ≠ some q.mark ∧
      (cut false back).outcome (position + (q.encode text).utf8ByteSize) = .ok tail ∧
      tokens = ⟨q.encode text, kind, position⟩ :: tail := by
  obtain ⟨cs, rfl⟩ := List.head?_eq_some_iff.1 hc
  obtain ⟨kind, enclosure, hk, hr⟩ := Start.read_mark signed q cs
  cases hq : Extent.quoted q.mark cs with
  | none =>
    rw [hq] at hr
    rw [outcome_of_obstacle hr] at h
    cases h
  | some n =>
    obtain ⟨body, back, rfl, hb, _⟩ := (quoted_eq_some_iff q cs n).1 hq
    have he : q.mark :: (q.twice body ++ q.mark :: back) =
        (q.encode (.ofList body)).toList ++ back := by
      simp [toList_encode]
    rw [he, outcome_of_encode hk _ hb] at h
    obtain ⟨tail, ht, rfl⟩ := Argument.exists_of_map_eq_ok h
    exact ⟨kind, .ofList body, back, tail, hk, he, hb, ht, rfl⟩

theorem exists_append_of_mem {c : Char} {front back : List Char} {n : Nat} {tokens : List Token}
    {token : Token} (hb : back ≠ [])
    (h : (cut signed ((front ++ back).drop n)).outcome
      (position + byteLength (c :: (front ++ back).take n)) = .ok tokens)
    (hm : token ∈ tokens) (hp : token.position = position + byteLength (c :: front)) :
    ∃ first rest, front = first ++ rest ∧ n = first.length := by
  have hl := le_position_of_tiles (tiles_of_outcome h) token hm
  rw [hp, byteLength_cons, byteLength_cons] at hl
  exact exists_append_of_byteLength_le hb (by omega)

theorem exists_outcome_of_encode {kind : TokenKind} {back : List Char} {tokens : List Token}
    (h : (cut signed ((q.encode "").toList ++ back)).outcome position = .ok tokens)
    (hm : ⟨q.encode "", kind, position⟩ ∈ tokens) :
    kind.quote = some q ∧ ∃ after, tokens = ⟨q.encode "", kind, position⟩ :: after ∧
      ∀ text, (cut signed ((q.encode text).toList ++ back)).outcome position =
        .ok (⟨q.encode text, kind, position⟩ ::
          after.map (Token.moved (byteLength (q.twice text.toList)))) := by
  have hf : ((q.encode "").toList ++ back).head? = some q.mark := by simp [toList_encode]
  obtain ⟨kind', text', back', tail, hk, he, hb, ht, rfl⟩ := exists_of_outcome_mark hf h
  rcases List.mem_cons.1 hm with hm | hm
  · simp only [Token.mk.injEq] at hm
    obtain ⟨hq, rfl, _⟩ := hm
    obtain rfl := encode_inj hq
    obtain rfl : back = back' := List.append_cancel_left he
    refine ⟨hk, tail, rfl, fun text => ?_⟩
    rw [outcome_of_encode hk text hb, utf8ByteSize_encode, ← Nat.add_assoc, outcome_add ht]
    rfl
  · have hl : _ ≤ position := le_position_of_tiles (tiles_of_outcome ht) _ hm
    have hp := utf8ByteSize_encode_pos q text'
    omega

/-- Where an empty quoted text is read, any other text can be quoted in its place: what is read
before it does not change, and what is read behind it moves on by as many bytes as are quoted. -/
theorem exists_outcome_of_hole {kind : TokenKind} {front back : List Char}
    {tokens : List Token}
    (h : (cut signed (front ++ ((q.encode "").toList ++ back))).outcome position = .ok tokens)
    (hm : ⟨q.encode "", kind, position + byteLength front⟩ ∈ tokens) :
    kind.quote = some q ∧ ∃ before after,
      tokens = before ++ ⟨q.encode "", kind, position + byteLength front⟩ :: after ∧
      ∀ text, (cut signed (front ++ ((q.encode text).toList ++ back))).outcome position =
        .ok (before ++ ⟨q.encode text, kind, position + byteLength front⟩ ::
          after.map (Token.moved (byteLength (q.twice text.toList)))) := by
  have hne : (q.encode "").toList ++ back ≠ [] := by simp [toList_encode]
  -- a step takes any number of characters, so the induction is on how many stand before the hole
  induction hn : front.length using Nat.strongRecOn generalizing signed front position tokens with
  | ind n ih =>
  cases front with
  | nil =>
    obtain ⟨hk, after, rfl, ho⟩ := exists_outcome_of_encode h hm
    exact ⟨hk, [], after, rfl, ho⟩
  | cons c front =>
    have hl (first rest : List Char) (hn : (c :: (first ++ rest)).length = n) :
        rest.length < n := by
      simp only [List.length_cons, List.length_append] at hn
      omega
    have hp (first rest : List Char) : position + byteLength (c :: (first ++ rest)) =
        position + byteLength (c :: first) + byteLength rest := by
      rw [← List.cons_append, byteLength_append, Nat.add_assoc]
    rw [List.cons_append] at h
    cases hr : Start.read signed c (front ++ ((q.encode "").toList ++ back)) with
    | obstacle reason =>
      rw [outcome_of_obstacle hr] at h
      cases h
    | gap n =>
      rw [outcome_of_gap hr] at h
      obtain ⟨first, rest, rfl, rfl⟩ := exists_append_of_mem hne h hm rfl
      rw [List.append_assoc] at hr h
      rw [List.take_left, List.drop_left] at h
      rw [hp] at hm ⊢
      obtain ⟨hk, before, after, rfl, ho⟩ := ih rest.length (hl first rest hn) h hm rfl
      refine ⟨hk, before, after, rfl, fun text => ?_⟩
      -- the gap sees no more of what follows than that it begins with the quotation mark
      have hg : Start.read signed c (first ++ (rest ++ ((q.encode text).toList ++ back))) =
          .gap first.length := by
        rw [Start.read_eq_gap_iff] at hr ⊢
        refine isGapPiece_of_head_eq hr ?_
        cases rest <;> simp [toList_encode]
      rw [List.cons_append, List.append_assoc, outcome_of_gap hg, List.take_left, List.drop_left]
      exact ho text
    | lexeme other n =>
      rw [outcome_of_lexeme hr] at h
      obtain ⟨tail, ht, rfl⟩ := Argument.exists_of_map_eq_ok h
      replace hm := List.mem_cons.1 hm
      rcases hm with hm | hm
      · have hb := byteLength_cons_pos c front
        simp only [Token.mk.injEq] at hm
        omega
      obtain ⟨first, rest, rfl, rfl⟩ := exists_append_of_mem hne ht hm rfl
      rw [List.append_assoc] at hr ht
      rw [List.take_left, List.drop_left] at ht
      rw [hp] at hm ⊢
      rw [List.append_assoc, List.take_left]
      obtain ⟨hk, before, after, rfl, ho⟩ := ih rest.length (hl first rest hn) ht hm rfl
      refine ⟨hk, _ :: before, after, rfl, fun text => ?_⟩
      have ha (a b : String) := (agrees_encode q a b back).append rest
      have hr := Start.read_of_stopsAlso (.of_agrees (ha "" text))
        (StopsAlso.of_agrees ((ha text "").append first).cons).pointBeforeNumber hr
      rw [List.cons_append, List.append_assoc, outcome_of_lexeme hr, List.take_left,
        List.drop_left, ho]
      rfl

theorem exists_encode_of_mem {cs : List Char} {tokens : List Token}
    (h : (cut signed cs).outcome position = .ok tokens) {token : Token} (hm : token ∈ tokens)
    (hk : token.kind.quote = some q) : ∃ text, token.lexeme = q.encode text := by
  have hf : token.isFinish = false := by
    cases hkind : token.kind <;> simp_all [Token.isFinish, TokenKind.quote]
  obtain ⟨_, c, cs, n, hr, hl⟩ := exists_read_of_mem h hm hf
  obtain ⟨text, he⟩ := Start.exists_encode_of_read hr hk
  exact ⟨text, by rw [hl, he, String.ofList_toList]⟩

end Cut

namespace Statement

theorem content_encode {kind : TokenKind} {q : Quote} (hk : kind.quote = some q) (text : String)
    (position : Nat) : Token.content ⟨q.encode text, kind, position⟩ = some text := by
  simp [Token.content, hk, Quote.decode_encode]

/-- Where an empty quoted text is a token, any text can be quoted in its place. It is that token and
reads as what was quoted, the other tokens stay what they are, and the statement goes where it went.
And every quoted token reads as a text that gives the token when it is quoted. -/
theorem read_encode (q : Quote) :
    (∀ (front back : String) (kind : TokenKind) (statement : Statement),
      read (front ++ q.encode "" ++ back) = .ok statement →
      ⟨q.encode "", kind, front.utf8ByteSize⟩ ∈ statement.tokens →
      kind.quote = some q ∧ ∃ before after,
        statement.tokens = before ++ ⟨q.encode "", kind, front.utf8ByteSize⟩ :: after ∧
        ∀ text, ∃ other, read (front ++ q.encode text ++ back) = .ok other ∧
          other.tokens = before ++ ⟨q.encode text, kind, front.utf8ByteSize⟩ ::
            after.map (Token.moved (byteLength (q.twice text.toList))) ∧
          Token.content ⟨q.encode text, kind, front.utf8ByteSize⟩ = some text ∧
          ∀ table : CommandTable, (table.classify statement).Corresponds
            (fun a b => a.kind = b.kind) (table.classify other)) ∧
    ∀ (text : String) (statement : Statement) (token : Token),
      read text = .ok statement → token ∈ statement.tokens → token.kind.quote = some q →
      ∃ content, token.content = some content ∧ q.encode content = token.lexeme := by
  constructor
  · intro front back kind statement h hm
    have hl (text : String) : (front ++ q.encode text ++ back).toList =
        front.toList ++ ((q.encode text).toList ++ back.toList) := by
      rw [String.toList_append, String.toList_append, List.append_assoc]
    have hp : front.utf8ByteSize = 0 + byteLength front.toList := by
      rw [Nat.zero_add, byteLength_toList]
    rw [read_eq_outcome, hl] at h
    obtain ⟨tokens, ho, rfl⟩ := Argument.exists_of_map_eq_ok h
    rw [hp] at hm ⊢
    obtain ⟨hk, before, after, rfl, hr⟩ := Cut.exists_outcome_of_hole ho hm
    refine ⟨hk, before, after, rfl, fun text => ?_⟩
    have hn := congrArg (Except.map (Statement.mk (front ++ q.encode text ++ back))) (hr text)
    rw [← hl, ← read_eq_outcome] at hn
    refine ⟨_, hn, rfl, content_encode hk .., fun table => ?_⟩
    let R (a b : Token) : Prop := a.kind = b.kind ∧ ∀ word, a.spells word = b.spells word
    have hs (token : Token) : R token token := ⟨rfl, fun _ => rfl⟩
    have hb : List.Forall₂ R before before := List.forall₂_same.2 fun token _ => hs token
    have ha (bytes : Nat) : List.Forall₂ R after (after.map (Token.moved bytes)) :=
      List.forall₂_map_right_iff.2 (List.forall₂_same.2 fun token _ => hs token)
    have hq : R ⟨q.encode "", kind, 0 + byteLength front.toList⟩
        ⟨q.encode text, kind, 0 + byteLength front.toList⟩ :=
      ⟨rfl, fun word => by rw [Token.spells_of_quote hk, Token.spells_of_quote hk]⟩
    have hf := List.rel_append hb (.cons hq (ha (byteLength (q.twice text.toList))))
    exact (table.corresponds_classify (fun _ _ h => h.2) hf).mono fun _ _ h => h.1
  · intro text statement token h hm hk
    rw [read_eq_outcome] at h
    obtain ⟨tokens, ho, rfl⟩ := Argument.exists_of_map_eq_ok h
    obtain ⟨content, he⟩ := Cut.exists_encode_of_mem ho hm hk
    refine ⟨content, ?_, he.symm⟩
    have hc := content_encode hk content token.position
    rwa [← he] at hc

theorem read_encode_comment_mark :
    let statement : Statement :=
      ⟨"é''--'", [⟨"é", .identifier, 0⟩, ⟨"''", .stringLiteral, 2⟩, .finish 7]⟩
    read "é''--'" = .ok statement ∧ ⟨"''", .stringLiteral, 2⟩ ∈ statement.tokens ∧
      ∃ before after, statement.tokens = before ++ ⟨"''", .stringLiteral, 2⟩ :: after ∧
        ∃ other, read "é'''--'--'" = .ok other ∧
          other.tokens =
            before ++ ⟨"'''--'", .stringLiteral, 2⟩ :: after.map (Token.moved 4) ∧
          Token.content ⟨"'''--'", .stringLiteral, 2⟩ = some "'--" ∧
          ∀ table : CommandTable, (table.classify statement).Corresponds
            (fun a b => a.kind = b.kind) (table.classify other) := by
  intro statement
  have h : read "é''--'" = .ok statement := by decide +kernel
  have hm : ⟨"''", .stringLiteral, 2⟩ ∈ statement.tokens := by simp [statement]
  obtain ⟨_, before, after, he, hr⟩ :=
    (read_encode .single).1 "é" "--'" .stringLiteral statement h hm
  exact ⟨h, hm, before, after, he, hr "'--"⟩

end Statement

end SqlDispatch
