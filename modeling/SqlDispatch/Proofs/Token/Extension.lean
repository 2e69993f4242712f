import Mathlib.Control.Monad.Basic
import SqlDispatch.Command.Text
import SqlDispatch.Proofs.Token.Lookahead

set_option autoImplicit false

/-!
What a text that cannot be read may go on with. The part before the obstacle is read by itself, and
is read in the same way whatever the obstacle begins. A text in which something is left open is read
once it is closed; a stray character remains one whatever follows it.
-/

namespace SqlDispatch

open Text Grammar

theorem prefix_of_prefix_append_cons {front numeral rest : List Char} {c : Char}
    (hc : ¬ IsNumeral c) (hn : ∀ d ∈ numeral, IsNumeral d) (h : numeral <+: front ++ c :: rest) :
    numeral <+: front := by
  have hf : front ++ [c] <+: front ++ c :: rest := ⟨rest, by simp⟩
  have hm : ¬ front ++ [c] <+: numeral := fun hp => hc (hn c (hp.subset (by simp)))
  rcases List.prefix_concat_iff.1 ((List.prefix_or_prefix_of_prefix h hf).resolve_right hm) with
    he | hp
  · exact absurd (he ▸ List.prefix_refl _) hm
  · exact hp

/-- The text is empty or begins with the character. -/
def BeginsWith (c : Char) (cs : List Char) : Prop := ∀ d ∈ cs.head?, d = c

section BeginsWith

variable {c : Char} {rest other : List Char}

theorem BeginsWith.nil (c : Char) : BeginsWith c [] := by simp [BeginsWith]

theorem BeginsWith.cons (c : Char) (cs : List Char) : BeginsWith c (c :: cs) := by
  simp [BeginsWith]

theorem BeginsWith.head (h : BeginsWith c other) (front : List Char) :
    ∀ d ∈ (front ++ other).head?, d ∈ (front ++ c :: rest).head? := by
  cases front with
  | nil => exact fun d hd => h d hd ▸ rfl
  | cons => exact fun d hd => hd

theorem BeginsWith.stopsAlso (hc : ¬ IsNumeral c) (h : BeginsWith c other) (front : List Char) :
    StopsAlso (front ++ c :: rest) (front ++ other) := by
  refine StopsAlso.append (.of_head (fun d hd => ?_) fun d hd => .inr (h.head [] d hd)) front
  rw [h d hd]
  exact hc

theorem BeginsWith.pointBeforeNumber (hc : ¬ IsNumeral c) {front : List Char}
    (h : PointBeforeNumber (front ++ c :: rest)) : PointBeforeNumber (front ++ other) := by
  obtain ⟨d, more, he, hd⟩ := h
  have hn : ∀ c ∈ ['.', '.', d], IsNumeral c := by simpa using ⟨.inr (by decide), .inl hd⟩
  have hp : ['.', '.', d] <+: front ++ c :: rest := ⟨more, he.symm⟩
  obtain ⟨tail, rfl⟩ := prefix_of_prefix_append_cons hc hn hp
  exact ⟨d, tail ++ other, rfl, hd⟩

end BeginsWith

namespace Start

variable {signed : Bool} {c : Char} {text rest other : List Char} {reason : Obstacle}

theorem exists_append_of_read {n : Nat}
    (h : read signed c rest = .gap n ∨ ∃ kind, read signed c rest = .lexeme kind n) :
    ∃ text other, rest = text ++ other ∧ n = text.length := by
  have hn : n ≤ rest.length := by
    rcases h with h | ⟨kind, h⟩
    · exact (isGapPiece_of_read h).1
    · exact le_length_of_read h
  exact ⟨rest.take n, rest.drop n, (List.take_append_drop n rest).symm, by simp [hn]⟩

theorem not_isNumeral_of_read (h : read signed c rest = .obstacle reason) : ¬ IsNumeral c := by
  have hd {c : Char} (hc : c.isDigit = false) (hm : c ∉ ['.', 'e', 'E', '+', '-']) :
      ¬ IsNumeral c := not_or.2 ⟨by simp [hc], hm⟩
  cases read_eq_iff.1 h with
  | @unclosedQuote _ q hc =>
    subst hc
    cases q <;> exact hd (by decide) (by decide)
  | unclosedComment hc =>
    subst hc
    exact hd (by decide) (by decide)
  | stray _ _ hw hn hm =>
    refine hd hn fun hc => ?_
    simp only [List.mem_cons, List.not_mem_nil, or_false] at hc
    rcases hc with rfl | rfl | rfl | rfl | rfl
    · exact hm (by decide)
    · exact absurd hw (by decide)
    · exact absurd hw (by decide)
    · exact hm (by decide)
    · exact hm (by decide)

theorem eq_of_read_stray {d : Char} (h : read signed c rest = .obstacle (.stray d)) : d = c := by
  cases read_eq_iff.1 h with
  | stray => rfl

theorem read_stray (h : read signed c rest = .obstacle (.stray c)) (other : List Char) :
    read signed c other = .obstacle (.stray c) := by
  cases read_eq_iff.1 h with
  | stray hb hq hw hd hm => exact read_of_reading (.stray hb hq hw hd hm)

end Start

/-- Read from `position` on, `before` gives the same tokens in front of everything that begins with
`c`, and `later` says whether a sign could stand there. -/
def Leads (signed : Bool) (position : Nat) (before : List Char) (c : Char) (later : Bool) : Prop :=
  ∃ tokens, ∀ other, BeginsWith c other →
    (cut signed (before ++ other)).outcome position =
      ((cut later other).outcome (position + byteLength before)).map (tokens ++ ·)

section Leads

variable {signed later : Bool} {position : Nat} {c d : Char} {text before rest : List Char}

theorem leads_nil (signed : Bool) (position : Nat) (c : Char) :
    Leads signed position [] c signed := by
  refine ⟨[], fun other _ => ?_⟩
  cases h : (cut signed other).outcome position <;> simp [byteLength, h, Except.map]

theorem Leads.gap (hr : Start.read signed d (text ++ (before ++ c :: rest)) = .gap text.length)
    (h : Leads signed (position + byteLength (d :: text)) before c later) :
    Leads signed position (d :: text ++ before) c later := by
  obtain ⟨tokens, h⟩ := h
  refine ⟨tokens, fun other ho => ?_⟩
  have hg : Start.read signed d (text ++ (before ++ other)) = .gap text.length := by
    rw [Start.read_eq_gap_iff] at hr ⊢
    exact isGapPiece_of_head hr (ho.head before)
  rw [List.append_assoc, List.cons_append, Cut.outcome_of_gap hg, List.take_left, List.drop_left,
    h other ho, byteLength_append, Nat.add_assoc]

theorem Leads.lexeme {kind : TokenKind} (hc : ¬ IsNumeral c)
    (hr : Start.read signed d (text ++ (before ++ c :: rest)) = .lexeme kind text.length)
    (h : Leads (signMayFollow kind (d :: text)) (position + byteLength (d :: text)) before c
      later) : Leads signed position (d :: text ++ before) c later := by
  obtain ⟨tokens, h⟩ := h
  refine ⟨⟨.ofList (d :: text), kind, position⟩ :: tokens, fun other ho => ?_⟩
  have hp (hp : PointBeforeNumber (d :: (text ++ (before ++ c :: rest)))) :
      PointBeforeNumber (d :: (text ++ (before ++ other))) := by
    have he (tail : List Char) :
        d :: (text ++ (before ++ tail)) = d :: (text ++ before) ++ tail := by simp
    rw [he] at hp ⊢
    exact BeginsWith.pointBeforeNumber hc hp
  have hl := Start.read_of_stopsAlso (ho.stopsAlso hc before) hp hr
  rw [List.append_assoc, List.cons_append, Cut.outcome_of_lexeme hl, List.take_left, List.drop_left,
    h other ho, byteLength_append, Nat.add_assoc]
  cases (cut later other).outcome _ <;> rfl

end Leads

theorem exists_leads_of_outcome {signed : Bool} {cs : List Char} {position : Nat} {fault : Fault}
    (h : (cut signed cs).outcome position = .error fault) :
    ∃ before c rest reason later, cs = before ++ c :: rest ∧
      Start.read later c rest = .obstacle reason ∧
      fault = reason.fault (position + byteLength before) ∧
      Leads signed position before c later := by
  induction signed, cs using cut.induct generalizing position with
  | case1 signed =>
    rw [Cut.outcome_nil] at h
    cases h
  | case2 signed d cs n hr ih =>
    obtain ⟨text, tail, rfl, rfl⟩ := Start.exists_append_of_read (.inl hr)
    rw [Cut.outcome_of_gap hr] at h
    simp only [List.take_left, List.drop_left] at h ih
    obtain ⟨before, c, rest, reason, later, rfl, ho, rfl, hl⟩ := ih h
    refine ⟨d :: text ++ before, c, rest, reason, later, by simp, ho, ?_, hl.gap hr⟩
    rw [byteLength_append, Nat.add_assoc]
  | case3 signed d cs kind n hr text =>
    rename_i ih
    obtain ⟨more, tail, rfl, rfl⟩ := Start.exists_append_of_read (.inr ⟨kind, hr⟩)
    rw [Cut.outcome_of_lexeme hr] at h
    simp only [text, List.take_left, List.drop_left] at h ih
    obtain ⟨before, c, rest, reason, later, rfl, ho, rfl, hl⟩ :=
      ih (Argument.error_of_map_eq_error h)
    refine ⟨d :: more ++ before, c, rest, reason, later, by simp, ho, ?_,
      hl.lexeme (Start.not_isNumeral_of_read ho) hr⟩
    rw [byteLength_append, Nat.add_assoc]
  | case4 signed c cs reason hr =>
    rw [Cut.outcome_of_obstacle hr] at h
    exact ⟨[], c, cs, reason, signed, rfl, hr, (Except.error.inj h).symm, leads_nil ..⟩

def closings (depth : Nat) : List Char := (List.replicate depth ['*', '/']).flatten

namespace Extent

theorem exists_twice_of_quoted_eq_none {q : Quote} {cs : List Char}
    (h : Extent.quoted q.mark cs = none) : ∃ body, cs = q.twice body := by
  fun_induction Extent.quoted q.mark cs with
  | case1 => exact ⟨[], rfl⟩
  | case2 => cases h
  | case3 c hc => exact ⟨[c], by simp [Quote.twice, hc]⟩
  | case4 cs ih =>
    obtain ⟨body, rfl⟩ := ih (Option.map_eq_none_iff.1 h)
    exact ⟨q.mark :: body, by simp [Quote.twice]⟩
  | case5 => cases h
  | case6 c d cs hc ih =>
    obtain ⟨body, he⟩ := ih (Option.map_eq_none_iff.1 h)
    exact ⟨c :: body, by simp [Quote.twice, hc, he]⟩

theorem blockComment_closings (depth : Nat) :
    Extent.blockComment depth (closings (depth + 1)) = some (closings (depth + 1)).length := by
  induction depth with
  | zero => rfl
  | succ depth ih =>
    have hs : closings (depth + 1 + 1) = '*' :: '/' :: closings (depth + 1) := rfl
    rw [hs, Extent.blockComment, ih]
    rfl

/-- A blank keeps the last character from being half of a mark. -/
theorem exists_blockComment_append {depth : Nat} {cs : List Char}
    (h : Extent.blockComment depth cs = none) : ∃ suffix, suffix.head? = some ' ' ∧
      Extent.blockComment depth (cs ++ suffix) = some (cs ++ suffix).length := by
  fun_induction Extent.blockComment depth cs with
  | case1 => cases h
  | case2 cs depth ih =>
    obtain ⟨suffix, hs, hb⟩ := ih (Option.map_eq_none_iff.1 h)
    exact ⟨suffix, hs, by simp [Extent.blockComment, hb]⟩
  | case3 depth cs ih =>
    obtain ⟨suffix, hs, hb⟩ := ih (Option.map_eq_none_iff.1 h)
    exact ⟨suffix, hs, by simp [Extent.blockComment, hb]⟩
  | case4 depth c cs h₁ h₂ ih =>
    obtain ⟨suffix, hs, hb⟩ := ih (Option.map_eq_none_iff.1 h)
    -- no mark of two characters starts at `c` with the first of the suffix either
    have hm {m : Char} (hm : m ≠ ' ') (hn : ∀ rest, cs ≠ m :: rest) (rest : List Char) :
        cs ++ suffix ≠ m :: rest := by
      cases cs with
      | nil =>
        rintro rfl
        exact hm (Option.some.inj hs)
      | cons d cs => exact fun he => hn cs (by rw [(List.cons.inj he).1])
    refine ⟨suffix, hs, ?_⟩
    rw [List.cons_append, Extent.blockComment, hb]
    · rfl
    · exact fun rest hc => hm (by decide) (fun rest he => h₁ rest hc he) rest
    · exact fun rest hc => hm (by decide) (fun rest he => h₂ rest hc he) rest
  | case5 depth =>
    refine ⟨' ' :: closings (depth + 1), rfl, ?_⟩
    rw [List.nil_append, Extent.blockComment, blockComment_closings]
    · rfl
    · simp
    · simp

end Extent

theorem exists_suffix_of_unclosed {signed : Bool} {c : Char} {rest : List Char}
    {enclosure : Enclosure} (h : Start.read signed c rest = .obstacle (.unclosed enclosure)) :
    ∃ suffix, ∀ position, ∃ tokens,
      (cut signed (c :: (rest ++ suffix))).outcome position = .ok tokens := by
  have hend (tail : Bool) (cs : List Char) (position : Nat) :
      (cut tail (cs.drop cs.length)).outcome position = .ok [.finish position] := by
    rw [List.drop_length, Cut.outcome_nil]
  cases Start.read_eq_iff.1 h with
  | @unclosedQuote _ q hc ho hn =>
    obtain ⟨body, rfl⟩ := Extent.exists_twice_of_quoted_eq_none hn
    have hk : ∃ kind : TokenKind, kind.quote = some q := by
      cases q
      · exact ⟨.stringLiteral, rfl⟩
      · exact ⟨.quotedIdentifier, rfl⟩
    obtain ⟨kind, hk⟩ := hk
    have hq : Extent.quoted q.mark (q.twice body ++ [q.mark]) = some _ :=
      quoted_twice_append q body (by simp)
    have hr : Start.read signed c (q.twice body ++ [q.mark]) =
        .lexeme kind (q.twice body ++ [q.mark]).length := by
      rw [List.length_append]
      exact Start.read_of_reading (.quoted hk hc hq)
    refine ⟨[q.mark], fun position => ?_⟩
    have hl := Cut.outcome_of_lexeme hr position
    rw [hend] at hl
    exact ⟨_, hl⟩
  | @unclosedComment rest hc he hn =>
    subst he
    obtain ⟨suffix, _, hb⟩ := Extent.exists_blockComment_append hn
    have hr : Start.read signed c ('*' :: (rest ++ suffix)) =
        .gap ('*' :: (rest ++ suffix)).length :=
      Start.read_of_reading (.block hc rfl hb)
    refine ⟨suffix, fun position => ?_⟩
    have hg := Cut.outcome_of_gap hr position
    rw [hend] at hg
    exact ⟨_, hg⟩

namespace Statement

/-- Before the place where a text cannot be read stands a text that can. If something is left open
there, the text is read once it is closed. If a strange character stands there, every text that is
the same so far has the same fault. -/
theorem read_error_extension {text : String} {fault : Fault} (h : read text = .error fault) :
    ∃ before rest, text = before ++ rest ∧ (∃ statement, read before = .ok statement) ∧
      ((∃ message suffix statement, fault = .lexical message before.utf8ByteSize ∧
          read (text ++ suffix) = .ok statement) ∨
        ∃ c ∈ rest.toList.head?,
          fault = .unknownToken (.singleton c) before.utf8ByteSize ∧
          ∀ suffix, read (text ++ suffix) = .error fault ∧
            read (before ++ .singleton c ++ suffix) = .error fault) := by
  rw [read_eq_outcome] at h
  obtain ⟨before, c, rest, reason, later, he, ho, hf, tokens, hl⟩ :=
    exists_leads_of_outcome (Argument.error_of_map_eq_error h)
  rw [Nat.zero_add] at hf hl
  have hread {other : String} {tail : List Char} (hb : BeginsWith c tail)
      (he : other.toList = before ++ tail) : read other =
        (((cut later tail).outcome (byteLength before)).map (tokens ++ ·)).map (⟨other, ·⟩) := by
    rw [read_eq_outcome, he, hl tail hb]
  have hsize : byteLength before = (String.ofList before).utf8ByteSize := byteLength_eq before
  refine ⟨.ofList before, .ofList (c :: rest), ?_, ?_, ?_⟩
  · rw [← String.ofList_append, ← he, String.ofList_toList]
  · rw [hread (.nil c) (by simp), Cut.outcome_nil]
    exact ⟨_, rfl⟩
  rw [hsize] at hf
  have htail (suffix : String) :
      (text ++ suffix).toList = before ++ c :: (rest ++ suffix.toList) := by simp [he]
  cases reason with
  | unclosed enclosure =>
    obtain ⟨suffix, hs⟩ := exists_suffix_of_unclosed ho
    obtain ⟨closed, hclosed⟩ := hs (byteLength before)
    have hclose := hread (.cons c _) (htail (.ofList suffix))
    rw [String.toList_ofList, hclosed] at hclose
    exact .inl ⟨_, .ofList suffix, _, hf, hclose⟩
  | stray d =>
    obtain rfl := Start.eq_of_read_stray ho
    have hfault (other : String) (tail : List Char) (he : other.toList = before ++ d :: tail) :
        read other = .error fault := by
      have hobstacle := Cut.outcome_of_obstacle (Start.read_stray ho tail) (byteLength before)
      rw [hread (.cons d _) he, hobstacle, hf, hsize]
      rfl
    refine .inr ⟨d, by simp, hf, fun suffix => ⟨hfault _ _ (htail suffix), ?_⟩⟩
    exact hfault _ suffix.toList (by simp)

/-- The character stands right behind a comment, and could be part of a word. -/
theorem read_error_extension_dollar :
    let text := "- 1.5e/*/ */$ 'a"
    let fault := Fault.unknownToken "$" 12
    read text = .error fault ∧ ∃ before rest, text = before ++ rest ∧
      (∃ statement, read before = .ok statement) ∧ ∀ suffix, read (text ++ suffix) = .error fault ∧
        read (before ++ "$" ++ suffix) = .error fault := by
  intro text fault
  have h : read text = .error fault := by decide +kernel
  obtain ⟨before, rest, he, hb, hcases⟩ := read_error_extension h
  refine ⟨h, before, rest, he, hb, ?_⟩
  rcases hcases with ⟨message, suffix, statement, hf, _⟩ | ⟨c, _, hf, hall⟩
  · simp [fault] at hf
  · have hc : "$" = String.singleton c := (Fault.unknownToken.inj hf).1
    rw [← hc] at hall
    exact hall

end Statement

end SqlDispatch
