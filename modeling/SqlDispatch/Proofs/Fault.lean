import SqlDispatch.Proofs.Arguments.Fault
import SqlDispatch.Proofs.Token.Extension
import SqlDispatch.Proofs.Token.Partition
import SqlDispatch.Router

set_option autoImplicit false

/-!
Where a fault points. A text that cannot be prepared has a position at which stands what the fault
says: the mark of something that is never closed, the strange character, the token that is wrong, or
the end of the statement where something is missing.
-/

namespace SqlDispatch

open Text Grammar

namespace Grammar

/-- What the characters open is not closed in them; a mark followed by another closes nothing. -/
def IsUnclosed : Enclosure → List Char → Prop
  | .stringLiteral, cs => ∀ text rest, cs = text ++ rest → IsQuoted .single text →
      rest.head? = some Quote.single.mark
  | .quotedIdentifier, cs => ∀ text rest, cs = text ++ rest → IsQuoted .double text →
      rest.head? = some Quote.double.mark
  | .blockComment, cs => ∀ text rest, cs = text ++ rest → ¬ IsBlockComment text

theorem head_eq_mark_of_quoted_eq_none {q : Quote} {cs text rest : List Char}
    (h : Extent.quoted q.mark cs = none) (he : q.mark :: cs = text ++ rest)
    (hq : IsQuoted q text) : rest.head? = some q.mark := by
  obtain ⟨body, rfl⟩ := hq
  by_contra hr
  have hs : Extent.quoted q.mark cs = some _ :=
    (quoted_eq_some_iff q cs _).2 ⟨body, rest, by simpa using he, hr, rfl⟩
  rw [h] at hs
  cases hs

theorem isUnclosed_of_read {signed : Bool} {enclosure : Enclosure} {c : Char} {cs : List Char}
    (h : Start.read signed c cs = .obstacle (.unclosed enclosure)) :
    Opens enclosure (c :: cs) ∧ IsUnclosed enclosure (c :: cs) := by
  cases Start.read_eq_iff.1 h with
  | @unclosedQuote _ q hc ho hn =>
    subst hc
    refine ⟨ho, ?_⟩
    cases q with
    | single =>
      cases ho
      exact fun text rest => head_eq_mark_of_quoted_eq_none hn
    | double =>
      cases ho
      exact fun text rest => head_eq_mark_of_quoted_eq_none hn
  | @unclosedComment rest hc he hn =>
    subst hc he
    refine ⟨.blockComment, fun text back he hb => ?_⟩
    obtain ⟨body, rfl, hm⟩ := Extent.isBlockComment_iff.1 hb
    have hs := (Extent.blockComment_eq_some_iff 0 rest _).2
      ⟨body, back, by simpa using he, rfl, hm⟩
    rw [hn] at hs
    cases hs

end Grammar

/-- Somewhere in the characters, of which the first is at `position`, no piece starts, and the fault
says why. -/
def IsObstructed (position : Nat) (cs : List Char) (fault : Fault) : Prop :=
  ∃ before c rest reason, cs = before ++ c :: rest ∧
    (∃ signed, Start.read signed c rest = .obstacle reason) ∧
    fault = reason.fault (position + byteLength before)

theorem isObstructed_of_outcome {signed : Bool} {cs : List Char} {position : Nat} {fault : Fault}
    (h : (cut signed cs).outcome position = .error fault) : IsObstructed position cs fault := by
  obtain ⟨before, c, rest, reason, later, he, ho, hf, _⟩ := exists_leads_of_outcome h
  exact ⟨before, c, rest, reason, he, ⟨later, ho⟩, hf⟩

def EndsAt (text : String) (position : Nat) : Prop :=
  IsSlice text position (position + 1) ";" ∨ position = text.utf8ByteSize

/-- The text begins with the name of the command; `body` are the tokens behind the name, and what
ends the statement begins at `stop`. -/
def CommandTable.Directs (table : CommandTable) (text : String) (command : Command)
    (body : List Token) (stop : Nat) : Prop :=
  ∃ statement slice, Statement.read text = .ok statement ∧
    table.classify statement = .internal command slice ∧ Ends text.utf8ByteSize slice body stop

/-- What a fault says stands in the text at its position. -/
def Fault.PointsInto (table : CommandTable) (text : String) : Fault → Prop
  | .lexical message position => ∃ enclosure before rest,
      message = "Unterminated " ++ enclosure.name ∧ text.toList = before ++ rest ∧
        position = byteLength before ∧ Opens enclosure rest ∧ IsUnclosed enclosure rest
  | .unknownToken lexeme position => ∃ before c rest,
      lexeme = .ofList [c] ∧ text.toList = before ++ c :: rest ∧ position = byteLength before
  | .argumentType position _ lexeme _ =>
      IsSlice text position (position + lexeme.utf8ByteSize) lexeme ∧
        (lexeme = "" → EndsAt text position ∧
          ∃ command body, table.Directs text command body position)
  | .duplicateOption name position => ∃ command body stop values front options token rest option,
      table.Directs text command body stop ∧ body = values ++ (front ++ token :: rest) ∧
        values.length = command.arguments.length ∧ command.AreClausesOf [] front options ∧
        option ∈ options ∧ option.name.text = name ∧
        token.isWord = true ∧ alike token.lexeme name = true ∧
        IsSlice text position (position + token.lexeme.utf8ByteSize) token.lexeme ∧
        position = token.position
  | .argumentCount name expected actual position => ∃ command body stop,
      table.Directs text command body stop ∧ name = command.name ∧
        expected = command.arguments.length ∧
        (actual < expected ∧ actual = body.length ∧ position = stop ∧ EndsAt text position ∨
          expected < actual ∧ ∃ values front options token rest,
            body = values ++ (front ++ token :: rest) ∧ values.length = expected ∧
              command.AreClausesOf [] front options ∧ (∀ option, ¬ command.Names token option) ∧
              IsSlice text position (position + token.lexeme.utf8ByteSize) token.lexeme ∧
              position = token.position)
  | .handler .. | .engine _ => False

theorem isValid_byteLength {text : String} {before rest : List Char}
    (h : text.toList = before ++ rest) : (⟨byteLength before⟩ : String.Pos.Raw).IsValid text := by
  have hs : text.toList = before ++ ([] ++ rest) := h
  exact (isSlice_of_toList hs).start_valid

theorem isSlice_empty {text : String} {position : Nat}
    (h : (⟨position⟩ : String.Pos.Raw).IsValid text) : IsSlice text position position "" := by
  refine ⟨h, h, ?_⟩
  simp

theorem EndsAt.isValid {text : String} {position : Nat} (h : EndsAt text position) :
    (⟨position⟩ : String.Pos.Raw).IsValid text := by
  rcases h with h | rfl
  · exact h.start_valid
  · exact String.Pos.Raw.isValid_rawEndPos

namespace Fault

variable {table : CommandTable} {text : String} {fault : Fault}

theorem PointsInto.exists_position (h : fault.PointsInto table text) :
    ∃ position, fault.position = some position ∧
      (⟨position⟩ : String.Pos.Raw).IsValid text ∧ position ≤ text.utf8ByteSize := by
  suffices hv : ∃ position, fault.position = some position ∧
      (⟨position⟩ : String.Pos.Raw).IsValid text by
    obtain ⟨position, hp, hv⟩ := hv
    exact ⟨position, hp, hv, hv.le_utf8ByteSize⟩
  cases fault with
  | lexical message position =>
    obtain ⟨_, before, rest, _, he, rfl, _⟩ := h
    exact ⟨_, rfl, isValid_byteLength he⟩
  | unknownToken lexeme position =>
    obtain ⟨before, c, rest, _, he, rfl⟩ := h
    exact ⟨_, rfl, isValid_byteLength he⟩
  | argumentCount name expected actual position =>
    obtain ⟨_, _, _, _, _, _, ⟨_, _, _, he⟩ | ⟨_, _, _, _, _, _, _, _, _, _, hs, _⟩⟩ := h
    · exact ⟨_, rfl, he.isValid⟩
    · exact ⟨_, rfl, hs.start_valid⟩
  | argumentType => exact ⟨_, rfl, h.1.start_valid⟩
  | duplicateOption name position =>
    obtain ⟨_, _, _, _, _, _, _, _, _, _, _, _, _, _, _, _, _, hs, _⟩ := h
    exact ⟨_, rfl, hs.start_valid⟩
  | handler => cases h
  | engine => cases h

theorem PointsInto.state_eq (h : fault.PointsInto table text) : fault.state = .syntaxError := by
  cases fault with
  | handler => cases h
  | engine => cases h
  | _ => rfl

end Fault

namespace CommandTable

variable {table : CommandTable} {text : String} {command : Command} {body : List Token}
  {stop : Nat}

theorem Directs.stands (h : table.Directs text command body stop) :
    EndsAt text stop ∧ body.Pairwise (·.position < ·.position) ∧
      ∀ token ∈ body, token.position < stop ∧
        IsSlice text token.position token.stop token.lexeme ∧ token.lexeme ≠ "" := by
  obtain ⟨statement, slice, hr, hc, he⟩ := h
  obtain ⟨_, _, hd⟩ := opens_of_classify hc
  have ht := Statement.tiles_of_read hr
  have hm : ∀ token ∈ slice, token ∈ statement.tokens := fun token hm => by
    rw [hd] at hm
    exact List.mem_of_mem_drop hm
  have hp : slice.Pairwise (·.position < ·.position) := by
    rw [hd]
    exact ((pairwise_of_tiles ht).imp fun h => h.1).sublist (List.drop_sublist ..)
  have hs : EndsAt text stop := by
    cases he with
    | @semicolon _ token hsym =>
      obtain ⟨_, hl⟩ : token.kind = .punctuation ∧ token.lexeme = ";" := by
        simpa [Token.isSymbol] using hsym
      have hslice := isSlice_of_tiles ht (hm token (by simp))
      rw [Token.stop, hl] at hslice
      exact .inl hslice
    | finish => exact .inr rfl
  obtain ⟨last, rest, rfl, rfl⟩ := he.exists_eq_append
  obtain ⟨hb, _, hl⟩ := List.pairwise_append.1 hp
  refine ⟨hs, hb, fun token ht' => ?_⟩
  have hlt := hl token ht' last (by simp)
  have hin := hm token (by simp [ht'])
  refine ⟨hlt, isSlice_of_tiles ht hin, fun hempty => ?_⟩
  -- only the token that closes the statement is empty, and it stands at the end of the text
  obtain ⟨others, ho, hne⟩ := exists_body_of_tiles ht
  rw [ho] at hin
  rcases List.mem_append.1 hin with hin | hin
  · exact (hne token hin).2 hempty
  · obtain rfl := List.mem_singleton.1 hin
    have hle := hs.isValid.le_utf8ByteSize
    rw [byteLength_toList] at hlt
    simp only [Token.finish] at hlt hle
    omega

end CommandTable

namespace Router

variable {router : Router} {text : String} {fault : Fault}

theorem prepare_eq_error_iff : router.prepare text = .error fault ↔
    Statement.read text = .error fault ∨
      ∃ statement command slice, Statement.read text = .ok statement ∧
        router.table.classify statement = .internal command slice ∧
        Arguments.read command slice = .error fault := by
  unfold prepare
  cases hr : Statement.read text with
  | error other => simp
  | ok statement =>
    cases hc : router.table.classify statement with
    | forward raw => simp [hc]
    | internal command slice =>
      cases ha : Arguments.read command slice with
      | error other => simp [hc, ha]
      | ok arguments => simp [hc, ha]

theorem pointsInto_of_read (table : CommandTable) (h : Statement.read text = .error fault) :
    fault.PointsInto table text := by
  rw [Statement.read_eq_outcome] at h
  obtain ⟨before, c, rest, reason, he, ⟨signed, hr⟩, rfl⟩ :=
    isObstructed_of_outcome (Argument.error_of_map_eq_error h)
  rw [Nat.zero_add]
  cases reason with
  | unclosed enclosure =>
    obtain ⟨ho, hn⟩ := isUnclosed_of_read hr
    exact ⟨enclosure, before, c :: rest, rfl, he, rfl, ho, hn⟩
  | stray character =>
    obtain rfl := Start.eq_of_read_stray hr
    exact ⟨before, character, rest, rfl, he, rfl⟩

theorem pointsInto_of_breaksOff {table : CommandTable} {command : Command} {body : List Token}
    {stop : Nat} (hd : table.Directs text command body stop)
    (hl : command.arguments.length ≤ body.length)
    (h : command.BreaksOff stop [] (body.drop command.arguments.length) fault) :
    fault.PointsInto table text := by
  obtain ⟨he, _, hs⟩ := hd.stands
  obtain ⟨front, options, rest, hb, hc, hf⟩ := h
  have hv := List.length_take_of_le hl
  have hb : body = body.take command.arguments.length ++ (front ++ rest) := by
    rw [← hb, List.take_append_drop]
  cases hf with
  | @surplus token rest actual hn ha =>
    have hm : token ∈ body := by
      rw [hb]
      simp
    exact ⟨command, body, stop, hd, rfl, rfl,
      .inr ⟨ha, _, front, options, token, rest, hb, hv, hc, hn, (hs token hm).2.1, rfl⟩⟩
  | @repeated token rest option hn hu =>
    have hm : token ∈ body := by
      rw [hb]
      simp
    rw [List.append_nil] at hu
    obtain ⟨earlier, ho, heq⟩ := List.mem_map.1 hu
    exact ⟨command, body, stop, _, front, options, token, rest, earlier, hd, hb, hv, hc, ho,
      by rw [heq], hn.1, hn.2.1, (hs token hm).2.1, rfl⟩
  | missing => exact ⟨isSlice_empty he.isValid, fun _ => ⟨he, command, body, hd⟩⟩

theorem pointsInto_of_arguments {table : CommandTable} {statement : Statement} {command : Command}
    {slice : List Token} (hr : Statement.read text = .ok statement)
    (hc : table.classify statement = .internal command slice)
    (h : Arguments.read command slice = .error fault) : fault.PointsInto table text := by
  obtain ⟨tokens, rfl⟩ := exists_append_finish_of_classify hr hc
  have hd : table.Directs text command _ _ := ⟨statement, _, hr, hc, ends_dropTerminator tokens _⟩
  obtain ⟨he, hp, hs⟩ := hd.stands
  rcases Arguments.fault_of_read rfl hp (fun token hm => (hs token hm).1) h with
    ⟨hn, rfl⟩ | ⟨hn, hb⟩ | ⟨token, hm, kind, message, rfl⟩
  · exact ⟨command, _, _, hd, rfl, rfl, .inl ⟨hn, rfl, rfl, he⟩⟩
  · exact pointsInto_of_breaksOff hd hn hb
  · exact ⟨(hs token hm).2.1, fun hempty => absurd hempty (hs token hm).2.2⟩

/-- The fault of a text that cannot be prepared is a syntax error and has a position in the text, on
the boundary of a character, where what it says stands. -/
theorem prepare_error_points (h : router.prepare text = .error fault) :
    fault.state.code = "42000" ∧
      (∃ position, fault.position = some position ∧ position ≤ text.utf8ByteSize ∧
        (⟨position⟩ : String.Pos.Raw).IsValid text) ∧
      fault.PointsInto router.table text := by
  have hp : fault.PointsInto router.table text := by
    rcases prepare_eq_error_iff.1 h with hr | ⟨statement, command, slice, hr, hc, ha⟩
    · exact pointsInto_of_read router.table hr
    · exact pointsInto_of_arguments hr hc ha
  obtain ⟨position, hpos, hv, hl⟩ := hp.exists_position
  exact ⟨by rw [hp.state_eq]; rfl, ⟨position, hpos, hl, hv⟩, hp⟩

theorem prepare_error_points_surplus :
    let router := ofTable (Streaming.builtin .standard)
    let text := "SET STREAMING ON ORDERED 'é' ordered;"
    let fault := Fault.argumentCount "SET STREAMING" 1 2 25
    router.prepare text = .error fault ∧ fault.state.code = "42000" ∧
      fault.PointsInto router.table text := by
  intro router text fault
  have h : router.prepare text = .error fault := by decide +kernel
  obtain ⟨hc, _, hp⟩ := prepare_error_points h
  exact ⟨h, hc, hp⟩

end Router

end SqlDispatch
