import Mathlib.Control.Monad.Basic
import SqlDispatch.Proofs.Token.Cursor

set_option autoImplicit false

/-!
A cursor that reads a whole text. A turn of the loop goes over exactly what starts at its place
(`follows_turn`), so over one character at least, or it comes upon an obstacle or the end; and turn
after turn gives the pieces of the text (`exists_run_loop`). The arms of a turn that move by a loop
alone make their way because the character for which they are chosen satisfies the condition of the
loop: `goes_word_of_start` for words and `number_cons_pos` for numbers.
-/

namespace SqlDispatch

open Text

namespace Cursor

variable {text : String} {turns : Nat} {α β : Type}

def FindsLexeme (text : String) (program : Cursor TokenKind) (c : Char) (cs : List Char) :
    Start → Prop
  | .gap _ => False
  | .lexeme kind n => Goes text program (c :: cs) (n + 1) (.ok kind)
  | .obstacle reason => ∃ n, Goes text program (c :: cs) n (.error reason)

/-- A turn goes over what starts at the place, unless that is an obstacle. -/
def Follows (text : String) (program : Cursor Turn) (c : Char) (cs : List Char) : Start → Prop
  | .gap n => Goes text program (c :: cs) (n + 1) (.ok .gap)
  | .lexeme kind n =>
    Goes text program (c :: cs) (n + 1) (.ok (.lexeme kind (.ofList (c :: cs.take n))))
  | .obstacle reason => ∃ n, Goes text program (c :: cs) n (.error reason)

theorem findsLexeme_quoted (enough : text.length < turns) (enclosure : Enclosure)
    (kind : TokenKind) (mark c : Char) (cs : List Char) :
    FindsLexeme text (do quoted text turns enclosure mark; return kind) c cs
      (Start.closed enclosure (.lexeme kind) (Extent.quoted mark cs)) := by
  have hq : Goes text _ _ _ _ := goes_quoted enough enclosure mark c cs
  cases hn : Extent.quoted mark cs with
  | none =>
    rw [hn] at hq
    exact ⟨_, hq.bind_error⟩
  | some n =>
    rw [hn] at hq
    exact hq.map fun _ => kind

theorem opensWord_eq {c : Char} (h : isBlank c = false) : opensWord c = Extent.isWordStart c := by
  simp [opensWord, Extent.isWordStart, h]

theorem goes_word_of_start (enough : text.length < turns) {c : Char}
    (h : Extent.isWordStart c = true) (cs : List Char) :
    Goes text (word text turns) (c :: cs) (Extent.run Extent.isWordPart cs + 1)
      (.ok (Start.word (c :: cs.take (Extent.run Extent.isWordPart cs)))) := by
  have hp : Extent.isWordPart c = true := by rw [Extent.isWordPart, h]; rfl
  have hw : Goes text _ _ _ _ := goes_word enough (c :: cs)
  rw [List.takeWhile_cons_of_pos hp, ← Extent.take_run] at hw
  rwa [Extent.run, List.takeWhile_cons_of_pos hp] at hw

theorem number_cons_pos {c : Char} {cs : List Char} (h : c.isDigit = true ∨ c = '.') :
    0 < Extent.number (c :: cs) := by
  rcases h with h | rfl
  · exact Grammar.number_pos (Extent.startsNumber_iff.2 (.inl h))
  · have hw : Extent.run Char.isDigit ('.' :: cs) = 0 := rfl
    simp only [Extent.number, hw, List.drop_zero, Extent.fraction]
    omega

theorem findsLexeme_number (enough : text.length < turns) {c : Char} {cs : List Char}
    (h : c.isDigit = true ∨ c = '.') :
    FindsLexeme text (do number text turns; return .number) c cs
      (.lexeme .number (Extent.number (c :: cs) - 1)) := by
  have hn : Goes text _ _ _ _ := (goes_number enough (c :: cs)).map fun _ => TokenKind.number
  rwa [← Nat.sub_add_cancel (number_cons_pos h)] at hn

theorem findsLexeme_read (enough : text.length < turns) (signed : Bool) {c : Char}
    {cs : List Char} (hb : isBlank c = false) (hl : ¬ (c = '-' ∧ cs.head? = some '-'))
    (hc : ¬ (c = '/' ∧ cs.head? = some '*')) :
    FindsLexeme text (lexeme text turns signed c cs) c cs (Start.read signed c cs) := by
  rw [Start.read, if_neg (by simp [hb]), if_neg hl, if_neg hc, lexeme, opensWord_eq hb]
  split
  · exact findsLexeme_quoted enough ..
  split
  · exact findsLexeme_quoted enough ..
  split
  · rename_i hw
    exact goes_word_of_start enough hw cs
  split
  · rename_i hn
    exact findsLexeme_number enough (hn.imp_right And.left)
  split
  · have hn : Goes text _ _ _ _ := (goes_number enough cs).map fun _ => TokenKind.number
    exact (goes_discard (goes_advance c cs)).step hn
  split
  · exact (goes_punctuation c cs).map fun _ => TokenKind.punctuation
  · exact ⟨0, goes_throw _ _⟩

theorem follows_of_findsLexeme {signed : Bool} {c : Char} {cs : List Char} {start : Start}
    (h : FindsLexeme text (lexeme text turns signed c cs) c cs start) :
    Follows text (do
        let found ← reading text (lexeme text turns signed c cs)
        return .lexeme found.1 found.2) c cs start := by
  cases start with
  | gap => exact h.elim
  | lexeme kind n => exact (goes_reading h).map fun found => Turn.lexeme found.1 found.2
  | obstacle reason =>
    obtain ⟨n, hn⟩ := h
    exact ⟨n, (goes_reading_error hn).bind_error⟩

theorem follows_comment (enough : text.length < turns) {cs : List Char} (h : cs.head? = some '*') :
    Follows text (do blockComment text turns; return .gap) '/' cs
      (Start.closed .blockComment (fun n => .gap (n + 1)) (Extent.blockComment 0 (cs.drop 1))) := by
  obtain ⟨cs, rfl⟩ := List.head?_eq_some_iff.1 h
  have hq : Goes text _ _ _ _ := goes_blockComment enough '/' '*' cs
  rw [List.drop_succ_cons, List.drop_zero]
  cases hn : Extent.blockComment 0 cs with
  | none =>
    rw [hn] at hq
    exact ⟨_, hq.bind_error⟩
  | some n =>
    rw [hn] at hq
    exact hq.map fun _ => Turn.gap

theorem follows_lineComment (enough : text.length < turns) (cs : List Char) :
    Follows text (do discard (takeWhile text turns (· != '\n')); return .gap) '-' cs
      (.gap (Extent.lineComment cs)) :=
  (goes_discard (goes_takeWhile enough (· != '\n') ('-' :: cs))).map fun _ => Turn.gap

theorem follows_piece (enough : text.length < turns) (signed : Bool) (c : Char) (cs : List Char) :
    Follows text (piece text turns signed c cs) c cs (Start.read signed c cs) := by
  unfold piece
  split
  · rename_i hb
    rw [Start.read, if_pos hb]
    exact (goes_discard (goes_advance c cs)).map fun _ => Turn.gap
  rename_i hb
  split
  · rename_i hl
    rw [Start.read, if_neg hb, if_pos hl, hl.1]
    exact follows_lineComment enough cs
  rename_i hl
  split
  · rename_i hc
    rw [Start.read, if_neg hb, if_neg hl, if_pos hc, hc.1]
    exact follows_comment enough hc.2
  · rename_i hc
    exact follows_of_findsLexeme (findsLexeme_read enough signed (Bool.eq_false_iff.2 hb) hl hc)

theorem Follows.look {program : Cursor α} {next : α → Cursor Turn} {c : Char} {cs : List Char}
    {a : α} {start : Start} (hp : Goes text program (c :: cs) 0 (.ok a))
    (hn : Follows text (next a) c cs start) : Follows text (program >>= next) c cs start := by
  cases start with
  | gap n => exact hp.look hn
  | lexeme kind n => exact hp.look hn
  | obstacle reason =>
    obtain ⟨n, hn⟩ := hn
    exact ⟨n, hp.look hn⟩

theorem follows_turn (enough : text.length < turns) (signed : Bool) (c : Char) (cs : List Char) :
    Follows text (turn text turns signed) c cs (Start.read signed c cs) :=
  .look (goes_ahead (c :: cs)) (follows_piece enough signed c cs)

theorem goes_turn_nil (turns : Nat) (signed : Bool) :
    Goes text (turn text turns signed) [] 0 (.ok .finish) :=
  (goes_ahead []).look (goes_pure _ _)

theorem run_liftM {program : Cursor Turn} {position : Nat} {last : Except Obstacle Turn × Nat}
    (h : program.run.run position = some last) :
    (liftM program.run : ExceptT Fault (StateT Nat Option) _).run.run position =
      some (.ok last.1, last.2) := by
  change (program.run.run position).bind _ = _
  rw [h]
  rfl

def goOn (text : String) (turns left : Nat) (tokens : List Token) (start : Nat) :
    Except Obstacle Turn → ExceptT Fault (StateT Nat Option) (List Token)
  | .error obstacle => throw (obstacle.fault start)
  | .ok .finish => return tokens ++ [.finish text.utf8ByteSize]
  | .ok .gap => loop text turns left tokens
  | .ok (.lexeme kind slice) => loop text turns left (tokens ++ [⟨slice, kind, start⟩])

theorem run_loop (left : Nat) (tokens : List Token) {position stop : Nat}
    {outcome : Except Obstacle Turn}
    (h : (turn text turns (signedAfter tokens)).run.run position = some (outcome, stop)) :
    (loop text turns (left + 1) tokens).run.run position =
      (goOn text turns left tokens position outcome).run.run stop := by
  rw [loop, run_bind, run_get]
  dsimp only [Option.bind_some]
  rw [run_bind, run_liftM h]
  rcases outcome with _ | _ | _ | _ <;> rfl

theorem signedAfter_concat (tokens : List Token) (lexeme : List Char) (kind : TokenKind)
    (position : Nat) :
    signedAfter (tokens ++ [⟨.ofList lexeme, kind, position⟩]) = signMayFollow kind lexeme := by
  simp [signedAfter]

theorem append_take_drop (front : String) (c : Char) (cs : List Char) (n : Nat) :
    front ++ .ofList (c :: cs) = front ++ .ofList (c :: cs.take n) ++ .ofList (cs.drop n) := by
  rw [String.append_assoc, ← String.ofList_append, List.cons_append, List.take_append_drop]

theorem utf8ByteSize_append_ofList (front : String) (cs : List Char) :
    (front ++ .ofList cs).utf8ByteSize = front.utf8ByteSize + byteLength cs := by
  rw [String.utf8ByteSize_append, byteLength_eq]

theorem length_drop_le (n : Nat) (cs : List Char) (k : Nat) :
    (cs.drop n).length ≤ k + cs.length := by
  rw [List.length_drop]
  omega

/-- From every place of the text the loop comes to its end, with the tokens that are read from there
on behind those it has. It takes a turn for each character ahead at most, and one more. -/
theorem exists_run_loop (enough : text.length < turns) (signed : Bool) (cs : List Char) (left : Nat)
    (tokens : List Token) (front : String) (hn : cs.length ≤ left)
    (ht : text = front ++ .ofList cs) (hs : signedAfter tokens = signed) :
    ∃ stop, (loop text turns (left + 1) tokens).run.run front.utf8ByteSize =
      some (((cut signed cs).outcome front.utf8ByteSize).map (tokens ++ ·), stop) := by
  induction signed, cs using cut.induct generalizing left tokens front with
  | case1 signed =>
    have ho := goes_turn_nil turns (signedAfter tokens) front ht
    rw [String.ofList_nil, String.append_empty] at ht
    rw [run_loop _ tokens ho, Cut.outcome_nil, goOn, ht]
    exact ⟨_, rfl⟩
  | case2 signed c cs n hr ih =>
    obtain ⟨left, rfl⟩ := Nat.exists_eq_add_of_le' hn
    have hf := follows_turn enough signed c cs
    rw [hr, ← hs] at hf
    have hl := run_loop (left + (c :: cs).length) tokens (hf front ht)
    rw [append_take_drop front c cs n] at ht
    obtain ⟨stop, hi⟩ := ih _ tokens _ (length_drop_le n cs left) ht hs
    rw [Cut.outcome_of_gap hr, ← utf8ByteSize_append_ofList]
    exact ⟨stop, hl.trans hi⟩
  | case3 signed c cs kind n hr lexeme =>
    rename_i ih
    obtain ⟨left, rfl⟩ := Nat.exists_eq_add_of_le' hn
    have hf := follows_turn enough signed c cs
    rw [hr, ← hs] at hf
    have hl := run_loop (left + (c :: cs).length) tokens (hf front ht)
    rw [append_take_drop front c cs n] at ht
    obtain ⟨stop, hi⟩ := ih _ _ _ (length_drop_le n cs left) ht
      (signedAfter_concat tokens lexeme kind front.utf8ByteSize)
    refine ⟨stop, ?_⟩
    rw [Cut.outcome_of_lexeme hr, ← utf8ByteSize_append_ofList]
    refine hl.trans (hi.trans ?_)
    cases (cut (signMayFollow kind lexeme) (cs.drop n)).outcome
        (front ++ .ofList (c :: cs.take n)).utf8ByteSize with
    | error => rfl
    | ok later => simp [Except.map, lexeme]
  | case4 signed c cs reason hr =>
    have hf := follows_turn enough signed c cs
    rw [hr, ← hs] at hf
    obtain ⟨n, hn⟩ := hf
    rw [run_loop _ tokens (hn front ht), Cut.outcome_of_obstacle hr]
    exact ⟨_, rfl⟩

theorem scan_eq (enough : text.length < turns) : scan text turns = some (Statement.read text) := by
  have ht : text = "" ++ .ofList text.toList := by simp
  obtain ⟨left, rfl⟩ := Nat.exists_eq_add_one.2 (Nat.zero_lt_of_lt enough)
  obtain ⟨stop, hl⟩ :=
    exists_run_loop enough true text.toList left [] "" (Nat.le_of_lt_succ enough) ht rfl
  rw [String.utf8ByteSize_empty] at hl
  rw [scan, hl, Statement.read_eq_outcome]
  cases (cut true text.toList).outcome 0 <;> rfl

/-- From every place between two characters the program ends at such a place, and not before the
first; every slice that it asks for is there. -/
def Sound (text : String) (program : Cursor α) : Prop :=
  ∀ front rest : String, front ++ rest = text → ∃ outcome passed back, passed ++ back = rest ∧
    program.run.run front.utf8ByteSize = some (outcome, (front ++ passed).utf8ByteSize)

theorem Goes.exists_run {program : Cursor α} {cs : List Char} {n : Nat}
    {result : Except Obstacle α} (h : Goes text program cs n result) {front rest : String}
    (ht : front ++ rest = text) (hr : rest.toList = cs) :
    ∃ back, .ofList (cs.take n) ++ back = rest ∧
      program.run.run front.utf8ByteSize =
        some (result, (front ++ .ofList (cs.take n)).utf8ByteSize) := by
  have he : rest = .ofList cs := by rw [← hr, String.ofList_toList]
  refine ⟨.ofList (cs.drop n), ?_, h front (by rw [← ht, he])⟩
  rw [← String.ofList_append, List.take_append_drop, he]

theorem sound_of_goes {program : Cursor α}
    (h : ∀ cs, ∃ n result, Goes text program cs n result) : Sound text program := by
  intro front rest ht
  obtain ⟨n, result, hg⟩ := h rest.toList
  obtain ⟨back, hb, hr⟩ := hg.exists_run ht rfl
  exact ⟨result, _, back, hb, hr⟩

theorem Sound.bind {program : Cursor α} {next : α → Cursor β} (hp : Sound text program)
    (hn : ∀ a, Sound text (next a)) : Sound text (program >>= next) := by
  intro front rest ht
  obtain ⟨outcome, passed, back, rfl, hr⟩ := hp front rest ht
  rw [run_bind, hr]
  cases outcome with
  | error reason => exact ⟨.error reason, passed, back, rfl, rfl⟩
  | ok a =>
    rw [← String.append_assoc] at ht
    obtain ⟨outcome, more, back, rfl, ha⟩ := hn a _ _ ht
    refine ⟨outcome, passed ++ more, back, String.append_assoc .., ?_⟩
    rw [← String.append_assoc]
    exact ha

theorem Sound.discard {program : Cursor α} (h : Sound text program) :
    Sound text (discard program) := by
  rw [Functor.discard, map_const, Function.comp_apply, ← bind_pure_comp]
  exact h.bind fun _ => sound_of_goes fun cs => ⟨_, _, goes_pure _ cs⟩

theorem sound_advance : Sound text (advance text) := by
  refine sound_of_goes fun cs => ?_
  cases cs with
  | nil => exact ⟨_, _, goes_advance_nil⟩
  | cons c cs => exact ⟨_, _, goes_advance c cs⟩

theorem sound_accept (c : Char) : Sound text (accept text c) := by
  refine sound_of_goes fun cs => ?_
  by_cases hc : cs.head? = some c
  · obtain ⟨cs, rfl⟩ := List.head?_eq_some_iff.1 hc
    exact ⟨_, _, goes_accept c cs⟩
  · exact ⟨_, _, goes_accept_of_ne hc⟩

theorem sound_quoted (enough : text.length < turns) (enclosure : Enclosure) (mark : Char) :
    Sound text (quoted text turns enclosure mark) :=
  sound_advance.discard.bind fun _ =>
    sound_of_goes fun cs => ⟨_, _, goes_closeQuote enough enclosure mark cs⟩

theorem sound_blockComment (enough : text.length < turns) :
    Sound text (blockComment text turns) :=
  sound_advance.discard.bind fun _ => sound_advance.discard.bind fun _ =>
    sound_of_goes fun cs => ⟨_, _, goes_closeComment enough 0 cs⟩

theorem sound_punctuation : Sound text (punctuation text) := by
  refine sound_of_goes fun cs => ?_
  cases cs with
  | nil => exact ⟨_, _, goes_advance_nil.look (goes_pure _ _)⟩
  | cons c cs => exact ⟨_, _, goes_punctuation c cs⟩

/-- A turn in front of `rest` that goes over `passed` makes progress: only at the end of the text
does it finish, and otherwise it is at fault or goes over one character at least. -/
def Progresses (rest passed : String) : Except Obstacle Turn → Prop
  | .error _ => rest ≠ ""
  | .ok .finish => rest = ""
  | .ok .gap => passed ≠ ""
  | .ok (.lexeme _ slice) => slice = passed ∧ passed ≠ ""

theorem exists_turn (enough : text.length < turns) (signed : Bool) {front rest : String}
    (ht : front ++ rest = text) :
    ∃ outcome passed back, passed ++ back = rest ∧
      (turn text turns signed).run.run front.utf8ByteSize =
        some (outcome, (front ++ passed).utf8ByteSize) ∧
      Progresses rest passed outcome := by
  cases hr : rest.toList with
  | nil =>
    obtain ⟨back, hb, ho⟩ := (goes_turn_nil turns signed).exists_run ht hr
    exact ⟨_, _, back, hb, ho, String.toList_eq_nil_iff.1 hr⟩
  | cons c cs =>
    have hf := follows_turn enough signed c cs
    have hn (n : Nat) : String.ofList ((c :: cs).take (n + 1)) ≠ "" := by
      simp [← String.toList_inj]
    cases hs : Start.read signed c cs with
    | gap n =>
      rw [hs] at hf
      obtain ⟨back, hb, ho⟩ := Goes.exists_run hf ht hr
      exact ⟨_, _, back, hb, ho, hn n⟩
    | lexeme kind n =>
      rw [hs] at hf
      obtain ⟨back, hb, ho⟩ := Goes.exists_run hf ht hr
      exact ⟨_, _, back, hb, ho, rfl, hn n⟩
    | obstacle reason =>
      rw [hs] at hf
      obtain ⟨n, hg⟩ := hf
      obtain ⟨back, hb, ho⟩ := hg.exists_run ht hr
      refine ⟨_, _, back, hb, ho, fun he => ?_⟩
      rw [he] at hr
      cases hr

/-- Wherever in a text a turn begins, it comes to an obstacle, to the end of the text or over one
character at least; the programs that it is made of come to an end as well, though they may stand
still. None of them asks for a slice that is not there, that is, for one of which the ends are out
of order, out of the text or inside a character. So every loop ends within one turn more than the
text has characters, and what the last of them has read is what is read from the text. -/
theorem scan_progresses (text : String) (turns : Nat) (enough : text.length < turns) :
    (∀ start stop slice, slice? text start stop = some slice ↔
      start ≤ stop ∧ IsSlice text start stop slice) ∧
    (∀ signed front rest, front ++ rest = text →
      ∃ outcome passed back, passed ++ back = rest ∧
        (turn text turns signed).run.run front.utf8ByteSize =
          some (outcome, (front ++ passed).utf8ByteSize) ∧
        Progresses rest passed outcome) ∧
    ((∀ n, Sound text (peek text n)) ∧ Sound text (advance text) ∧
      (∀ c, Sound text (accept text c)) ∧ (∀ p, Sound text (takeWhile text turns p)) ∧
      (∀ enclosure mark, Sound text (quoted text turns enclosure mark)) ∧
      Sound text (blockComment text turns) ∧ Sound text (number text turns) ∧
      Sound text (punctuation text)) ∧
    scan text turns = some (Statement.read text) := by
  refine ⟨fun start stop slice => slice?_eq_some_iff,
    fun signed front rest ht => exists_turn enough signed ht,
    ⟨fun n => ?_, sound_advance, sound_accept, fun p => ?_, sound_quoted enough,
      sound_blockComment enough, ?_, sound_punctuation⟩, scan_eq enough⟩
  · exact sound_of_goes fun cs => ⟨_, _, goes_peek n cs⟩
  · exact sound_of_goes fun cs => ⟨_, _, goes_takeWhile enough p cs⟩
  · exact sound_of_goes fun cs => ⟨_, _, goes_number enough cs⟩

theorem scan_progresses_unclosed :
    "é 'a".length < 5 ∧
      scan "é 'a" 5 = some (.error (.lexical "Unterminated string literal" 3)) := by
  have h : "é 'a".length < 5 := by decide +kernel
  have hr : Statement.read "é 'a" = .error (.lexical "Unterminated string literal" 3) := by
    decide +kernel
  have hs := (scan_progresses "é 'a" 5 h).2.2.2
  rw [hr] at hs
  exact ⟨h, hs⟩

end Cursor

end SqlDispatch
