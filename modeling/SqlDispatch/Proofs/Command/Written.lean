import Mathlib.Data.List.Chain
import SqlDispatch.Command.Text
import SqlDispatch.Proofs.Token.Layout
import SqlDispatch.Proofs.Token.Quoting

set_option autoImplicit false

/-!
Commands as they are written: words and values with one space between them. Every item is read back
as one token of its own (`exists_read_items_append`), except that the sign of a negative number is a
mark of punctuation where it could stand between two operands (`exists_hyphen_of_read_items`).
-/

namespace SqlDispatch

open Text Grammar

def IsBareWord (text : String) : Prop :=
  ∃ kind : TokenKind, kind.isWord = true ∧
    Statement.read text = .ok ⟨text, [⟨text, kind, 0⟩, .finish text.utf8ByteSize]⟩

inductive Item where
  | word (name : Capitals)
  | value (argument : Argument)
  deriving DecidableEq

namespace Item

def text : Item → String
  | .word name => name.text
  | .value argument => argument.text

def kind : Item → TokenKind
  | .word name => Start.word name.text.toList
  | .value (.boolean _) | .value (.integer _) => .number
  | .value (.identifier _) => .quotedIdentifier
  | .value (.stringLiteral _) => .stringLiteral

/-- A sign after the item belongs to a number: it is a keyword that does not end an operand. -/
def TakesSign : Item → Prop
  | .word name => isKeyword name.text = true ∧ name.text ∉ operandKeywords
  | .value _ => False

def IsNegative : Item → Prop
  | .value (.integer number) => number < 0
  | _ => False

instance : DecidablePred TakesSign
  | .word name =>
    inferInstanceAs (Decidable (isKeyword name.text = true ∧ name.text ∉ operandKeywords))
  | .value _ => instDecidableFalse

instance : DecidablePred IsNegative
  | .value (.integer number) => inferInstanceAs (Decidable (number < 0))
  | .word _ | .value (.boolean _) | .value (.identifier _) | .value (.stringLiteral _) =>
    instDecidableFalse

def IsSound : Item → Prop
  | .word name => IsWord name.text.toList
  | .value _ => True

theorem signMayFollow_iff (item : Item) :
    signMayFollow item.kind item.text.toList = true ↔ item.TakesSign := by
  cases item with
  | word name =>
    simp only [kind, Start.word, text, TakesSign, String.ofList_toList]
    cases hk : isKeyword name.text <;> simp [signMayFollow, name.upper_text]
  | value argument => cases argument <;> simp [kind, signMayFollow, TakesSign]

end Item

theorem of_mem_keywords {word : String} (h : word ∈ keywords) :
    Grammar.IsWord word.toList ∧ (Capitals.ofText word).text = word := by
  have hall : (keywords.all fun word => word.toList.head?.any Extent.isWordStart &&
      word.toList.tail.all Extent.isWordPart && upper word == word) = true := by decide +kernel
  have hw := List.all_eq_true.1 hall word h
  simp only [Bool.and_eq_true, Option.any_eq_true, List.all_eq_true, beq_iff_eq] at hw
  obtain ⟨⟨⟨c, hc, hs⟩, hp⟩, hu⟩ := hw
  obtain ⟨rest, hrest⟩ := List.head?_eq_some_iff.1 hc
  rw [hrest, List.tail_cons] at hp
  exact ⟨⟨c, rest, hrest, hs, hp⟩, hu⟩

theorem ofText_inj_of_mem_keywords {a b : String} (ha : a ∈ keywords) (hb : b ∈ keywords) :
    Capitals.ofText a = .ofText b ↔ a = b := by
  refine ⟨fun h => ?_, congrArg _⟩
  rw [← (of_mem_keywords ha).2, h, (of_mem_keywords hb).2]

theorem Statement.read_of_outcome {text : String} {tokens : List Token} {stop : Nat}
    (h : (cut true text.toList).outcome 0 = .ok (tokens ++ [.finish stop])) :
    read text = .ok ⟨text, tokens ++ [.finish text.utf8ByteSize]⟩ := by
  have hr : read text = .ok ⟨text, tokens ++ [.finish stop]⟩ := by
    rw [read_eq_outcome, h]
    rfl
  obtain ⟨_, he⟩ := read_eq_ok_iff.1 hr
  obtain ⟨_, hf⟩ := List.append_inj' (congrArg Statement.tokens he) rfl
  rw [hr, hf]

theorem isWord_of_isBareWord {text : String} (h : IsBareWord text) : IsWord text.toList := by
  obtain ⟨kind, hk, h⟩ := h
  rw [Statement.read_eq_outcome] at h
  obtain ⟨tokens, ho, he⟩ := Argument.exists_of_map_eq_ok h
  cases he
  have ht : text.toList ≠ [] := by
    intro ht
    rw [ht, Cut.outcome_nil] at ho
    cases ho
  have ho : (cut true (text.toList ++ [])).outcome 0 =
      .ok [⟨.ofList text.toList, kind, 0⟩, .finish text.utf8ByteSize] := by simpa using ho
  obtain ⟨c, more, hc, hr, _⟩ := Cut.exists_read_of_outcome ht ho
  rw [hc]
  rw [List.append_nil] at hr
  generalize hn : more.length = n at hr
  cases Start.read_eq_iff.1 hr with
  | quoted hq => cases kind <;> simp_all [TokenKind.isWord, TokenKind.quote]
  | word hw =>
    have hl := run_isWordPart hw more
    rwa [← hn, List.take_length] at hl
  | number => cases hk
  | signedNumber => cases hk
  | symbol => cases hk

theorem Start.isWord_word (text : List Char) : (word text).isWord = true := by
  unfold word
  split <;> rfl

theorem Start.exists_read_word {signed : Bool} {text rest : List Char} (hw : IsWord text)
    (hr : ∀ c ∈ rest.head?, Extent.isWordPart c = false) :
    ∃ c more, text = c :: more ∧
      read signed c (more ++ rest) = .lexeme (word text) more.length := by
  obtain ⟨c, more, rfl, hs, hp⟩ := hw
  refine ⟨c, more, rfl, ?_⟩
  have hread : Reading signed c (more ++ rest) _ := .word hs
  rw [Extent.run_append hp, Extent.run_eq_zero hr, Nat.add_zero, List.take_left] at hread
  exact read_of_reading hread

theorem Cut.outcome_word_append {signed : Bool} {text rest : List Char} (hw : IsWord text)
    (hr : ∀ c ∈ rest.head?, Extent.isWordPart c = false) (position : Nat) :
    (cut signed (text ++ rest)).outcome position =
      ((cut (signMayFollow (Start.word text) text) rest).outcome
        (position + byteLength text)).map (⟨.ofList text, Start.word text, position⟩ :: ·) := by
  obtain ⟨c, more, hc, hread⟩ := Start.exists_read_word hw hr
  rw [hc, List.cons_append, Cut.outcome_of_lexeme (hc ▸ hread), List.take_left, List.drop_left]

theorem isBareWord_iff {text : String} : IsBareWord text ↔ IsWord text.toList := by
  refine ⟨isWord_of_isBareWord, fun h => ⟨Start.word text.toList, Start.isWord_word _, ?_⟩⟩
  have ho := @Cut.outcome_word_append true _ [] h (fun _ hc => nomatch hc) 0
  rw [List.append_nil, Cut.outcome_nil, String.ofList_toList] at ho
  exact @Statement.read_of_outcome text [_] _ ho

def EndsItem (cs : List Char) : Prop :=
  ∀ c ∈ cs.head?, Extent.isWordPart c = false ∧ c ≠ '.' ∧ ∀ q : Quote, c ≠ q.mark

theorem endsItem_nil : EndsItem [] := fun _ h => nomatch h

theorem endsItem_blank {b : Char} (h : isBlank b = true) (cs : List Char) : EndsItem (b :: cs) := by
  rintro _ ⟨⟩
  refine ⟨Start.isWordPart_of_isBlank h, ?_, fun q => ?_⟩
  · rintro rfl
    exact absurd h (by decide)
  · rintro rfl
    cases q <;> exact absurd h (by decide)

theorem EndsItem.head_ne_mark {cs : List Char} (h : EndsItem cs) (q : Quote) :
    cs.head? ≠ some q.mark := fun hm => (h _ hm).2.2 q rfl

theorem areDigits_digits (n : Nat) : AreDigits (digits n) :=
  (natural_eq_some_iff.1 (natural_digits n)).2.1

theorem digits_ne_nil (n : Nat) : digits n ≠ [] := (natural_eq_some_iff.1 (natural_digits n)).1

theorem number_append_of_endsItem {run rest : List Char} (hd : AreDigits run) (hr : EndsItem rest) :
    Extent.number (run ++ rest) = run.length := by
  have hf : Extent.fraction rest = 0 := Extent.fraction_eq_zero fun h => (hr _ h).2.1 rfl
  have he : Extent.exponent rest = 0 := by
    cases rest with
    | nil => rfl
    | cons c rest =>
      have hw := (hr c rfl).1
      have hc : (c == 'e' || c == 'E') = false := by
        rw [Bool.eq_false_iff, Ne, Bool.or_eq_true, beq_iff_eq, beq_iff_eq]
        rintro (rfl | rfl) <;> exact absurd hw (by decide)
      simp [Extent.exponent, hc]
  rw [Extent.number_append hd, hf, List.drop_zero, he, Nat.add_zero]
  intro c hc
  have hw := (hr c hc).1
  simp only [Extent.isWordPart, Bool.or_eq_false_iff] at hw
  exact hw.1.2

theorem Start.read_digits {signed : Bool} {c : Char} {more rest : List Char}
    (hd : AreDigits (c :: more)) (hr : EndsItem rest) :
    read signed c (more ++ rest) = .lexeme .number more.length := by
  have hn := number_append_of_endsItem hd hr
  have hread : Reading signed c (more ++ rest) _ := .number (.inl (hd c List.mem_cons_self))
  rw [List.cons_append] at hn
  rw [hn, List.length_cons, Nat.add_sub_cancel] at hread
  exact read_of_reading hread

theorem Start.read_signed_digits {sign : Char} {run rest : List Char} (hs : sign = '+' ∨ sign = '-')
    (hn : run ≠ []) (hd : AreDigits run) (hr : EndsItem rest) :
    read true sign (run ++ rest) = .lexeme .number run.length := by
  have hnumber : IsNumber run := ⟨run, [], (List.append_nil run).symm, .inl ⟨hn, hd⟩, .inl rfl⟩
  have hread : Reading true sign (run ++ rest) _ :=
    .signedNumber hs rfl (Extent.startsNumber_of_isNumber hnumber rest)
  rw [number_append_of_endsItem hd hr] at hread
  exact read_of_reading hread

theorem Start.read_encode_text {signed : Bool} {q : Quote} {kind : TokenKind}
    (hk : kind.quote = some q) (text : String) {rest : List Char} (hr : EndsItem rest) :
    ∃ c more, (q.encode text).toList = c :: more ∧
      read signed c (more ++ rest) = .lexeme kind more.length := by
  refine ⟨q.mark, q.twice text.toList ++ [q.mark], toList_encode q text, ?_⟩
  rw [List.append_assoc, List.singleton_append, read_twice hk text.toList (hr.head_ne_mark q)]
  simp

/-- Where a sign could stand between two operands it is a mark of punctuation. -/
theorem Start.read_hyphen {d : Char} (hd : d.isDigit = true) (rest : List Char) :
    read false '-' (d :: rest) = .lexeme .punctuation 0 := by
  have hn : ¬ OpensComment ('-' :: d :: rest) := by
    rw [opensComment_cons]
    rintro (⟨_, h⟩ | ⟨h, _⟩)
    · rw [Option.some.inj h] at hd
      exact absurd hd (by decide)
    · exact absurd h (by decide)
  have hp : ('-', d) ∉ Extent.pairs := fun hm => by
    have hall : ∀ pair ∈ Extent.pairs, pair.1 ≠ '-' := by decide
    exact hall _ hm rfl
  have hr : Reading false '-' (d :: rest) (.lexeme .punctuation (Extent.pair '-' (d :: rest))) :=
    .symbol (by decide) hn (by simp) (by simp)
  rw [Extent.pair, if_neg hp] at hr
  exact read_of_reading hr

namespace Item

theorem exists_read {item : Item} (hi : item.IsSound) {signed : Bool}
    (hs : item.IsNegative → signed = true) {rest : List Char} (hr : EndsItem rest) :
    ∃ c more, item.text.toList = c :: more ∧
      Start.read signed c (more ++ rest) = .lexeme item.kind more.length := by
  cases item with
  | word name =>
    exact Start.exists_read_word hi fun d hd => (hr d hd).1
  | value argument =>
    cases argument with
    | boolean given =>
      cases given with
      | true => exact ⟨'1', [], rfl, Start.read_digits (by simp [AreDigits]) hr⟩
      | false => exact ⟨'0', [], rfl, Start.read_digits (by simp [AreDigits]) hr⟩
    | integer given =>
      cases given with
      | ofNat n =>
        obtain ⟨c, more, hc⟩ := List.exists_cons_of_ne_nil (digits_ne_nil n)
        exact ⟨c, more, by simpa [text, Argument.text, decimal] using hc,
          Start.read_digits (hc ▸ areDigits_digits n) hr⟩
      | negSucc n =>
        obtain rfl := hs (Int.negSucc_lt_zero n)
        exact ⟨'-', digits (n + 1), by simp [text, Argument.text, decimal],
          Start.read_signed_digits (.inr rfl) (digits_ne_nil _) (areDigits_digits _) hr⟩
    | identifier given => exact Start.read_encode_text (q := .double) rfl given hr
    | stringLiteral given => exact Start.read_encode_text (q := .single) rfl given hr

def Stands (item : Item) (token : Token) : Prop :=
  token.lexeme = item.text ∧ token.kind = item.kind

def Precedes (item next : Item) : Prop := next.IsNegative → item.TakesSign

instance : DecidableRel Precedes := fun item next =>
  inferInstanceAs (Decidable (next.IsNegative → item.TakesSign))

theorem isSound_of_mem_keywords {word : String} (h : word ∈ keywords) :
    (Item.word (.ofText word)).IsSound := by
  obtain ⟨hw, ht⟩ := of_mem_keywords h
  rw [← ht] at hw
  exact hw

theorem text_of_mem_keywords {word : String} (h : word ∈ keywords) :
    (Item.word (.ofText word)).text = word := (of_mem_keywords h).2

theorem takesSign_of_mem_keywords {word : String} (h : word ∈ keywords)
    (hn : word ∉ operandKeywords) : (Item.word (.ofText word)).TakesSign := by
  have ht := (of_mem_keywords h).2
  simp only [TakesSign, ht]
  refine ⟨?_, hn⟩
  rw [isKeyword, List.contains_iff_mem]
  exact (show upper word = word from ht).symm ▸ h

theorem isChain_of_not_isNegative {items : List Item} (h : ∀ item ∈ items, ¬ item.IsNegative) :
    items.IsChain Precedes :=
  (List.pairwise_of_forall_mem_list fun _ _ next hn hneg => absurd hneg (h next hn)).isChain

def spaced (items : List Item) : List Char := items.flatMap fun item => ' ' :: item.text.toList

theorem endsItem_spaced (items : List Item) {rest : List Char} (hr : EndsItem rest) :
    EndsItem (spaced items ++ rest) := by
  cases items with
  | nil => exact hr
  | cons item items => exact endsItem_blank (by decide) _

theorem toList_intercalate (first : String) (rest : List String) :
    (" ".intercalate (first :: rest)).toList =
      first.toList ++ rest.flatMap fun text => ' ' :: text.toList := by
  rw [String.toList_intercalate, List.map_cons]
  induction rest generalizing first with
  | nil => simp
  | cons next rest ih =>
    rw [List.map_cons, List.intercalate_cons_cons, List.append_assoc]
    refine congrArg (first.toList ++ ·) ?_
    exact congrArg (' ' :: ·) (ih next)

theorem outcome_append {item : Item} (hi : item.IsSound) {signed : Bool}
    (hs : item.IsNegative → signed = true) {rest : List Char} (hr : EndsItem rest)
    (position : Nat) :
    (cut signed (item.text.toList ++ rest)).outcome position =
      ((cut (signMayFollow item.kind item.text.toList) rest).outcome
        (position + byteLength item.text.toList)).map (⟨item.text, item.kind, position⟩ :: ·) := by
  obtain ⟨c, more, hc, hread⟩ := exists_read hi hs hr
  rw [hc, List.cons_append, Cut.outcome_of_lexeme hread, List.take_left, List.drop_left, ← hc,
    String.ofList_toList]

theorem outcome_blank (cs : List Char) (signed : Bool) (position : Nat) :
    (cut signed (' ' :: cs)).outcome position =
      (cut signed cs).outcome (position + byteLength [' ']) := by
  have hb : Start.read signed ' ' cs = .gap 0 := Start.read_of_reading (.blank (by decide))
  exact Cut.outcome_of_gap hb position

/-- The text may stand behind items: none goes on into it, and it is read as tokens like these. -/
structure IsEnding (rest : List Char) (P : List Token → Prop) : Prop where
  endsItem : EndsItem rest
  exists_outcome : ∀ signed position, ∃ last stop,
    (cut signed rest).outcome position = .ok (last ++ [.finish stop]) ∧ P last

theorem isEnding_nil : IsEnding [] (· = []) :=
  ⟨endsItem_nil, fun signed position => ⟨[], position, Cut.outcome_nil signed position, rfl⟩⟩

theorem isEnding_semicolon :
    IsEnding [';'] fun last => ∃ token, token.isSymbol ";" = true ∧ last = [token] := by
  refine ⟨?_, fun signed position => ?_⟩
  · rintro _ ⟨⟩
    exact ⟨by decide, by decide, fun q => by cases q <;> decide⟩
  · have hread : Start.read signed ';' [] = .lexeme .punctuation 0 := by cases signed <;> decide
    refine ⟨[⟨";", .punctuation, position⟩], position + byteLength [';'], ?_, _, rfl, rfl⟩
    rw [Cut.outcome_of_lexeme hread, List.drop_nil, Cut.outcome_nil]
    rfl

theorem IsEnding.imp {rest : List Char} {P Q : List Token → Prop} (h : IsEnding rest P)
    (hi : ∀ last, P last → Q last) : IsEnding rest Q := by
  refine ⟨h.endsItem, fun signed position => ?_⟩
  obtain ⟨last, stop, ho, hl⟩ := h.exists_outcome signed position
  exact ⟨last, stop, ho, hi last hl⟩

theorem IsEnding.blank {rest : List Char} {P : List Token → Prop} (h : IsEnding rest P) :
    IsEnding (' ' :: rest) P := by
  refine ⟨endsItem_blank (by decide) rest, fun signed position => ?_⟩
  rw [outcome_blank]
  exact h.exists_outcome signed _

def placed (position : Nat) : List Item → List Token
  | [] => []
  | item :: items =>
    let start := position + byteLength [' ']
    ⟨item.text, item.kind, start⟩ :: placed (start + byteLength item.text.toList) items

def signedAfter (signed : Bool) : List Item → Bool
  | [] => signed
  | item :: items => signedAfter (signMayFollow item.kind item.text.toList) items

theorem stands_placed (items : List Item) (position : Nat) :
    List.Forall₂ Stands items (placed position items) := by
  induction items generalizing position with
  | nil => exact .nil
  | cons item items ih => exact .cons ⟨rfl, rfl⟩ (ih _)

/-- Items whose signs belong to them are read as one token each, whatever is behind them. -/
theorem outcome_spaced_append {items : List Item} (hi : ∀ item ∈ items, item.IsSound)
    {signed : Bool} (hs : ∀ item ∈ items.head?, item.IsNegative → signed = true)
    (hc : items.IsChain Precedes) {rest : List Char} (hr : EndsItem rest) (position : Nat) :
    (cut signed (spaced items ++ rest)).outcome position =
      ((cut (signedAfter signed items) rest).outcome
        (position + byteLength (spaced items))).map (placed position items ++ ·) := by
  induction items generalizing signed position with
  | nil =>
    change (cut signed rest).outcome position =
      ((cut signed rest).outcome position).map ([] ++ ·)
    cases (cut signed rest).outcome position <;> rfl
  | cons item items ih =>
    obtain ⟨hh, hc⟩ := List.isChain_cons.1 hc
    obtain ⟨hi, hrest⟩ := List.forall_mem_cons.1 hi
    have hp : position + byteLength (spaced (item :: items)) =
        position + byteLength [' '] + byteLength item.text.toList + byteLength (spaced items) := by
      rw [spaced, List.flatMap_cons, ← spaced, ← List.singleton_append, byteLength_append,
        byteLength_append]
      omega
    rw [hp, spaced, List.flatMap_cons, List.append_assoc, List.cons_append, outcome_blank,
      ← spaced, outcome_append hi (hs item rfl) (endsItem_spaced items hr),
      ih hrest (fun next hn hg => (signMayFollow_iff item).2 (hh next hn hg)) hc, signedAfter]
    cases (cut _ rest).outcome _ <;> rfl

theorem exists_outcome_spaced {items : List Item} (hi : ∀ item ∈ items, item.IsSound)
    {signed : Bool} (hs : ∀ item ∈ items.head?, item.IsNegative → signed = true)
    (hc : items.IsChain Precedes) {rest : List Char} {P : List Token → Prop}
    (hr : IsEnding rest P) (position : Nat) :
    ∃ tokens last stop,
      (cut signed (spaced items ++ rest)).outcome position =
          .ok (tokens ++ last ++ [.finish stop]) ∧
        List.Forall₂ Stands items tokens ∧ P last := by
  obtain ⟨last, stop, ho, hl⟩ := hr.exists_outcome (signedAfter signed items)
    (position + byteLength (spaced items))
  refine ⟨placed position items, last, stop, ?_, stands_placed items position, hl⟩
  rw [outcome_spaced_append hi hs hc hr.endsItem, ho, List.append_assoc]
  rfl

theorem exists_hyphen_of_isNegative {item : Item} (h : item.IsNegative) {rest : List Char}
    {position : Nat} {tokens : List Token}
    (ht : (cut false (item.text.toList ++ rest)).outcome position = .ok tokens) :
    ∃ token ∈ tokens, token.isSymbol "-" = true := by
  match item, h with
  | .value (.integer (.negSucc n)), _ =>
    obtain ⟨d, more, hd⟩ := List.exists_cons_of_ne_nil (digits_ne_nil (n + 1))
    have hc : (Item.value (.integer (.negSucc n))).text.toList = '-' :: d :: more := by
      simp [text, Argument.text, decimal, hd]
    rw [hc, List.cons_append, List.cons_append,
      Cut.outcome_of_lexeme (Start.read_hyphen (head_digits_isDigit hd) _)] at ht
    obtain ⟨tail, _, rfl⟩ := Argument.exists_of_map_eq_ok ht
    exact ⟨_, List.mem_cons_self, rfl⟩

/-- An item with a sign that does not belong to it leaves the sign as a mark of punctuation. -/
theorem exists_hyphen_of_spaced {items : List Item} (hi : ∀ item ∈ items, item.IsSound)
    {signed : Bool} {position : Nat} {tokens : List Token}
    (h : (cut signed (spaced items)).outcome position = .ok tokens)
    (hn : ¬ ((∀ item ∈ items.head?, item.IsNegative → signed = true) ∧ items.IsChain Precedes)) :
    ∃ token ∈ tokens, token.isSymbol "-" = true := by
  induction items generalizing signed position tokens with
  | nil => exact absurd ⟨by simp, .nil⟩ hn
  | cons item items ih =>
    obtain ⟨hi, hr⟩ := List.forall_mem_cons.1 hi
    rw [spaced, List.flatMap_cons, List.cons_append, outcome_blank, ← spaced] at h
    have he := endsItem_spaced items endsItem_nil
    rw [List.append_nil] at he
    by_cases hs : item.IsNegative → signed = true
    · rw [outcome_append hi hs he] at h
      obtain ⟨tail, ht, rfl⟩ := Argument.exists_of_map_eq_ok h
      obtain ⟨token, hm, hx⟩ := ih hr ht fun hg => hn ⟨by simpa using hs, List.isChain_cons.2
        ⟨fun next hh hneg => (signMayFollow_iff item).1 (hg.1 next hh hneg), hg.2⟩⟩
      exact ⟨token, List.mem_cons_of_mem _ hm, hx⟩
    -- the first item that breaks the rule leaves its sign behind, whatever follows
    · obtain ⟨hneg, hf⟩ := Classical.not_imp.1 hs
      rw [Bool.eq_false_iff.2 hf] at h
      exact exists_hyphen_of_isNegative hneg h

end Item

namespace Statement

variable {text : String} {item : Item} {items : List Item}

theorem exists_read_items_append {rest : List Char} {P : List Token → Prop}
    (hr : Item.IsEnding rest P)
    (ht : text.toList = item.text.toList ++ (Item.spaced items ++ rest))
    (hi : ∀ next ∈ item :: items, next.IsSound) (hn : ¬ item.IsNegative)
    (hc : (item :: items).IsChain Item.Precedes) :
    ∃ tokens last, read text = .ok ⟨text, tokens ++ last ++ [.finish text.utf8ByteSize]⟩ ∧
      List.Forall₂ Item.Stands (item :: items) tokens ∧ P last := by
  obtain ⟨hi, hrest⟩ := List.forall_mem_cons.1 hi
  obtain ⟨hh, hc⟩ := List.isChain_cons.1 hc
  obtain ⟨tokens, last, stop, ho, hf, hl⟩ := Item.exists_outcome_spaced hrest
    (fun next hm hg => (Item.signMayFollow_iff item).2 (hh next hm hg)) hc hr
    (0 + byteLength item.text.toList)
  have hread : (cut true text.toList).outcome 0 =
      .ok (⟨item.text, item.kind, 0⟩ :: tokens ++ last ++ [.finish stop]) := by
    rw [ht, Item.outcome_append hi (fun h => absurd h hn) (Item.endsItem_spaced items hr.endsItem),
      ho]
    rfl
  exact ⟨_, last, read_of_outcome hread, .cons ⟨rfl, rfl⟩ hf, hl⟩

theorem exists_read_items (ht : text.toList = item.text.toList ++ Item.spaced items)
    (hi : ∀ next ∈ item :: items, next.IsSound) (hn : ¬ item.IsNegative)
    (hc : (item :: items).IsChain Item.Precedes) :
    ∃ tokens, read text = .ok ⟨text, tokens ++ [.finish text.utf8ByteSize]⟩ ∧
      List.Forall₂ Item.Stands (item :: items) tokens := by
  rw [← List.append_nil (Item.spaced items)] at ht
  obtain ⟨tokens, _, hread, hs, rfl⟩ :=
    exists_read_items_append Item.isEnding_nil ht hi hn hc
  rw [List.append_nil] at hread
  exact ⟨tokens, hread, hs⟩

theorem exists_hyphen_of_read_items (ht : text.toList = item.text.toList ++ Item.spaced items)
    (hi : ∀ next ∈ item :: items, next.IsSound) (hn : ¬ item.IsNegative)
    (hc : ¬ (item :: items).IsChain Item.Precedes) {statement : Statement}
    (h : read text = .ok statement) : ∃ token ∈ statement.tokens, token.isSymbol "-" = true := by
  obtain ⟨hi, hr⟩ := List.forall_mem_cons.1 hi
  have he := Item.endsItem_spaced items endsItem_nil
  rw [List.append_nil] at he
  rw [read_eq_outcome, ht, Item.outcome_append hi (fun h => absurd h hn) he] at h
  obtain ⟨_, ho, rfl⟩ := Argument.exists_of_map_eq_ok h
  obtain ⟨tail, htail, rfl⟩ := Argument.exists_of_map_eq_ok ho
  obtain ⟨token, hm, hx⟩ := Item.exists_hyphen_of_spaced hr htail fun hg => hc (List.isChain_cons.2
    ⟨fun next hh hneg => (Item.signMayFollow_iff item).1 (hg.1 next hh hneg), hg.2⟩)
  exact ⟨token, List.mem_cons_of_mem _ hm, hx⟩

end Statement

end SqlDispatch
