import SqlDispatch.Proofs.Classification
import SqlDispatch.Proofs.Command.Written
import SqlDispatch.Proofs.Token.Case

set_option autoImplicit false

/-!
Look-up by name and classification. The first splits a name at its blanks, the second reads a
statement into tokens. On a text of bare words both see the same words: each is read as one token
(`exists_read_of_words`), so a command opens the tokens just if its words begin those of the text
(`opens_append_finish_iff`). With nothing behind the words, the longest command that does so is the
one of that name.
-/

namespace SqlDispatch

open Text Grammar

namespace Text

/-- The characters are these words with blanks around them. No word goes on where it ends. -/
inductive IsSpaced : List String → List Char → Prop where
  | nil : IsSpaced [] []
  | blank {c : Char} {words : List String} {cs : List Char} :
      isBlank c = true → IsSpaced words cs → IsSpaced words (c :: cs)
  | word {word : String} {words : List String} {cs : List Char} :
      word ≠ "" → (∀ c ∈ word.toList, isBlank c = false) → (∀ c ∈ cs.head?, isBlank c = true) →
        IsSpaced words cs → IsSpaced (word :: words) (word.toList ++ cs)

theorem words_ofList_nil : words (.ofList []) = [] := by decide

theorem words_ofList_cons {c : Char} (h : isBlank c = true) (cs : List Char) :
    words (.ofList (c :: cs)) = words (.ofList cs) := by
  simp [words, List.splitOnP_cons_eq_if_modifyHead, h]

theorem words_ofList_append {word : String} (hn : word ≠ "")
    (hw : ∀ c ∈ word.toList, isBlank c = false) {cs : List Char}
    (hc : ∀ c ∈ cs.head?, isBlank c = true) :
    words (.ofList (word.toList ++ cs)) = word :: words (.ofList cs) := by
  have hne : word.toList ≠ [] := fun h => hn (String.toList_eq_nil_iff.1 h)
  cases cs with
  | nil => simp [words, List.splitOnP_eq_singleton hw, hne]
  | cons c cs =>
    have hs := List.splitOnP_append_cons word.toList cs (hc c rfl)
    simp [words, hs, List.splitOnP_eq_singleton hw, hne,
      List.splitOnP_cons_eq_if_modifyHead, hc c rfl]

theorem words_of_isSpaced {names : List String} {cs : List Char} (h : IsSpaced names cs) :
    words (.ofList cs) = names := by
  induction h with
  | nil => exact words_ofList_nil
  | blank hc _ ih => rw [words_ofList_cons hc, ih]
  | word hn hw hc _ ih => rw [words_ofList_append hn hw hc, ih]

theorem exists_isSpaced (cs : List Char) : ∃ names, IsSpaced names cs := by
  match cs with
  | [] => exact ⟨[], .nil⟩
  | c :: rest =>
    cases hc : isBlank c with
    | true =>
      obtain ⟨names, h⟩ := exists_isSpaced rest
      exact ⟨names, .blank hc h⟩
    | false =>
      have hl : (rest.dropWhile (!isBlank ·)).length ≤ rest.length :=
        (List.dropWhile_sublist _).length_le
      obtain ⟨names, h⟩ := exists_isSpaced (rest.dropWhile (!isBlank ·))
      have hw : ∀ d ∈ (String.ofList (c :: rest.takeWhile (!isBlank ·))).toList,
          isBlank d = false := by
        intro d hd
        rw [String.toList_ofList] at hd
        rcases List.mem_cons.1 hd with rfl | hd
        · exact hc
        · simpa using List.all_eq_true.1 List.all_takeWhile d hd
      have he : ∀ d ∈ (rest.dropWhile (!isBlank ·)).head?, isBlank d = true := by
        intro d hd
        have hn := List.head?_dropWhile_not (!isBlank ·) rest
        rw [Option.mem_def.1 hd] at hn
        simpa using hn
      have hs := IsSpaced.word (by simp) hw he h
      rw [String.toList_ofList, List.cons_append, List.takeWhile_append_dropWhile] at hs
      exact ⟨_, hs⟩
termination_by cs.length
decreasing_by all_goals simp only [List.length_cons]; omega

theorem words_eq_iff {text : String} {names : List String} :
    words text = names ↔ IsSpaced names text.toList := by
  constructor
  · rintro rfl
    obtain ⟨names, h⟩ := exists_isSpaced text.toList
    have hw := words_of_isSpaced h
    rw [String.ofList_toList] at hw
    rwa [hw]
  · intro h
    have hw := words_of_isSpaced h
    rwa [String.ofList_toList] at hw

theorem isBlank_of_isWord {text : List Char} (h : IsWord text) :
    ∀ c ∈ text, isBlank c = false := by
  obtain ⟨c, more, rfl, hs, hp⟩ := h
  have hn {d : Char} (hd : Extent.isWordPart d = true) : isBlank d = false := by
    cases hb : isBlank d with
    | false => rfl
    | true => rw [Start.isWordPart_of_isBlank hb] at hd; cases hd
  rw [List.forall_mem_cons]
  refine ⟨hn ?_, fun d hd => hn (hp d hd)⟩
  simp [Extent.isWordPart, hs]

theorem isSpaced_flatMap {names : List String} (h : ∀ word ∈ names, IsWord word.toList) :
    IsSpaced names (names.flatMap fun word => ' ' :: word.toList) := by
  induction names with
  | nil => exact .nil
  | cons word names ih =>
    obtain ⟨hw, hn⟩ := List.forall_mem_cons.1 h
    have hne : word ≠ "" := by
      rintro rfl
      obtain ⟨_, _, h, _⟩ := hw
      cases h
    refine .blank (by decide) (.word hne (isBlank_of_isWord hw) ?_ (ih hn))
    cases names with
    | nil => exact fun _ hc => nomatch hc
    | cons next names =>
      rintro _ ⟨⟩
      decide

end Text

theorem Command.words_name {command : Command}
    (h : ∀ word ∈ command.words, IsBareWord word.text) :
    Text.words command.name = command.words.map Capitals.text := by
  have hw : ∀ word ∈ command.words.map Capitals.text, IsWord word.toList :=
    List.forall_mem_map.2 fun word hm => isWord_of_isBareWord (h word hm)
  have hs := words_of_isSpaced (isSpaced_flatMap hw)
  unfold name
  generalize command.words.map Capitals.text = names at hs ⊢
  cases names with
  | nil => rfl
  | cons first rest =>
    -- a blank in front of the first word makes no difference
    rw [List.flatMap_cons, List.cons_append, words_ofList_cons (by decide)] at hs
    rw [← Item.toList_intercalate, String.ofList_toList] at hs
    exact hs

theorem isWord_of_alike {a b : String} (h : alike a b = true) (hb : IsWord b.toList) :
    IsWord a.toList := by
  have hl : a.toList.map Char.toLower = b.toList.map Char.toLower := by
    rw [← toList_lower, ← toList_lower, alike_iff_lower.1 h]
  obtain ⟨c, more, hc, hs, hp⟩ := hb
  rw [hc, List.map_cons] at hl
  obtain ⟨d, rest, hd, hdc, hr⟩ := List.map_eq_cons_iff.1 hl
  refine ⟨d, rest, hd, ?_, fun e he => ?_⟩
  · rw [← Extent.isWordStart_toLower, hdc, Extent.isWordStart_toLower, hs]
  · have hm : e.toLower ∈ more.map Char.toLower := hr ▸ List.mem_map_of_mem he
    obtain ⟨f, hf, hfe⟩ := List.mem_map.1 hm
    rw [← Extent.isWordPart_toLower, ← hfe, Extent.isWordPart_toLower, hp f hf]

def Token.IsBare (word : String) (token : Token) : Prop :=
  token.kind.isWord = true ∧ token.lexeme = word

theorem Token.isBare_word (word : String) (position : Nat) :
    Token.IsBare word ⟨word, Start.word word.toList, position⟩ := by
  refine ⟨?_, rfl⟩
  dsimp only
  exact Start.isWord_word word.toList

theorem exists_outcome_of_isSpaced {names : List String} {cs : List Char} (h : IsSpaced names cs)
    (hw : ∀ word ∈ names, IsWord word.toList) (signed : Bool) (position : Nat) :
    ∃ tokens stop, (cut signed cs).outcome position = .ok (tokens ++ [.finish stop]) ∧
      List.Forall₂ Token.IsBare names tokens := by
  induction h generalizing signed position with
  | nil => exact ⟨[], position, Cut.outcome_nil signed position, .nil⟩
  | @blank c _ cs hc _ ih =>
    have hb : Start.read signed c cs = .gap 0 := Start.read_of_reading (.blank hc)
    rw [Cut.outcome_of_gap hb]
    exact ih hw signed _
  | @word word _ cs _ _ hc _ ih =>
    obtain ⟨hword, hrest⟩ := List.forall_mem_cons.1 hw
    obtain ⟨tokens, stop, ho, ht⟩ := ih hrest (signMayFollow (Start.word word.toList) word.toList)
      (position + byteLength word.toList)
    have hr : ∀ c ∈ cs.head?, Extent.isWordPart c = false :=
      fun c hm => Start.isWordPart_of_isBlank (hc c hm)
    rw [Cut.outcome_word_append hword hr, ho, String.ofList_toList]
    exact ⟨_ :: tokens, stop, rfl, .cons (Token.isBare_word word position) ht⟩

theorem exists_read_of_words {text : String} (h : ∀ word ∈ words text, IsBareWord word) :
    ∃ tokens, Statement.read text = .ok ⟨text, tokens ++ [.finish text.utf8ByteSize]⟩ ∧
      List.Forall₂ Token.IsBare (words text) tokens := by
  obtain ⟨tokens, stop, ho, ht⟩ := exists_outcome_of_isSpaced (words_eq_iff.1 rfl)
    (fun word hm => isWord_of_isBareWord (h word hm)) true 0
  exact ⟨tokens, Statement.read_of_outcome ho, ht⟩

theorem opens_append_finish_iff {names : List String} {tokens : List Token}
    (h : List.Forall₂ Token.IsBare names tokens) (position : Nat) (name : List Capitals) :
    opens name (tokens ++ [.finish position]) = true ↔ name <+: names.map Capitals.ofText := by
  induction h generalizing name with
  | nil =>
    cases name with
    | nil => simp [opens]
    | cons word name => simp [opens, Token.spells, Token.isWord, Token.finish, TokenKind.isWord]
  | @cons text token _ _ ht _ ih =>
    cases name with
    | nil => simp [opens]
    | cons word name =>
      have hs : token.spells word.text = true ↔ word = .ofText text := by
        rw [Token.spells, Token.isWord, ht.1, ht.2, Bool.true_and, Capitals.alike_text_iff, eq_comm]
      rw [List.cons_append, opens, Bool.and_eq_true, hs, ih, List.map_cons, List.cons_prefix_cons]

namespace CommandTable

variable {table : CommandTable} {command : Command} {text : String}

theorem get?_eq_some_iff : table.get? text = some command ↔
    command ∈ table.commands ∧ command.words = Command.nameWords text := by
  constructor
  · intro h
    exact ⟨List.mem_of_find?_eq_some h, by simpa using List.find?_some h⟩
  · rintro ⟨hm, hw⟩
    have hf : (table.get? text).isSome = true :=
      List.find?_isSome.2 ⟨command, hm, by simpa using hw⟩
    obtain ⟨found, h⟩ := Option.isSome_iff_exists.1 hf
    have hn : found.words = Command.nameWords text := by simpa using List.find?_some h
    rw [h, eq_of_words_eq (List.mem_of_find?_eq_some h) hm (hn.trans hw.symm)]

theorem classify_eq_internal_finish_iff {names : List String} {tokens : List Token}
    (h : List.Forall₂ Token.IsBare names tokens) (position : Nat) :
    table.classify ⟨text, tokens ++ [.finish position]⟩ = .internal command [.finish position] ↔
      command ∈ table.commands ∧ command.words = names.map Capitals.ofText := by
  rw [classify_eq_internal_iff, match?_eq_some_iff]
  simp only [opens_append_finish_iff h]
  have hl : (names.map Capitals.ofText).length = tokens.length := by
    rw [List.length_map, h.length_eq]
  constructor
  · rintro ⟨⟨hm, hp, _⟩, hd⟩
    have hle := hp.length_le
    have hlen := congrArg List.length hd
    rw [List.length_drop, List.length_append, List.length_singleton] at hlen
    exact ⟨hm, hp.eq_of_length (by omega)⟩
  · rintro ⟨hm, hw⟩
    refine ⟨⟨hm, hw ▸ List.prefix_rfl, fun other _ hp => hw ▸ hp.length_le⟩, ?_⟩
    rw [hw, hl, List.drop_left]

/-- A text of bare words finds by name the command that it is as a statement, with nothing behind
the name. A name of bare words, in any case and with any blanks around its words, is found both
ways, whatever other names begin it or go on behind it. -/
theorem lookup_iff_classify {commands : List Command}
    (ht : ofCommands commands = .ok table) :
    (∀ text, (∀ word ∈ words text, IsBareWord word) → ∀ command,
      table.get? text = some command ↔
        ∃ statement, Statement.read text = .ok statement ∧
          table.classify statement = .internal command [.finish text.utf8ByteSize]) ∧
    ∀ command ∈ commands, (∀ word ∈ command.words, IsBareWord word.text) → ∀ text names,
      List.Forall₂ (fun name word => alike name word = true) names (words command.name) →
      IsSpaced names text.toList →
        table.get? text = some command ∧
          ∃ statement, Statement.read text = .ok statement ∧
            table.classify statement = .internal command [.finish text.utf8ByteSize] := by
  obtain rfl := ofCommands_eq_ok_iff.1 ht
  have hiff (text : String) (hw : ∀ word ∈ words text, IsBareWord word) (command : Command) :
      table.get? text = some command ↔
        ∃ statement, Statement.read text = .ok statement ∧
          table.classify statement = .internal command [.finish text.utf8ByteSize] := by
    obtain ⟨tokens, hr, hb⟩ := exists_read_of_words hw
    rw [get?_eq_some_iff, hr, Command.nameWords, ← classify_eq_internal_finish_iff hb]
    constructor
    · intro hc
      exact ⟨_, rfl, hc⟩
    · rintro ⟨_, ⟨⟩, hc⟩
      exact hc
  refine ⟨hiff, fun command hm hw text names ha hs => ?_⟩
  rw [Command.words_name hw, List.forall₂_map_right_iff] at ha
  obtain rfl := words_eq_iff.2 hs
  have hn : Command.nameWords text = command.words := by
    have he := ha.imp fun _ _ h => Capitals.alike_text_iff.1 h
    rwa [← List.forall₂_map_left_iff, List.forall₂_eq_eq_eq] at he
  have hb : ∀ word ∈ words text, IsBareWord word := by
    intro word hword
    have hc : Capitals.ofText word ∈ command.words := hn ▸ List.mem_map_of_mem hword
    exact isBareWord_iff.2 <|
      isWord_of_alike (Capitals.alike_text_iff.2 rfl) (isWord_of_isBareWord (hw _ hc))
  have hg : table.get? text = some command := get?_eq_some_iff.2 ⟨hm, hn.symm⟩
  exact ⟨hg, (hiff text hb command).1 hg⟩

/-- Three names begin one another; a statement is the command whose name it has to its end. -/
theorem lookup_iff_classify_overlapping :
    let command (name : String) : Command := ⟨Command.nameWords name, [], [], .acknowledge name⟩
    let commands := [command "set", command "Set Streaming Now", command "SET STREAMING"]
    let text := "\u2003sEt\t\nStreaming "
    ∃ table, ofCommands commands = .ok table ∧
      table.get? text = some (command "SET STREAMING") ∧
      (∃ statement, Statement.read text = .ok statement ∧
        table.classify statement = .internal (command "SET STREAMING") [.finish 18]) ∧
      ∃ statement, Statement.read "set streaming now" = .ok statement ∧
        table.classify statement = .internal (command "Set Streaming Now") [.finish 17] := by
  intro command commands text
  let table : CommandTable := ⟨commands, by decide +kernel, by decide +kernel⟩
  obtain ⟨h₁, h₂⟩ := @lookup_iff_classify table commands (ofCommands_eq_ok_iff.2 rfl)
  have hs : IsSpaced ["sEt", "Streaming"] text.toList := words_eq_iff.1 (by decide +kernel)
  have hw : ∀ word ∈ (command "SET STREAMING").words, IsBareWord word.text := by
    have hn : (command "SET STREAMING").words = [.ofText "SET", .ofText "STREAMING"] := by
      decide +kernel
    rw [hn, List.forall_mem_cons, List.forall_mem_singleton]
    exact ⟨⟨.keyword, rfl, by decide +kernel⟩, ⟨.keyword, rfl, by decide +kernel⟩⟩
  have ha : List.Forall₂ (fun name word => alike name word = true) ["sEt", "Streaming"]
      (words (command "SET STREAMING").name) := by
    have hn : words (command "SET STREAMING").name = ["SET", "STREAMING"] := by decide +kernel
    rw [hn]
    exact .cons (by decide +kernel) (.cons (by decide +kernel) .nil)
  have hb : ∀ word ∈ words "set streaming now", IsBareWord word := by
    have hn : words "set streaming now" = ["set", "streaming", "now"] := by decide +kernel
    rw [hn, List.forall_mem_cons, List.forall_mem_cons, List.forall_mem_singleton]
    exact ⟨⟨.keyword, rfl, by decide +kernel⟩, ⟨.keyword, rfl, by decide +kernel⟩,
      ⟨.identifier, rfl, by decide +kernel⟩⟩
  obtain ⟨hg, hc⟩ := h₂ (command "SET STREAMING") (by simp [commands]) hw text _ ha hs
  exact ⟨table, ofCommands_eq_ok_iff.2 rfl, hg, hc,
    (h₁ "set streaming now" hb (command "Set Streaming Now")).1 (by decide +kernel)⟩

end CommandTable

end SqlDispatch
