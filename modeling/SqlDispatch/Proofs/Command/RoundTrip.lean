import SqlDispatch.Proofs.Command.Written
import SqlDispatch.Proofs.Preparation

set_option autoImplicit false

/-!
Commands written and prepared again. The text of a command with its arguments is prepared as that
command with those arguments just if every minus sign in it stands behind a keyword that does not
end an operand (`prepare_text_eq_iff`): elsewhere the sign is taken for an operator.
-/

namespace SqlDispatch

open Text

namespace Argument

variable {argument : Argument} {token : Token}

theorem isFractional_decimal (value : Int) : isFractional (decimal value) = false := by
  have hd (n : Nat) : ∀ c ∈ digits n, c.isDigit = true :=
    (natural_eq_some_iff.1 (natural_digits n)).2.1
  have hc (c : Char) (h : c = '-' ∨ c.isDigit = true) :
      ¬ (c == '.' || c == 'e' || c == 'E') = true := by
    simp only [Bool.or_eq_true, beq_iff_eq, not_or]
    refine ⟨⟨?_, ?_⟩, ?_⟩ <;> rintro rfl <;> exact absurd h (by decide)
  rw [isFractional, List.any_eq_false]
  intro c hm
  apply hc
  cases value with
  | ofNat n => exact .inr (hd n c (by simpa [decimal] using hm))
  | negSucc n =>
    have hm : c ∈ '-' :: digits (n + 1) := by simpa [decimal] using hm
    rcases List.mem_cons.1 hm with rfl | hm
    · exact .inl rfl
    · exact .inr (hd _ c hm)

theorem read_of_stands {kind : ArgumentKind} (hf : argument.Fits kind)
    (ht : (Item.value argument).Stands token) : read token kind = .ok argument := by
  obtain ⟨hl, hk⟩ := ht
  cases argument <;> cases kind <;> try exact hf.elim
  case boolean.boolean value =>
    have h1 : lower "1" = "1" := by decide +kernel
    have h0 : lower "0" = "0" := by decide +kernel
    cases value <;> simp [read, readBoolean, hl, Item.text, Argument.text, h1, h0, Except.map]
  case integer.integer value least greatest =>
    simp only [Item.text, Argument.text] at hl
    simp only [read, readInteger, hk, hl, Item.kind, isFractional_decimal, integer_decimal]
    simp [Except.map, show least ≤ value ∧ value ≤ greatest from hf]
  case identifier.identifier value =>
    simp only [Item.kind] at hk
    simp [read, readIdentifier, Token.content, hk, hl, TokenKind.quote, Item.text, Argument.text,
      Quote.decode_encode, Except.map]
  case stringLiteral.stringLiteral value =>
    simp only [Item.kind] at hk
    simp [read, readString, Token.content, hk, hl, TokenKind.quote, Item.text, Argument.text,
      Quote.decode_encode, Except.map]

end Argument

namespace Command

variable {command : Command} {arguments : Arguments}

theorem converts_of_stands {positional : List Argument} {kinds : List ArgumentKind}
    (hf : List.Forall₂ Argument.Fits positional kinds) {tokens : List Token}
    (hs : List.Forall₂ Item.Stands (positional.map .value) tokens) :
    Converts tokens kinds positional := by
  induction hf generalizing tokens with
  | nil =>
    cases hs
    exact .nil
  | cons hf _ ih =>
    cases hs with
    | cons ht hs => exact .cons (Argument.read_of_stands hf ht) (ih hs)

def optionItems (entry : Capitals × Option Argument) : List Item :=
  .word entry.1 :: (entry.2.map Item.value).toList

def items (command : Command) (arguments : Arguments) : List Item :=
  command.words.map .word ++ arguments.positional.map .value ++
    arguments.options.flatMap optionItems

theorem text_eq (command : Command) (arguments : Arguments) :
    command.text arguments = " ".intercalate ((command.items arguments).map Item.text) := by
  have ho : optionText = fun entry => (optionItems entry).map Item.text := by
    funext ⟨name, given⟩
    cases given <;> rfl
  simp only [text, items, List.map_append, List.map_map, List.map_flatMap, ho]
  rfl

theorem toList_text {item : Item} {rest : List Item} (h : command.items arguments = item :: rest) :
    (command.text arguments).toList = item.text.toList ++ Item.spaced rest := by
  rw [text_eq, h, List.map_cons, Item.toList_intercalate, List.flatMap_map]
  rfl

theorem exists_append_of_forall₂ {α β : Type} {R : α → β → Prop} {a b : List α} {cs : List β}
    (h : List.Forall₂ R (a ++ b) cs) :
    ∃ as bs, cs = as ++ bs ∧ List.Forall₂ R a as ∧ List.Forall₂ R b bs :=
  ⟨cs.take a.length, cs.drop a.length, (List.take_append_drop ..).symm,
    (List.forall₂_take_append cs a b h.flip).flip, (List.forall₂_drop_append cs a b h.flip).flip⟩

theorem Stands.isWord {name : Capitals} {token : Token} (h : (Item.word name).Stands token) :
    token.isWord = true := by
  rw [Token.isWord, h.2, Item.kind, Start.word]
  split <;> rfl

theorem names_of_stands (hd : (command.options.map OptionSpec.name).Nodup) {option : OptionSpec}
    (hm : option ∈ command.options) {token : Token}
    (ht : (Item.word option.name).Stands token) : command.Names token option := by
  obtain ⟨earlier, later, he⟩ := List.append_of_mem hm
  refine ⟨Stands.isWord ht, ?_, earlier, later, he, fun other ho => ?_⟩
  · rw [ht.1, alike_iff_lower]
    rfl
  · rw [he, List.map_append, List.map_cons, List.nodup_append] at hd
    exact hd.2.2 _ (List.mem_map_of_mem ho) _ List.mem_cons_self

theorem isClause_of_stands (hd : (command.options.map OptionSpec.name).Nodup)
    {entry : Capitals × Option Argument} (h : command.Declares entry) {tokens : List Token}
    (hs : List.Forall₂ Item.Stands (optionItems entry) tokens) : command.IsClause tokens entry := by
  obtain ⟨option, hm, hname, hv⟩ := h
  obtain ⟨name, given⟩ := entry
  obtain rfl : option.name = name := hname
  cases hs with
  | cons ht hs =>
    have hn := names_of_stands hd hm ht
    rcases hv with ⟨hv, rfl⟩ | ⟨kind, argument, hv, rfl, hf⟩
    · cases hs
      exact .flag hn hv
    · cases hs with
      | cons hval hs =>
        cases hs
        exact .valued hn hv (Argument.read_of_stands hf hval)

def Writes (command : Command) (items : List Item) (entry : Capitals × Option Argument) : Prop :=
  ∀ tokens, List.Forall₂ Item.Stands items tokens → command.IsClause tokens entry

theorem isClauses_of_writes {clauses : List (List Item)}
    {options : List (Capitals × Option Argument)} (h : List.Forall₂ command.Writes clauses options)
    (hn : (options.map (·.1)).Nodup) {tokens : List Token}
    (hs : List.Forall₂ Item.Stands clauses.flatten tokens) :
    command.IsClauses [] tokens options := by
  suffices hc : ∃ parts, tokens = parts.flatten ∧
      List.Forall₂ command.IsClause parts options by
    obtain ⟨parts, he, hf⟩ := hc
    exact ⟨parts, he, hf, hn, by simp⟩
  clear hn
  induction h generalizing tokens with
  | nil =>
    cases hs
    exact ⟨[], rfl, .nil⟩
  | cons hw _ ih =>
    obtain ⟨front, back, rfl, hf, hb⟩ := exists_append_of_forall₂ hs
    obtain ⟨parts, rfl, hc⟩ := ih hb
    exact ⟨front :: parts, rfl, .cons (hw front hf) hc⟩

theorem isClauses_of_stands (hd : (command.options.map OptionSpec.name).Nodup)
    {options : List (Capitals × Option Argument)} (h : ∀ entry ∈ options, command.Declares entry)
    (hn : (options.map (·.1)).Nodup) {tokens : List Token}
    (hs : List.Forall₂ Item.Stands (options.flatMap optionItems) tokens) :
    command.IsClauses [] tokens options := by
  have hw : List.Forall₂ command.Writes (options.map optionItems) options := by
    rw [List.forall₂_map_left_iff, List.forall₂_same]
    exact fun entry he tokens ht => isClause_of_stands hd (h entry he) ht
  exact isClauses_of_writes hw hn hs

theorem opens_of_stands {words : List Capitals} {tokens : List Token}
    (h : List.Forall₂ Item.Stands (words.map .word) tokens) (rest : List Token) :
    opens words (tokens ++ rest) = true := by
  induction words generalizing tokens with
  | nil => rfl
  | cons word words ih =>
    cases h with
    | @cons _ token _ tokens ht h =>
      have hs : token.spells word.text = true :=
        Token.spells_iff.2 ⟨Stands.isWord ht, congrArg lower ht.1⟩
      rw [List.cons_append, opens, hs, ih h]
      rfl

theorem isSound_of_mem_items (hw : ∀ word ∈ command.words, IsBareWord word.text)
    (ho : ∀ option ∈ command.options, IsBareWord option.name.text)
    (hg : ∀ entry ∈ arguments.options, command.Declares entry) :
    ∀ item ∈ command.items arguments, item.IsSound := by
  intro item hm
  simp only [items, List.mem_append, List.mem_map, List.mem_flatMap] at hm
  rcases hm with (⟨word, hm, rfl⟩ | ⟨argument, _, rfl⟩) | ⟨entry, he, hm⟩
  · exact isWord_of_isBareWord (hw word hm)
  · trivial
  · rcases List.mem_cons.1 hm with rfl | hm
    · obtain ⟨option, hmem, hname, _⟩ := hg entry he
      exact hname ▸ isWord_of_isBareWord (ho option hmem)
    · cases hgiven : entry.2 with
      | none => simp [hgiven] at hm
      | some argument =>
        obtain rfl : item = .value argument := by simpa [hgiven] using hm
        trivial

/-- The tokens of what is written begin with the name of the command, and the rest is accepted. -/
theorem accepts_of_stands (hd : (command.options.map OptionSpec.name).Nodup)
    (hp : List.Forall₂ Argument.Fits arguments.positional command.arguments)
    (hg : ∀ entry ∈ arguments.options, command.Declares entry)
    (hn : (arguments.options.map (·.1)).Nodup) {tokens : List Token}
    (hs : List.Forall₂ Item.Stands (command.items arguments) tokens) :
    ∃ name rest, tokens = name ++ rest ∧ name.length = command.words.length ∧
      (∀ more, opens command.words (name ++ more) = true) ∧ command.Accepts rest arguments := by
  rw [items, List.append_assoc] at hs
  obtain ⟨name, rest, rfl, hname, hrest⟩ := exists_append_of_forall₂ hs
  obtain ⟨values, clauses, rfl, hv, hc⟩ := exists_append_of_forall₂ hrest
  refine ⟨name, values ++ clauses, rfl, ?_, opens_of_stands hname, values, clauses, [], by simp,
    .inl rfl, converts_of_stands hp hv, isClauses_of_stands hd hg hn hc⟩
  simpa using hname.length_eq.symm

end Command

theorem isSymbol_of_opens {words : List Capitals} {tokens : List Token}
    (h : opens words tokens = true) (symbol : String) :
    ∀ token ∈ tokens.take words.length, token.isSymbol symbol = false := by
  induction words generalizing tokens with
  | nil => simp
  | cons word words ih =>
    cases tokens with
    | nil => simp
    | cons token tokens =>
      simp only [opens, Bool.and_eq_true] at h
      have hw := (Token.spells_iff.1 h.1).1
      have hs : token.isSymbol symbol = false := by
        cases hk : token.kind <;> simp_all [Token.isWord, TokenKind.isWord, Token.isSymbol]
      simpa using ⟨hs, ih h.2⟩

namespace Router

/-- What is written of a command is prepared as the command and its arguments, if and only if each
of its negative numbers follows a keyword that does not end an operand. -/
theorem prepare_text_eq_iff {router : Router} {command : Command} {arguments : Arguments}
    (hm : command ∈ router.table.commands)
    (hw : ∀ word ∈ command.words, IsBareWord word.text)
    (ho : ∀ option ∈ command.options, IsBareWord option.name.text)
    (hd : (command.options.map OptionSpec.name).Nodup)
    (hp : List.Forall₂ Argument.Fits arguments.positional command.arguments)
    (hg : ∀ entry ∈ arguments.options, command.Declares entry)
    (hn : (arguments.options.map (·.1)).Nodup)
    (hl : ∀ statement, Statement.read (command.text arguments) = .ok statement →
      ∀ other ∈ router.table.commands, opens other.words statement.tokens = true →
        other.words.length ≤ command.words.length) :
    router.prepare (command.text arguments) = .ok (.internal command arguments) ↔
      (command.items arguments).IsChain Item.Precedes := by
  have hsound := Command.isSound_of_mem_items hw ho hg
  obtain ⟨word, words, hwords⟩ := List.exists_cons_of_ne_nil (router.table.named command hm)
  obtain ⟨rest, hitems⟩ : ∃ rest, command.items arguments = .word word :: rest := by
    simp [Command.items, hwords]
  have htext := Command.toList_text hitems
  rw [hitems] at hsound ⊢
  constructor
  · intro h
    obtain ⟨statement, tokens, hr, hc, ha⟩ := prepare_eq_internal_iff.1 h
    by_contra hchain
    obtain ⟨token, ht, hs⟩ := Statement.exists_hyphen_of_read_items htext hsound id hchain hr
    obtain ⟨_, hopens, hdrop⟩ := CommandTable.opens_of_classify hc
    rw [← List.take_append_drop command.words.length statement.tokens, ← hdrop] at ht
    -- the name is bare words, arguments and clauses hold no hyphen, and the end is no mark
    have hf : token.isSymbol "-" = false := by
      rcases List.mem_append.1 ht with ht | ht
      · exact isSymbol_of_opens hopens "-" token ht
      rcases List.mem_append.1 ht with ht | ht
      · exact ha.isSymbol (by decide +kernel) (by decide) token ht
      · rw [List.mem_singleton.1 ht]
        rfl
    rw [hf] at hs
    cases hs
  · intro hchain
    obtain ⟨tokens, hr, hs⟩ := Statement.exists_read_items htext hsound id hchain
    rw [← hitems] at hs
    obtain ⟨name, rest, rfl, hlen, hopens, ha⟩ := Command.accepts_of_stands hd hp hg hn hs
    refine prepare_eq_internal_iff.2 ⟨_, rest, hr, ?_, ha⟩
    rw [List.append_assoc]
    exact CommandTable.classify_append hm hlen (hopens _)
      (List.append_assoc name rest _ ▸ hl _ hr) _

/-- Behind a keyword the sign belongs to the number, be it in the name or that of an option. -/
theorem prepare_text_set_limit :
    let command : Command := ⟨[.ofText "SET", .ofText "LIMIT"], [.integer (-9) 9, .identifier],
      [.flag "ALL", .valued "IN" (.integer (-9) 9)], .acknowledge ""⟩
    let router := Router.ofTable ⟨[command], by simp [command], by simp⟩
    let arguments : Arguments :=
      ⟨[.integer (-5), .identifier "a\"b"], [(.ofText "IN", some (.integer (-9)))]⟩
    command.text arguments = "SET LIMIT -5 \"a\"\"b\" IN -9" ∧
      router.prepare (command.text arguments) = .ok (.internal command arguments) := by
  intro command router arguments
  have hw : ∀ word ∈ command.words, IsBareWord word.text := by
    simp only [command, List.forall_mem_cons, List.not_mem_nil, false_implies, implies_true,
      and_true]
    exact ⟨⟨.keyword, rfl, by decide +kernel⟩, ⟨.keyword, rfl, by decide +kernel⟩⟩
  have ho : ∀ option ∈ command.options, IsBareWord option.name.text := by
    simp only [command, List.forall_mem_cons, List.not_mem_nil, false_implies, implies_true,
      and_true]
    exact ⟨⟨.keyword, rfl, by decide +kernel⟩, ⟨.keyword, rfl, by decide +kernel⟩⟩
  have hp : List.Forall₂ Argument.Fits arguments.positional command.arguments :=
    .cons (by decide) (.cons trivial .nil)
  have hg : ∀ entry ∈ arguments.options, command.Declares entry := by
    rintro _ (_ | ⟨_, ⟨⟩⟩)
    exact ⟨.valued "IN" (.integer (-9) 9), by simp [command], rfl,
      .inr ⟨_, _, rfl, rfl, by decide⟩⟩
  refine ⟨by decide +kernel, (prepare_text_eq_iff (List.mem_singleton_self command) hw ho
    (by decide +kernel) hp hg (by decide +kernel) ?_).2 ?_⟩
  · rintro _ _ _ (_ | ⟨_, ⟨⟩⟩) _
    exact le_rfl
  · decide +kernel

/-- Behind another value the sign is an operator, and a third argument. -/
theorem prepare_text_difference :
    let command : Command :=
      ⟨[.ofText "P"], [.integer (-10) 10, .integer (-10) 10], [], .acknowledge ""⟩
    let router := Router.ofTable ⟨[command], by simp [command], by simp⟩
    let arguments : Arguments := ⟨[.integer 5, .integer (-3)], []⟩
    IsBareWord "P" ∧ List.Forall₂ Argument.Fits arguments.positional command.arguments ∧
      command.text arguments = "P 5 -3" ∧
      router.prepare (command.text arguments) = .error (.argumentCount "P" 2 3 5) := by
  intro command router arguments
  exact ⟨⟨.identifier, rfl, by decide +kernel⟩, .cons (by decide) (.cons (by decide) .nil),
    by decide +kernel, by decide +kernel⟩

end Router

end SqlDispatch
