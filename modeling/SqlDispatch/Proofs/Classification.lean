import Mathlib.Data.List.Forall2
import Mathlib.Data.List.Nodup
import SqlDispatch.Command.Table

set_option autoImplicit false

/-!
Classification. A statement that is a command opens with the words of that command, and what is left
of it still ends with the token that closes it, since no word is that token. All that matters of a
token is which words it spells (`corresponds_classify`), and of a table which commands are in it
(`classify_eq_of_perm`).
-/

namespace SqlDispatch

open Text

theorem eq_or_mem_of_foldl_longer {commands : List Command} {best : Option Command}
    {command : Command} (h : commands.foldl longer best = some command) :
    best = some command ∨ command ∈ commands := by
  induction commands generalizing best with
  | nil => exact .inl h
  | cons first rest ih =>
    rcases ih h with hb | hm
    · cases best with
      | none => exact .inr (by simp_all [longer])
      | some current =>
        simp only [longer] at hb
        split at hb
        · exact .inr (by simp_all)
        · exact .inl hb
    · exact .inr (by simp [hm])

theorem exists_of_foldl_longer (commands : List Command) (best : Command) :
    ∃ command, commands.foldl longer (some best) = some command ∧
      ∀ other ∈ best :: commands, other.words.length ≤ command.words.length := by
  induction commands generalizing best with
  | nil => exact ⟨best, rfl, by simp⟩
  | cons first rest ih =>
    rw [List.foldl_cons]
    simp only [longer, List.forall_mem_cons]
    split
    · rename_i hl
      obtain ⟨command, hf, hm⟩ := ih first
      rw [List.forall_mem_cons] at hm
      exact ⟨command, hf, by omega, hm⟩
    · rename_i hl
      obtain ⟨command, hf, hm⟩ := ih best
      rw [List.forall_mem_cons] at hm
      exact ⟨command, hf, hm.1, by omega, hm.2⟩

namespace CommandTable

variable {table : CommandTable} {statement : Statement} {command : Command} {tokens : List Token}

theorem opens_of_match? (h : table.match? tokens = some command) :
    command ∈ table.commands ∧ opens command.words tokens = true := by
  rcases eq_or_mem_of_foldl_longer h with hb | hm
  · cases hb
  · exact List.mem_filter.1 hm

theorem exists_match? (hm : command ∈ table.commands) (ho : opens command.words tokens = true) :
    ∃ found, table.match? tokens = some found ∧
      ∀ other ∈ table.commands, opens other.words tokens = true →
        other.words.length ≤ found.words.length := by
  have hf : command ∈ table.commands.filter fun c => opens c.words tokens :=
    List.mem_filter.2 ⟨hm, ho⟩
  unfold match?
  cases hc : table.commands.filter fun c => opens c.words tokens with
  | nil => simp [hc] at hf
  | cons first rest =>
    obtain ⟨found, hfound, hmax⟩ := exists_of_foldl_longer rest first
    refine ⟨found, hfound, fun other hother hopens => hmax other ?_⟩
    rw [← hc]
    exact List.mem_filter.2 ⟨hother, hopens⟩

theorem eq_of_words_eq {a b : Command} (ha : a ∈ table.commands) (hb : b ∈ table.commands)
    (hw : a.words = b.words) : a = b := by
  have hd : (table.commands.map Command.words).Nodup := List.pairwise_map.2 table.distinct
  exact List.inj_on_of_nodup_map hd ha hb hw

theorem match?_eq_some (hm : command ∈ table.commands) (ho : opens command.words tokens = true)
    (hl : ∀ other ∈ table.commands, opens other.words tokens = true →
      other.words.length ≤ command.words.length) : table.match? tokens = some command := by
  obtain ⟨found, hfound, hmax⟩ := exists_match? hm ho
  obtain ⟨hmem, hopens⟩ := opens_of_match? hfound
  have hlen := Nat.le_antisymm (hl found hmem hopens) (hmax command hm ho)
  rw [hfound, eq_of_words_eq hmem hm (words_eq_of_opens hopens ho hlen)]

theorem match?_eq_some_iff : table.match? tokens = some command ↔
    command ∈ table.commands ∧ opens command.words tokens = true ∧
      ∀ other ∈ table.commands, opens other.words tokens = true →
        other.words.length ≤ command.words.length := by
  constructor
  · intro h
    obtain ⟨hm, ho⟩ := opens_of_match? h
    obtain ⟨found, hfound, hmax⟩ := exists_match? hm ho
    obtain rfl := Option.some.inj (h.symm.trans hfound)
    exact ⟨hm, ho, hmax⟩
  · intro h
    exact match?_eq_some h.1 h.2.1 h.2.2

theorem match?_eq_none_iff : table.match? tokens = none ↔
    ∀ command ∈ table.commands, opens command.words tokens = false := by
  constructor
  · intro h command hm
    cases ho : opens command.words tokens with
    | false => rfl
    | true =>
      obtain ⟨found, hfound, _⟩ := exists_match? hm ho
      simp [h] at hfound
  · intro h
    cases hf : table.match? tokens with
    | none => rfl
    | some command =>
      obtain ⟨hm, ho⟩ := opens_of_match? hf
      simp [h command hm] at ho

/-- A statement that opens with the words of a command, and with no longer name, is that command. -/
theorem classify_append (hm : command ∈ table.commands) {name : List Token}
    (hn : name.length = command.words.length) (ho : opens command.words (name ++ tokens) = true)
    (hl : ∀ other ∈ table.commands, opens other.words (name ++ tokens) = true →
      other.words.length ≤ command.words.length) (text : String) :
    table.classify ⟨text, name ++ tokens⟩ = .internal command tokens := by
  unfold classify
  simp only [match?_eq_some hm ho hl]
  rw [← hn, List.drop_left]

theorem classify_eq_internal_iff : table.classify statement = .internal command tokens ↔
    table.match? statement.tokens = some command ∧
      tokens = statement.tokens.drop command.words.length := by
  unfold classify
  cases table.match? statement.tokens with
  | none => simp
  | some found =>
    simp only [Classification.internal.injEq, Option.some.injEq]
    constructor
    · rintro ⟨rfl, rfl⟩
      exact ⟨rfl, rfl⟩
    · rintro ⟨rfl, rfl⟩
      exact ⟨rfl, rfl⟩

theorem classify_eq_forward_iff {raw : String} : table.classify statement = .forward raw ↔
    table.match? statement.tokens = none ∧ statement.text = raw := by
  unfold classify
  cases table.match? statement.tokens <;> simp

theorem opens_of_classify (h : table.classify statement = .internal command tokens) :
    command ∈ table.commands ∧ opens command.words statement.tokens = true ∧
      tokens = statement.tokens.drop command.words.length := by
  obtain ⟨hm, ht⟩ := classify_eq_internal_iff.1 h
  obtain ⟨hmem, ho⟩ := opens_of_match? hm
  exact ⟨hmem, ho, ht⟩

end CommandTable

/-- The same command with tokens that are related one to one, or the engine both times. -/
inductive Classification.Corresponds (R : Token → Token → Prop) :
    Classification → Classification → Prop where
  | internal (command : Command) {tokens others : List Token} :
      List.Forall₂ R tokens others →
        Corresponds R (.internal command tokens) (.internal command others)
  | forward (text other : String) : Corresponds R (.forward text) (.forward other)

theorem Classification.Corresponds.mono {R S : Token → Token → Prop} (hs : ∀ a b, R a b → S a b)
    {x y : Classification} (h : x.Corresponds R y) : x.Corresponds S y := by
  cases h with
  | internal command hr => exact .internal command (hr.imp hs)
  | forward text other => exact .forward text other

theorem opens_eq_of_forall₂ {R : Token → Token → Prop}
    (hs : ∀ a b, R a b → ∀ word, a.spells word = b.spells word) {tokens others : List Token}
    (h : List.Forall₂ R tokens others) (words : List Text.Capitals) :
    opens words tokens = opens words others := by
  induction h generalizing words with
  | nil => rfl
  | cons hr _ ih =>
    cases words with
    | nil => rfl
    | cons word words => rw [opens, opens, hs _ _ hr, ih]

theorem CommandTable.corresponds_classify {R : Token → Token → Prop}
    (hs : ∀ a b, R a b → ∀ word, a.spells word = b.spells word) {statement other : Statement}
    (h : List.Forall₂ R statement.tokens other.tokens) (table : CommandTable) :
    (table.classify statement).Corresponds R (table.classify other) := by
  have hm : table.match? statement.tokens = table.match? other.tokens := by
    simp only [match?, opens_eq_of_forall₂ hs h]
  unfold classify
  rw [hm]
  cases table.match? other.tokens with
  | none => exact .forward ..
  | some command => exact .internal command (List.forall₂_drop _ h)

theorem length_le_of_opens_append_finish {words : List Text.Capitals} {tokens : List Token}
    {position : Nat} (h : opens words (tokens ++ [.finish position]) = true) :
    words.length ≤ tokens.length := by
  induction words generalizing tokens with
  | nil => simp
  | cons word words ih =>
    cases tokens with
    | nil => simp [opens, Token.spells, Token.isWord, Token.finish, TokenKind.isWord] at h
    | cons token tokens =>
      simp only [List.cons_append, opens, Bool.and_eq_true] at h
      have hl := ih h.2
      simp only [List.length_cons]
      omega

theorem exists_append_finish_of_classify {table : CommandTable} {text : String}
    {statement : Statement} {command : Command} {slice : List Token}
    (hr : Statement.read text = .ok statement)
    (hc : table.classify statement = .internal command slice) :
    ∃ tokens, slice = tokens ++ [.finish text.utf8ByteSize] := by
  obtain ⟨_, ho, rfl⟩ := CommandTable.opens_of_classify hc
  obtain ⟨_, rfl⟩ := Statement.read_eq_ok_iff.1 hr
  have hl := length_le_of_opens_append_finish ho
  exact ⟨_, List.drop_append_of_le_length hl⟩

def Command.Leads (command : Command) (tokens : List Token) : Prop :=
  ∃ name rest, tokens = name ++ rest ∧
    List.Forall₂ (fun word token => (token.kind = .keyword ∨ token.kind = .identifier) ∧
      alike token.lexeme word.text = true) command.words name

theorem Token.spells_iff_kind {token : Token} {word : String} :
    token.spells word = true ↔
      (token.kind = .keyword ∨ token.kind = .identifier) ∧ alike token.lexeme word = true := by
  cases hk : token.kind <;> simp [spells, isWord, TokenKind.isWord, hk]

theorem opens_iff {words : List Capitals} {tokens : List Token} :
    opens words tokens = true ↔ ∃ name rest, tokens = name ++ rest ∧
      List.Forall₂ (fun word token => token.spells word.text = true) words name := by
  induction words generalizing tokens with
  | nil => simp [opens]
  | cons word words ih =>
    cases tokens with
    | nil => simp [opens]
    | cons token tokens =>
      simp only [opens, Bool.and_eq_true, ih]
      constructor
      · intro h
        obtain ⟨hs, name, rest, rfl, hn⟩ := h
        exact ⟨token :: name, rest, rfl, .cons hs hn⟩
      · intro h
        obtain ⟨name, rest, he, hn⟩ := h
        cases hn with
        | cons hs hn =>
          obtain ⟨rfl, rfl⟩ := List.cons.inj he
          exact ⟨hs, _, rest, rfl, hn⟩

theorem Command.leads_iff {command : Command} {tokens : List Token} :
    command.Leads tokens ↔ opens command.words tokens = true := by
  simp only [Leads, opens_iff, Token.spells_iff_kind]

namespace CommandTable

theorem ofCommands_eq_ok_iff {commands : List Command} {table : CommandTable} :
    ofCommands commands = .ok table ↔ table.commands = commands := by
  unfold ofCommands
  split
  · rename_i fault hf
    simp only [reduceCtorEq, false_iff]
    rintro rfl
    rw [(firstFault_eq_none_iff [] table.commands).2 ⟨table.named, table.distinct, by simp⟩] at hf
    cases hf
  · cases table
    simp [eq_comm]

theorem classify_eq_of_perm {a b : CommandTable} (h : a.commands.Perm b.commands)
    (statement : Statement) : a.classify statement = b.classify statement := by
  have hm : a.match? statement.tokens = b.match? statement.tokens := by
    refine Option.ext fun command => ?_
    simp only [match?_eq_some_iff, h.mem_iff]
  simp only [classify, hm]

variable {table : CommandTable} {commands : List Command} {statement : Statement} {text : String}

theorem exists_ofCommands_of_perm (h : commands.Perm table.commands) :
    ∃ other, ofCommands commands = .ok other := by
  have hn : ∀ command ∈ commands, command.words ≠ [] :=
    fun command hm => table.named command (h.mem_iff.1 hm)
  have hd : commands.Pairwise (·.words ≠ ·.words) :=
    (h.pairwise_iff fun hab => hab.symm).2 table.distinct
  exact ⟨⟨commands, hn, hd⟩, ofCommands_eq_ok_iff.2 rfl⟩

/-- A statement is the command that leads it with the most words; every other that leads it has
fewer. What stands behind the words, up to the token that ends the statement, are its arguments. A
statement that no command leads is for the engine as it is. The commands make a table in every
order, and it classifies every statement alike. -/
theorem classify_longest_in_any_order (ht : ofCommands commands = .ok table)
    (hr : Statement.read text = .ok statement) :
    (∀ command slice, table.classify statement = .internal command slice ↔
      command ∈ commands ∧ command.Leads statement.tokens ∧
        (∀ other ∈ commands, other ≠ command → other.Leads statement.tokens →
          other.words.length < command.words.length) ∧
        slice = statement.tokens.drop command.words.length) ∧
    (∀ command slice, table.classify statement = .internal command slice →
      ∃ name tokens, statement.tokens = name ++ slice ∧ name.length = command.words.length ∧
        slice = tokens ++ [.finish text.utf8ByteSize]) ∧
    (∀ raw, table.classify statement = .forward raw ↔
      (∀ command ∈ commands, ¬ command.Leads statement.tokens) ∧ raw = text) ∧
    ∀ others : List Command, others.Perm commands →
      ∃ other, ofCommands others = .ok other ∧
        ∀ any : Statement, other.classify any = table.classify any := by
  obtain rfl := ofCommands_eq_ok_iff.1 ht
  refine ⟨fun command slice => ?_, fun command slice hc => ?_, fun raw => ?_, fun others hp => ?_⟩
  · rw [classify_eq_internal_iff, match?_eq_some_iff]
    simp only [Command.leads_iff]
    constructor
    · rintro ⟨⟨hm, ho, hmax⟩, rfl⟩
      refine ⟨hm, ho, fun other hother hne hopens => ?_, rfl⟩
      exact Nat.lt_of_le_of_ne (hmax other hother hopens) fun hl =>
        hne (eq_of_words_eq hother hm (words_eq_of_opens hopens ho hl))
    · rintro ⟨hm, ho, hmax, rfl⟩
      refine ⟨⟨hm, ho, fun other hother hopens => ?_⟩, rfl⟩
      by_cases he : other = command
      · exact Nat.le_of_eq (by rw [he])
      · exact Nat.le_of_lt (hmax other hother he hopens)
  · obtain ⟨tokens, ht⟩ := exists_append_finish_of_classify hr hc
    obtain ⟨_, ho, hs⟩ := opens_of_classify hc
    obtain ⟨name, rest, he, hn⟩ := opens_iff.1 ho
    have hl : command.words.length = name.length := hn.length_eq
    refine ⟨name, tokens, ?_, hl.symm, ht⟩
    rw [hs, hl, he, List.drop_left]
  · rw [classify_eq_forward_iff, match?_eq_none_iff, Statement.text_of_read hr]
    simp only [Command.leads_iff, Bool.not_eq_true, @eq_comm _ text]
  · obtain ⟨other, ho⟩ := exists_ofCommands_of_perm hp
    refine ⟨other, ho, classify_eq_of_perm ?_⟩
    rw [ofCommands_eq_ok_iff.1 ho]
    exact hp

/-- One name begins another; the longer one leads the statement, whichever comes first. -/
theorem classify_longest_set_streaming :
    let short : Command := ⟨[.ofText "SET"], [], [], .acknowledge ""⟩
    let long : Command := ⟨[.ofText "SET", .ofText "STREAMING"], [.boolean], [], .acknowledge ""⟩
    let statement : Statement := ⟨"set Streaming 1",
      [⟨"set", .keyword, 0⟩, ⟨"Streaming", .keyword, 4⟩, ⟨"1", .number, 14⟩, .finish 15]⟩
    ∃ table other, ofCommands [short, long] = .ok table ∧ ofCommands [long, short] = .ok other ∧
      Statement.read "set Streaming 1" = .ok statement ∧
      table.classify statement = .internal long [⟨"1", .number, 14⟩, .finish 15] ∧
      other.classify statement = table.classify statement := by
  intro short long statement
  have ht : ofCommands [short, long] = .ok ⟨[short, long], by decide, by decide⟩ :=
    ofCommands_eq_ok_iff.2 rfl
  have hr : Statement.read "set Streaming 1" = .ok statement := by decide +kernel
  obtain ⟨_, _, _, hp⟩ := classify_longest_in_any_order ht hr
  obtain ⟨other, ho, hc⟩ := hp [long, short] (.swap short long [])
  exact ⟨_, other, ht, ho, hr, by decide +kernel, hc statement⟩

end CommandTable

end SqlDispatch
