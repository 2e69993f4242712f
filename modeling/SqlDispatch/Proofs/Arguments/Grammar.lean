import Mathlib.Data.List.Forall2
import SqlDispatch.Command.Text
import SqlDispatch.Proofs.Classification

set_option autoImplicit false

/-!
The grammar of directives, said without reading one. After the name of a command stand its
arguments, one token each, then clauses, then maybe a semicolon. A clause is the word of an option
and, where the option calls for a value, one token more, whatever it looks like. `Arguments.read`
accepts the tokens of this grammar and no others, and answers what the tokens convert to.
-/

namespace SqlDispatch

open Text

namespace Command

inductive Converts : List Token → List ArgumentKind → List Argument → Prop where
  | nil : Converts [] [] []
  | cons {token : Token} {kind : ArgumentKind} {argument : Argument} {tokens : List Token}
      {kinds : List ArgumentKind} {arguments : List Argument} :
      Argument.read token kind = .ok argument → Converts tokens kinds arguments →
      Converts (token :: tokens) (kind :: kinds) (argument :: arguments)

/-- The token is the bare word of the option, and no option declared before it has the name. -/
def Names (command : Command) (token : Token) (option : OptionSpec) : Prop :=
  token.isWord = true ∧ alike token.lexeme option.name.text = true ∧
    ∃ earlier later, command.options = earlier ++ option :: later ∧
      ∀ other ∈ earlier, other.name ≠ option.name

inductive IsClause (command : Command) : List Token → Capitals × Option Argument → Prop where
  | flag {token : Token} {option : OptionSpec} :
      command.Names token option → option.value = none →
      IsClause command [token] (option.name, none)
  | valued {token value : Token} {option : OptionSpec} {kind : ArgumentKind}
      {argument : Argument} :
      command.Names token option → option.value = some kind →
      Argument.read value kind = .ok argument →
      IsClause command [token, value] (option.name, some argument)

/-- Clauses of options other than those in `used`, no two of one name. -/
def IsClauses (command : Command) (used : List Capitals) (tokens : List Token)
    (options : List (Capitals × Option Argument)) : Prop :=
  ∃ clauses, tokens = clauses.flatten ∧ List.Forall₂ command.IsClause clauses options ∧
    (options.map (·.1)).Nodup ∧ ∀ name ∈ options.map (·.1), name ∉ used

/-- The tokens are arguments of the command's kinds, clauses and at most one semicolon. -/
def Accepts (command : Command) (tokens : List Token) (arguments : Arguments) : Prop :=
  ∃ values clauses terminator, tokens = values ++ clauses ++ terminator ∧
    (terminator = [] ∨ ∃ token, token.isSymbol ";" = true ∧ terminator = [token]) ∧
    Converts values command.arguments arguments.positional ∧
    command.IsClauses [] clauses arguments.options

theorem Converts.length_eq {tokens : List Token} {kinds : List ArgumentKind}
    {arguments : List Argument} (h : Converts tokens kinds arguments) :
    tokens.length = kinds.length := by
  induction h with
  | nil => rfl
  | cons _ _ ih => simp [ih]

theorem Converts.fits {tokens : List Token} {kinds : List ArgumentKind}
    {arguments : List Argument} (h : Converts tokens kinds arguments) :
    List.Forall₂ Argument.Fits arguments kinds := by
  induction h with
  | nil => exact .nil
  | cons hr _ ih => exact .cons (Argument.fits_of_read hr) ih

theorem converts_iff_forall₂ {tokens : List Token} {kinds : List ArgumentKind}
    {arguments : List Argument} :
    Converts tokens kinds arguments ↔ tokens.length = kinds.length ∧
      List.Forall₂ (fun pair argument => Argument.read pair.1 pair.2 = .ok argument)
        (tokens.zip kinds) arguments := by
  constructor
  · intro h
    refine ⟨h.length_eq, ?_⟩
    induction h with
    | nil => exact .nil
    | cons hr _ ih => exact .cons hr ih
  · intro h
    obtain ⟨hl, hf⟩ := h
    induction tokens generalizing kinds arguments with
    | nil =>
      obtain rfl := List.length_eq_zero_iff.1 hl.symm
      cases hf
      exact .nil
    | cons token tokens ih =>
      cases kinds with
      | nil => simp at hl
      | cons kind kinds =>
        rw [List.zip_cons_cons] at hf
        cases hf with
        | cons hr hf => exact .cons hr (ih (by simpa using hl) hf)

theorem optionNamed_eq_some_iff {command : Command} {token : Token} {option : OptionSpec} :
    command.optionNamed token = some option ↔ command.Names token option := by
  have hs (other : OptionSpec) (hw : token.isWord = true) :
      token.spells other.name.text = true ↔ Capitals.ofText token.lexeme = other.name := by
    simp [Token.spells, hw, Capitals.alike_text_iff]
  unfold optionNamed Names
  rw [List.find?_eq_some_iff_append]
  constructor
  · intro h
    obtain ⟨h, earlier, later, he, hn⟩ := h
    obtain ⟨hw, ha⟩ : token.isWord = true ∧ alike token.lexeme option.name.text = true := by
      simpa [Token.spells] using h
    refine ⟨hw, ha, earlier, later, he, fun other ho heq => ?_⟩
    have hf := hn other ho
    rw [heq, h] at hf
    exact absurd hf (by simp)
  · intro h
    obtain ⟨hw, ha, earlier, later, he, hn⟩ := h
    refine ⟨by simp [Token.spells, hw, ha], earlier, later, he, fun other ho => ?_⟩
    rw [Capitals.alike_text_iff] at ha
    rw [Bool.not_eq_true', Bool.eq_false_iff, Ne, hs other hw, ha]
    exact fun h => hn other ho h.symm

theorem Names.functional {command : Command} {token : Token} {a b : OptionSpec}
    (ha : command.Names token a) (hb : command.Names token b) : a = b :=
  Option.some.inj <|
    (optionNamed_eq_some_iff.2 ha).symm.trans (optionNamed_eq_some_iff.2 hb)

theorem Names.mem {command : Command} {token : Token} {option : OptionSpec}
    (h : command.Names token option) : option ∈ command.options := by
  obtain ⟨_, _, earlier, later, he, _⟩ := h
  simp [he]

variable {command : Command} {used : List Capitals} {options : List (Capitals × Option Argument)}

theorem isClauses_nil : command.IsClauses used [] options ↔ options = [] := by
  constructor
  · intro h
    obtain ⟨clauses, he, hc, _⟩ := h
    cases hc with
    | nil => rfl
    | cons h _ => cases h <;> simp at he
  · intro h
    subst h
    exact ⟨[], rfl, .nil, by simp, by simp⟩

theorem isClauses_cons {token : Token} {rest : List Token} :
    command.IsClauses used (token :: rest) options ↔
      ∃ clause entry later others, token :: rest = clause ++ later ∧ options = entry :: others ∧
        command.IsClause clause entry ∧ entry.1 ∉ used ∧
        command.IsClauses (entry.1 :: used) later others := by
  constructor
  · intro h
    obtain ⟨clauses, he, hc, hd, hu⟩ := h
    cases hc with
    | nil => simp at he
    | @cons clause entry clauses others h hc =>
      simp only [List.map_cons, List.nodup_cons, List.mem_cons, forall_eq_or_imp] at hd hu
      refine ⟨clause, entry, clauses.flatten, others, he, rfl, h, hu.1, clauses, rfl, hc, hd.2, ?_⟩
      intro name hm
      simp only [List.mem_cons, not_or]
      exact ⟨fun e => hd.1 (e ▸ hm), hu.2 name hm⟩
  · intro h
    obtain ⟨clause, entry, later, others, he, rfl, h, hu, clauses, rfl, hc, hd, ho⟩ := h
    simp only [List.mem_cons, not_or] at ho
    refine ⟨clause :: clauses, he, .cons h hc, ?_, ?_⟩
    · exact List.nodup_cons.2 ⟨fun hm => (ho _ hm).1 rfl, hd⟩
    · intro name hm
      rcases List.mem_cons.1 hm with rfl | hm
      · exact hu
      · exact (ho name hm).2

theorem isClauses_flag {token : Token} {option : OptionSpec} {rest : List Token}
    (hn : command.Names token option) (hv : option.value = none) :
    command.IsClauses used (token :: rest) options ↔ option.name ∉ used ∧
      ∃ others, options = (option.name, none) :: others ∧
        command.IsClauses (option.name :: used) rest others := by
  rw [isClauses_cons]
  constructor
  · intro h
    obtain ⟨clause, entry, later, others, he, rfl, hc, hu, hr⟩ := h
    cases hc with
    | flag hn' _ =>
      obtain ⟨rfl, rfl⟩ := List.cons.inj he
      obtain rfl := hn.functional hn'
      exact ⟨hu, others, rfl, hr⟩
    | valued hn' hv' _ =>
      obtain ⟨rfl, _⟩ := List.cons.inj he
      obtain rfl := hn.functional hn'
      simp [hv] at hv'
  · intro h
    obtain ⟨hu, others, rfl, hr⟩ := h
    exact ⟨[token], _, rest, others, rfl, rfl, .flag hn hv, hu, hr⟩

theorem isClauses_valued {token : Token} {option : OptionSpec} {kind : ArgumentKind}
    {rest : List Token} (hn : command.Names token option) (hv : option.value = some kind) :
    command.IsClauses used (token :: rest) options ↔ option.name ∉ used ∧
      ∃ value later argument others, rest = value :: later ∧
        Argument.read value kind = .ok argument ∧
        options = (option.name, some argument) :: others ∧
        command.IsClauses (option.name :: used) later others := by
  rw [isClauses_cons]
  constructor
  · intro h
    obtain ⟨clause, entry, later, others, he, rfl, hc, hu, hr⟩ := h
    cases hc with
    | flag hn' hv' =>
      obtain ⟨rfl, _⟩ := List.cons.inj he
      obtain rfl := hn.functional hn'
      simp [hv] at hv'
    | @valued _ value _ kind' argument hn' hv' ha =>
      obtain ⟨rfl, rfl⟩ := List.cons.inj he
      obtain rfl := hn.functional hn'
      obtain rfl : kind = kind' := Option.some.inj (hv.symm.trans hv')
      exact ⟨hu, value, later, argument, others, rfl, ha, rfl, hr⟩
  · intro h
    obtain ⟨hu, value, later, argument, others, rfl, ha, rfl, hr⟩ := h
    exact ⟨[token, value], _, later, others, rfl, rfl, .valued hn hv ha, hu, hr⟩

theorem not_isClauses_of_optionNamed_eq_none {token : Token} {rest : List Token}
    (h : command.optionNamed token = none) : ¬ command.IsClauses used (token :: rest) options := by
  have hn (option : OptionSpec) : ¬ command.Names token option := fun hn => by
    simp [optionNamed_eq_some_iff.2 hn] at h
  rw [isClauses_cons]
  intro h
  obtain ⟨clause, entry, later, others, he, _, hc, _⟩ := h
  cases hc with
  | flag hn' _ => exact hn _ ((List.cons.inj he).1 ▸ hn')
  | valued hn' _ _ => exact hn _ ((List.cons.inj he).1 ▸ hn')

end Command

theorem bind_eq_ok_iff {ε α β : Type} {x : Except ε α} {f : α → Except ε β} {b : β} :
    (x >>= f) = .ok b ↔ ∃ a, x = .ok a ∧ f a = .ok b := by
  cases x <;> simp [bind, Except.bind]

theorem mapM_eq_ok_iff {α β : Type} {f : α → Except Fault β} {xs : List α} {ys : List β} :
    xs.mapM f = .ok ys ↔ List.Forall₂ (fun x y => f x = .ok y) xs ys := by
  induction xs generalizing ys with
  | nil => simp [pure, Except.pure, eq_comm]
  | cons x xs ih =>
    simp only [List.mapM_cons, bind_eq_ok_iff, ih, pure, Except.pure, Except.ok.injEq,
      List.forall₂_cons_left_iff]
    constructor
    · intro h
      obtain ⟨y, hy, rest, hr, rfl⟩ := h
      exact ⟨y, rest, hy, hr, rfl⟩
    · intro h
      obtain ⟨y, rest, hy, hr, rfl⟩ := h
      exact ⟨y, hy, rest, hr, rfl⟩

theorem exists_of_forall₂ {α β : Type} {R : α → β → Prop} {xs : List α} {ys : List β}
    (h : List.Forall₂ R xs ys) : ∀ x ∈ xs, ∃ y, R x y := by
  induction h with
  | nil => simp
  | cons hr _ ih =>
    rw [List.forall_mem_cons]
    exact ⟨⟨_, hr⟩, ih⟩

namespace Clauses

theorem report_eq_none_iff {command : Command} {clauses : Clauses} :
    clauses.report command = none ↔ clauses.surplus = [] ∧ clauses.fault = none := by
  unfold report
  split
  · rename_i h
    simp [h]
  · rename_i first rest h
    simp only [h, reduceCtorEq, false_and, iff_false]
    split
    · simp
    · rename_i position hp
      split
      · simp
      · intro hn
        simp [hn] at hp

def Complete (clauses : Clauses) (options : List (Capitals × Option Argument)) : Prop :=
  clauses.surplus = [] ∧ clauses.fault = none ∧
    List.Forall₂ (fun clause entry => Clause.read clause = .ok entry) clauses.clauses options

theorem complete_read_iff (command : Command) (finish : Nat) (used : List Capitals)
    (tokens : List Token) (options : List (Capitals × Option Argument)) :
    (read command finish used tokens).Complete options ↔
      command.IsClauses used tokens options := by
  fun_induction read command finish used tokens generalizing options with
  | case1 used => simp [Complete, Command.isClauses_nil]
  | case2 used token rest ho others ih =>
    simp [Complete, Command.not_isClauses_of_optionNamed_eq_none ho]
  | case3 used token rest option ho hu =>
    have hn := Command.optionNamed_eq_some_iff.1 ho
    simp only [Complete, stop, reduceCtorEq, false_and, and_false, false_iff]
    rw [Command.isClauses_cons]
    intro h
    obtain ⟨clause, entry, later, more, he, _, hc, hf, _⟩ := h
    cases hc with
    | flag hn' _ =>
      obtain rfl := hn.functional ((List.cons.inj he).1 ▸ hn')
      exact hf hu
    | valued hn' _ _ =>
      obtain rfl := hn.functional ((List.cons.inj he).1 ▸ hn')
      exact hf hu
  | case4 used token rest option ho hu hv others ih =>
    rw [Command.isClauses_flag (Command.optionNamed_eq_some_iff.1 ho) hv]
    constructor
    · intro h
      obtain ⟨hs, hf, hall⟩ := h
      obtain ⟨entry, more, he, hr, rfl⟩ := List.forall₂_cons_left_iff.1 hall
      obtain rfl : (option.name, none) = entry := by simpa [Clause.read, hv] using he
      exact ⟨hu, more, rfl, (ih more).1 ⟨hs, hf, hr⟩⟩
    · intro h
      obtain ⟨_, more, rfl, hr⟩ := h
      obtain ⟨hs, hf, hc⟩ := (ih more).2 hr
      exact ⟨hs, hf, .cons (by simp [Clause.read]) hc⟩
  | case5 used token option ho hu kind hv =>
    rw [Command.isClauses_valued (Command.optionNamed_eq_some_iff.1 ho) hv]
    simp [Complete, stop]
  | case6 used token option ho hu kind hv value rest others ih =>
    rw [Command.isClauses_valued (Command.optionNamed_eq_some_iff.1 ho) hv]
    have hc : Clause.read ⟨option, some value⟩ =
        (Argument.read value kind).map fun argument => (option.name, some argument) := by
      simp [Clause.read, hv]
    constructor
    · intro h
      obtain ⟨hs, hf, hall⟩ := h
      obtain ⟨entry, more, he, hr, rfl⟩ := List.forall₂_cons_left_iff.1 hall
      obtain ⟨argument, ha, rfl⟩ := Argument.exists_of_map_eq_ok (hc ▸ he)
      exact ⟨hu, value, rest, argument, more, rfl, ha, rfl, (ih more).1 ⟨hs, hf, hr⟩⟩
    · intro h
      obtain ⟨_, _, _, argument, more, he, ha, rfl, hr⟩ := h
      obtain ⟨rfl, rfl⟩ := List.cons.inj he
      obtain ⟨hs, hf, hr⟩ := (ih more).2 hr
      refine ⟨hs, hf, .cons ?_ hr⟩
      rw [hc, ha]
      rfl

end Clauses

/-- The text is not one of those that are read as a truth value whatever their kind. -/
def IsMark (symbol : String) : Prop := lower symbol ∉ ["1", "on", "0", "off"]

instance (symbol : String) : Decidable (IsMark symbol) := by
  unfold IsMark
  infer_instance

variable {symbol : String}

theorem Argument.isSymbol_of_read {token : Token} {kind : ArgumentKind} {argument : Argument}
    (h : Argument.read token kind = .ok argument) (hs : IsMark symbol) :
    token.isSymbol symbol = false := by
  cases ht : token.isSymbol symbol with
  | false => rfl
  | true =>
    simp only [Token.isSymbol, Bool.and_eq_true, beq_iff_eq] at ht
    simp only [IsMark, List.mem_cons, List.not_mem_nil, or_false, not_or] at hs
    cases kind <;>
      simp [read, readBoolean, readInteger, readIdentifier, readString, Except.map, ht, hs] at h

namespace Command

variable {command : Command} {used : List Capitals} {options : List (Capitals × Option Argument)}

theorem IsClause.isSymbol {clause : List Token} {entry : Capitals × Option Argument}
    (h : command.IsClause clause entry) (hs : IsMark symbol) :
    ∀ token ∈ clause, token.isSymbol symbol = false := by
  have hw {token : Token} (hw : token.isWord = true) : token.isSymbol symbol = false := by
    cases hk : token.kind <;> simp_all [Token.isWord, TokenKind.isWord, Token.isSymbol]
  cases h with
  | flag hn _ => simpa using hw hn.1
  | valued hn _ hr => simpa using ⟨hw hn.1, Argument.isSymbol_of_read hr hs⟩

theorem IsClauses.isSymbol {tokens : List Token} (h : command.IsClauses used tokens options)
    (hs : IsMark symbol) : ∀ token ∈ tokens, token.isSymbol symbol = false := by
  obtain ⟨clauses, rfl, hc, _⟩ := h
  clear * - hc hs
  induction hc with
  | nil => simp
  | cons h _ ih =>
    intro token hm
    rcases List.mem_append.1 hm with hm | hm
    · exact h.isSymbol hs token hm
    · exact ih token hm

def Declares (command : Command) (entry : Capitals × Option Argument) : Prop :=
  ∃ option ∈ command.options, option.name = entry.1 ∧
    (option.value = none ∧ entry.2 = none ∨
      ∃ kind argument, option.value = some kind ∧ entry.2 = some argument ∧ argument.Fits kind)

theorem IsClause.declares {clause : List Token} {entry : Capitals × Option Argument}
    (h : command.IsClause clause entry) : command.Declares entry := by
  cases h with
  | @flag _ option hn hv => exact ⟨option, hn.mem, rfl, .inl ⟨hv, rfl⟩⟩
  | @valued _ _ option kind argument hn hv hr =>
    exact ⟨option, hn.mem, rfl, .inr ⟨kind, argument, hv, rfl, Argument.fits_of_read hr⟩⟩

theorem IsClauses.declares {tokens : List Token} (h : command.IsClauses used tokens options) :
    ∀ entry ∈ options, command.Declares entry := by
  obtain ⟨clauses, _, hc, _⟩ := h
  clear * - hc
  induction hc with
  | nil => simp
  | cons h _ ih => simpa using ⟨h.declares, fun name value hm => ih (name, value) hm⟩

theorem IsClauses.pairwise {tokens : List Token} (h : command.IsClauses used tokens options) :
    options.Pairwise fun a b => alike a.1.text b.1.text = false := by
  obtain ⟨_, _, _, hd, _⟩ := h
  refine (List.pairwise_map.1 hd).imp fun {a b} hne => ?_
  rw [Bool.eq_false_iff, Ne, Capitals.alike_text_iff, Capitals.ofText_text]
  exact hne

end Command

/-- The tokens are `body` and then what ends a statement that is `length` bytes long: a semicolon
and the end, or the end alone. It begins at `stop`. -/
inductive Ends (length : Nat) : List Token → List Token → Nat → Prop where
  | semicolon {body : List Token} {token : Token} :
      token.isSymbol ";" = true →
      Ends length (body ++ [token, .finish length]) body token.position
  | finish {body : List Token} :
      (∀ token ∈ body.getLast?, token.isSymbol ";" = false) →
      Ends length (body ++ [.finish length]) body length

theorem ends_dropTerminator (tokens : List Token) (length : Nat) :
    Ends length (tokens ++ [.finish length]) (dropTerminator (tokens ++ [.finish length])).1
      (dropTerminator (tokens ++ [.finish length])).2 := by
  have hd : dropFinish (tokens ++ [.finish length]) = (tokens, length) := by
    simp [dropFinish, Token.isFinish, Token.finish]
  simp only [dropTerminator, hd]
  cases hl : tokens.getLast? with
  | none => exact .finish (by simp [hl])
  | some last =>
    cases hs : last.isSymbol ";" with
    | false =>
      simp only [hs, Bool.false_eq_true, if_false]
      exact .finish (by simp [hl, hs])
    | true =>
      obtain ⟨front, rfl⟩ := List.getLast?_eq_some_iff.1 hl
      have h : Ends length (front ++ [last, .finish length]) front last.position := .semicolon hs
      simpa [hs] using h

theorem Ends.dropTerminator_eq {length stop : Nat} {tokens body : List Token}
    (h : Ends length tokens body stop) : dropTerminator tokens = (body, stop) := by
  cases h with
  | semicolon hs => simp [dropTerminator, dropFinish, Token.isFinish, Token.finish, hs]
  | finish hl =>
    have hd : dropFinish (body ++ [.finish length]) = (body, length) := by
      simp [dropFinish, Token.isFinish, Token.finish]
    simp only [dropTerminator, hd]
    cases hb : body.getLast? with
    | none => rfl
    | some last => simp [hl last hb]

theorem Ends.exists_eq_append {length stop : Nat} {tokens body : List Token}
    (h : Ends length tokens body stop) :
    ∃ last rest, tokens = body ++ last :: rest ∧ last.position = stop := by
  cases h with
  | semicolon => exact ⟨_, _, rfl, rfl⟩
  | finish => exact ⟨_, _, rfl, rfl⟩

theorem dropTerminator_append_finish (tokens : List Token) (position : Nat) :
    ∃ terminator,
      tokens = (dropTerminator (tokens ++ [.finish position])).1 ++ terminator ∧
      (terminator = [] ∧ (∀ token ∈ tokens.getLast?, token.isSymbol ";" = false) ∨
        ∃ token, token.isSymbol ";" = true ∧ terminator = [token]) := by
  have h := ends_dropTerminator tokens position
  generalize hg : tokens ++ [.finish position] = given at h ⊢
  generalize (dropTerminator given).1 = body, (dropTerminator given).2 = stop at h ⊢
  cases h with
  | @semicolon _ token hs =>
    have he : tokens ++ [.finish position] = body ++ [token] ++ [.finish position] := by simp [hg]
    exact ⟨[token], List.append_cancel_right he, .inr ⟨token, hs, rfl⟩⟩
  | finish hn =>
    obtain rfl := List.append_cancel_right hg
    exact ⟨[], by simp, .inl ⟨rfl, hn⟩⟩

theorem Command.Converts.isSymbol {tokens : List Token} {kinds : List ArgumentKind}
    {arguments : List Argument} (h : Command.Converts tokens kinds arguments)
    (hs : IsMark symbol) : ∀ token ∈ tokens, token.isSymbol symbol = false := by
  induction h with
  | nil => simp
  | cons hr _ ih => simpa using ⟨Argument.isSymbol_of_read hr hs, ih⟩

theorem Command.Accepts.isSymbol {command : Command} {tokens : List Token} {arguments : Arguments}
    (h : command.Accepts tokens arguments) (hs : IsMark symbol) (hn : symbol ≠ ";") :
    ∀ token ∈ tokens, token.isSymbol symbol = false := by
  obtain ⟨values, clauses, terminator, rfl, ht, hv, hc⟩ := h
  intro token hm
  rcases List.mem_append.1 hm with hm | hm
  · rcases List.mem_append.1 hm with hm | hm
    · exact hv.isSymbol hs token hm
    · exact hc.isSymbol hs token hm
  · rcases ht with rfl | ⟨last, hl, rfl⟩
    · simp at hm
    · rw [List.mem_singleton.1 hm]
      simp only [Token.isSymbol, Bool.and_eq_true, beq_iff_eq] at hl
      simp [Token.isSymbol, hl, hn.symm]

namespace Arguments

theorem read_eq_ok_iff_clauses (command : Command) (slice : List Token) (arguments : Arguments) :
    read command slice = .ok arguments ↔
      Command.Converts ((dropTerminator slice).1.take command.arguments.length) command.arguments
        arguments.positional ∧
      command.IsClauses [] ((dropTerminator slice).1.drop command.arguments.length)
        arguments.options := by
  unfold read
  rw [Command.converts_iff_forall₂, List.length_take]
  simp only
  split
  · rename_i hl
    simp only [reduceCtorEq, false_iff]
    omega
  · rename_i hl
    simp only [Nat.min_eq_left (Nat.not_lt.1 hl), true_and]
    rw [← Clauses.complete_read_iff command (dropTerminator slice).2, Clauses.Complete]
    split
    · rename_i fault hf
      simp only [reduceCtorEq, false_iff, not_and]
      intro _ hs hn
      rw [Clauses.report_eq_none_iff.2 ⟨hs, hn⟩] at hf
      cases hf
    · rename_i hf
      obtain ⟨hs, hn⟩ := Clauses.report_eq_none_iff.1 hf
      simp only [hs, hn, true_and, bind_eq_ok_iff, mapM_eq_ok_iff]
      constructor
      · intro h
        obtain ⟨positional, hp, options, ho, he⟩ := h
        obtain rfl := Except.ok.inj he
        exact ⟨hp, ho⟩
      · intro h
        obtain ⟨hp, ho⟩ := h
        exact ⟨_, hp, _, ho, rfl⟩

theorem read_append_finish_eq_ok_iff (command : Command) (tokens : List Token) (position : Nat)
    (arguments : Arguments) :
    read command (tokens ++ [.finish position]) = .ok arguments ↔
      command.Accepts tokens arguments := by
  obtain ⟨terminator, he, ht⟩ := dropTerminator_append_finish tokens position
  rw [read_eq_ok_iff_clauses]
  generalize (dropTerminator (tokens ++ [.finish position])).1 = body at he
  constructor
  · intro h
    obtain ⟨hv, hc⟩ := h
    refine ⟨_, _, terminator, ?_, ht.imp And.left id, hv, hc⟩
    rw [List.take_append_drop]
    exact he
  · intro h
    obtain ⟨values, clauses, terminator', he', ht', hv, hc⟩ := h
    -- no token of an argument or a clause is a semicolon, so both ways of taking one off agree
    have hs : ∀ token ∈ values ++ clauses, token.isSymbol ";" = false := by
      intro token hm
      rcases List.mem_append.1 hm with hm | hm
      · exact hv.isSymbol (by decide +kernel) token hm
      · exact hc.isSymbol (by decide +kernel) token hm
    have hb : body = values ++ clauses := by
      rcases ht with ⟨rfl, hl⟩ | ⟨last, hsl, rfl⟩
      · rcases ht' with rfl | ⟨last, hsl, rfl⟩
        · rw [List.append_nil] at he he'
          exact he.symm.trans he'
        · have hf := hl last (by simp [he'])
          simp [hsl] at hf
      · rcases ht' with rfl | ⟨last', _, rfl⟩
        · have hf := hs last (by rw [List.append_nil] at he'; simp [← he', he])
          simp [hsl] at hf
        · exact (List.append_inj' (he.symm.trans he') rfl).1
    rw [hb, List.take_left' hv.length_eq, List.drop_left' hv.length_eq]
    exact ⟨hv, hc⟩

theorem read_single_clause {command : Command} {mode word given : Token} {stop : Nat}
    {first kind : ArgumentKind} {argument : Argument} {option : OptionSpec}
    (ha : command.arguments = [first]) (hm : Argument.read mode first = .ok argument)
    (hn : command.Names word option) (hk : option.value = some kind)
    (hs : given.isSymbol ";" = false) :
    read command [mode, word, given, .finish stop] =
      (Argument.read given kind).map fun value =>
        ⟨[argument], [(option.name, some value)]⟩ := by
  have hd : dropTerminator [mode, word, given, .finish stop] = ([mode, word, given], stop) := by
    simp [dropTerminator, dropFinish, Token.finish, Token.isFinish, hs]
  have hc : Clauses.read command stop [] [word, given] = ⟨[⟨option, some given⟩], [], none⟩ := by
    simp [Clauses.read, Command.optionNamed_eq_some_iff.2 hn, hk]
  simp only [read, hd, ha]
  cases hv : Argument.read given kind <;>
    simp [hc, hm, Clauses.report, Clause.read, hk, hv, bind, Except.bind, pure, Except.pure,
      Except.map]

/-- What classification leaves of a statement ends with the token that closes it. Tokens closed so
are read just if they are a directive's, and answer what its arguments and clauses convert to, with
every number within its bounds and no option twice. -/
theorem read_classified_eq_ok_iff_accepts (command : Command) :
    (∀ (table : CommandTable) (text : String) (statement : Statement) (named : Command)
      (slice : List Token), Statement.read text = .ok statement →
        table.classify statement = .internal named slice →
        ∃ tokens, slice = tokens ++ [.finish text.utf8ByteSize]) ∧
    ∀ (tokens : List Token) (position : Nat) (arguments : Arguments),
      (read command (tokens ++ [.finish position]) = .ok arguments ↔
        command.Accepts tokens arguments) ∧
      (read command (tokens ++ [.finish position]) = .ok arguments →
        List.Forall₂ Argument.Fits arguments.positional command.arguments ∧
        (∀ entry ∈ arguments.options, command.Declares entry) ∧
        arguments.options.Pairwise fun a b => alike a.1.text b.1.text = false) := by
  constructor
  · intro table text statement named slice hr hc
    exact exists_append_finish_of_classify hr hc
  · intro tokens position arguments
    have hiff := read_append_finish_eq_ok_iff command tokens position arguments
    refine ⟨hiff, fun h => ?_⟩
    obtain ⟨_, _, _, _, _, hv, hc⟩ := hiff.1 h
    exact ⟨hv.fits, hc.declares, hc.pairwise⟩

end Arguments

end SqlDispatch
