import Mathlib.Data.List.Find
import Mathlib.Data.List.Perm.Basic
import SqlDispatch.Proofs.Arguments.Grammar
import SqlDispatch.Router

set_option autoImplicit false

/-!
The order of clauses. Clauses that are read may stand in any order: what they give is the same
options in another order, and since no two options have one name, whatever looks an option up by its
name finds the same. The end of a statement is told by the kind of the last token alone, so there is
one exception, which no statement that is closed meets: the value that comes last may be taken for
the end.
-/

namespace SqlDispatch

open Text

def IsClosed (tokens : List Token) : Prop := ∃ last ∈ tokens.getLast?, last.isFinish = true

/-- A semicolon and the token that closes the statement, either of which may be missing. -/
inductive IsTerminator : List Token → Prop where
  | nothing : IsTerminator []
  | semicolon {mark : Token} : mark.isSymbol ";" = true → IsTerminator [mark]
  | finish {last : Token} : last.isFinish = true → IsTerminator [last]
  | both {mark last : Token} :
      mark.isSymbol ";" = true → last.isFinish = true → IsTerminator [mark, last]

section Terminator

variable {body ending tokens : List Token}

theorem Token.isFinish_of_isSymbol {token : Token} {symbol : String}
    (h : token.isSymbol symbol = true) : token.isFinish = false := by
  simp only [isSymbol, Bool.and_eq_true, beq_iff_eq] at h
  simp [isFinish, h.1]

theorem Token.isFinish_of_isWord {token : Token} (h : token.isWord = true) :
    token.isFinish = false := by
  cases hk : token.kind <;> simp_all [isWord, TokenKind.isWord, isFinish]

theorem isClosed_concat {last : Token} : IsClosed (body ++ [last]) ↔ last.isFinish = true := by
  simp [IsClosed]

theorem isClosed_append_cons {token : Token} {rest : List Token} :
    IsClosed (body ++ token :: rest) ↔ IsClosed (token :: rest) := by
  simp [IsClosed, List.getLast?_append]

theorem dropFinish_of_isClosed {last : Token} (h : last.isFinish = true) :
    (dropFinish (body ++ [last])).1 = body := by
  simp [dropFinish, h]

theorem dropFinish_of_not_isClosed (h : ¬ IsClosed tokens) : (dropFinish tokens).1 = tokens := by
  unfold dropFinish
  cases hl : tokens.getLast? with
  | none => exact (List.getLast?_eq_none_iff.1 hl).symm
  | some last =>
    have hf : last.isFinish = false := by
      by_contra hf
      exact h ⟨last, hl, by simpa using hf⟩
    simp [hf]

theorem exists_dropFinish_append (tokens : List Token) :
    ∃ ending, tokens = (dropFinish tokens).1 ++ ending ∧
      (ending = [] ∧ ¬ IsClosed tokens ∨ ∃ last, last.isFinish = true ∧ ending = [last]) := by
  by_cases h : IsClosed tokens
  · obtain ⟨last, hl, hf⟩ := h
    obtain ⟨front, rfl⟩ := List.getLast?_eq_some_iff.1 hl
    exact ⟨[last], by rw [dropFinish_of_isClosed hf], .inr ⟨last, hf, rfl⟩⟩
  · exact ⟨[], by rw [dropFinish_of_not_isClosed h, List.append_nil], .inl ⟨rfl, h⟩⟩

theorem dropTerminator_of_mark {mark : Token} (hd : (dropFinish tokens).1 = body ++ [mark])
    (hm : mark.isSymbol ";" = true) : (dropTerminator tokens).1 = body := by
  simp [dropTerminator, hd, hm]

theorem dropTerminator_of_no_mark (hd : (dropFinish tokens).1 = body)
    (hm : ∀ last ∈ body.getLast?, last.isSymbol ";" = false) :
    (dropTerminator tokens).1 = body := by
  unfold dropTerminator
  simp only [hd]
  cases hl : body.getLast? with
  | none => exact hd
  | some last => simp [hm last hl, hd]

theorem exists_append_isTerminator (tokens : List Token) :
    ∃ ending, tokens = (dropTerminator tokens).1 ++ ending ∧ IsTerminator ending ∧
      (ending = [] → ¬ IsClosed tokens) := by
  obtain ⟨closing, he, hc⟩ := exists_dropFinish_append tokens
  generalize hd : (dropFinish tokens).1 = body at he
  by_cases hm : ∀ last ∈ body.getLast?, last.isSymbol ";" = false
  · rw [dropTerminator_of_no_mark hd hm]
    rcases hc with ⟨rfl, hn⟩ | ⟨last, hl, rfl⟩
    · exact ⟨[], he, .nothing, fun _ => hn⟩
    · exact ⟨[last], he, .finish hl, by simp⟩
  · simp only [not_forall, Bool.not_eq_false] at hm
    obtain ⟨mark, hl, hm⟩ := hm
    obtain ⟨front, rfl⟩ := List.getLast?_eq_some_iff.1 hl
    rw [dropTerminator_of_mark hd hm]
    rcases hc with ⟨rfl, _⟩ | ⟨last, hl, rfl⟩
    · exact ⟨[mark], by simpa using he, .semicolon hm, by simp⟩
    · exact ⟨[mark, last], by simpa using he, .both hm hl, by simp⟩

/-- What stands before the terminator is left; it may end as a statement does unless the terminator
is empty. -/
theorem IsTerminator.dropTerminator_append (h : IsTerminator ending)
    (hb : ∀ token ∈ body, token.isSymbol ";" = false) (hn : ending = [] → ¬ IsClosed body) :
    (dropTerminator (body ++ ending)).1 = body := by
  have hm : ∀ last ∈ body.getLast?, last.isSymbol ";" = false :=
    fun last hl => hb last (List.mem_of_mem_getLast? hl)
  cases h with
  | nothing =>
    rw [List.append_nil]
    exact dropTerminator_of_no_mark (dropFinish_of_not_isClosed (hn rfl)) hm
  | semicolon hs =>
    refine dropTerminator_of_mark (dropFinish_of_not_isClosed ?_) hs
    simp [isClosed_concat, Token.isFinish_of_isSymbol hs]
  | finish hf => exact dropTerminator_of_no_mark (dropFinish_of_isClosed hf) hm
  | @both mark last hs hf =>
    have hd : (dropFinish (body ++ [mark] ++ [last])).1 = body ++ [mark] :=
      dropFinish_of_isClosed hf
    rw [List.append_assoc] at hd
    exact dropTerminator_of_mark hd hs

end Terminator

namespace Command

variable {command : Command} {used : List Capitals} {rest : List Token}
  {clauses others : List (List Token)} {options : List (Capitals × Option Argument)}

theorem exists_isClauses_of_perm (ho : others.Perm clauses)
    (hc : List.Forall₂ command.IsClause clauses options) (hd : (options.map (·.1)).Nodup) :
    ∃ moved, moved.Perm options ∧ command.IsClauses [] others.flatten moved := by
  obtain ⟨moved, hm, hp⟩ := List.perm_comp_forall₂ ho hc
  exact ⟨moved, hp, others, rfl, hm, (hp.map _).nodup_iff.2 hd, by simp⟩

theorem IsClauses.exists_of_append {clause : List Token} {entry : Capitals × Option Argument}
    (hc : command.IsClause clause entry) (h : command.IsClauses used (clause ++ rest) options) :
    ∃ others, options = entry :: others ∧ command.IsClauses (entry.1 :: used) rest others := by
  cases hc with
  | flag hn hv =>
    obtain ⟨_, others, rfl, hr⟩ := (isClauses_flag hn hv).1 h
    exact ⟨others, rfl, hr⟩
  | valued hn hv ha =>
    obtain ⟨_, value, later, argument, others, he, ha', rfl, hr⟩ := (isClauses_valued hn hv).1 h
    obtain ⟨rfl, rfl⟩ := List.cons.inj he
    obtain rfl := Except.ok.inj (ha.symm.trans ha')
    exact ⟨others, rfl, hr⟩

theorem IsClauses.of_append (hc : ∀ clause ∈ clauses, ∃ entry, command.IsClause clause entry)
    (h : command.IsClauses used (clauses.flatten ++ rest) options) :
    ∃ earlier others, command.IsClauses earlier rest others := by
  induction clauses generalizing used options with
  | nil => exact ⟨_, _, h⟩
  | cons clause clauses ih =>
    rw [List.forall_mem_cons] at hc
    obtain ⟨entry, hclause⟩ := hc.1
    rw [List.flatten_cons, List.append_assoc] at h
    obtain ⟨_, _, hr⟩ := h.exists_of_append hclause
    exact ih hc.2 hr

theorem not_isClauses_of_missing {token : Token} {option : OptionSpec} {kind : ArgumentKind}
    (hn : command.Names token option) (hv : option.value = some kind) :
    ¬ command.IsClauses used [token] options := by
  rw [isClauses_valued hn hv]
  rintro ⟨_, value, later, _, _, he, _⟩
  cases he

end Command

namespace Arguments

variable {command : Command} {values : List Token} {positional : List Argument}
  {options : List (Capitals × Option Argument)} {arguments others : Arguments}

/-- The arguments are the same up to the order of their options, no two of which have one name. -/
structure Reorders (others arguments : Arguments) : Prop where
  positional : others.positional = arguments.positional
  options : others.options.Perm arguments.options
  nodup : (arguments.options.map (·.1)).Nodup

namespace Reorders

theorem hasOption (h : others.Reorders arguments) (name : String) :
    others.hasOption name = arguments.hasOption name := h.options.any_eq

theorem optionValue (h : others.Reorders arguments) (name : String) :
    others.optionValue name = arguments.optionValue name := by
  have hf : others.options.find? (fun entry => entry.1 = .ofText name) =
      arguments.options.find? fun entry => entry.1 = .ofText name := by
    refine List.find?_eq_find?_of_perm h.options fun a ha b hb => ?_
    have he : a.1 = b.1 := (of_decide_eq_true ha.2).trans (of_decide_eq_true hb.2).symm
    have hm {entry} := h.options.mem_iff (a := entry)
    exact List.inj_on_of_nodup_map h.nodup (hm.1 ha.1) (hm.1 hb.1) he
  rw [Arguments.optionValue, hf, Arguments.optionValue]

theorem eq_of_alike (h : others.Reorders arguments) {name other : String}
    (ha : alike name other = true) : others.hasOption name = arguments.hasOption other ∧
      others.optionValue name = arguments.optionValue other := by
  have hname : Capitals.ofText name = Capitals.ofText other :=
    Capitals.ext_text (alike_iff_upper.1 ha)
  rw [h.hasOption, h.optionValue, Arguments.hasOption, Arguments.optionValue, hname]
  exact ⟨rfl, rfl⟩

theorem get? (h : others.Reorders arguments) (index : Nat) :
    others.get? index = arguments.get? index := by
  rw [Arguments.get?, h.positional, Arguments.get?]

theorem ofArguments (h : others.Reorders arguments) (defaults : Streaming.Settings) :
    defaults.ofArguments others = defaults.ofArguments arguments := by
  simp only [Streaming.Settings.ofArguments, Streaming.Settings.apply, Streaming.readMode,
    Streaming.readOption, h.get?, h.hasOption, h.optionValue]

theorem executeCommand (h : others.Reorders arguments) {State : Type} (session : Session)
    (state : State) : Router.executeCommand command others session state =
      Router.executeCommand command arguments session state := by
  rw [Router.executeCommand, command.handler.run_congr h.ofArguments, Router.executeCommand]

end Reorders

theorem exists_clauses_of_read {tokens : List Token} (h : read command tokens = .ok arguments) :
    ∃ values clauses ending, tokens = values ++ clauses.flatten ++ ending ∧
      Command.Converts values command.arguments arguments.positional ∧
      List.Forall₂ command.IsClause clauses arguments.options ∧
      (arguments.options.map (·.1)).Nodup ∧ IsTerminator ending ∧
      (ending = [] → ¬ IsClosed tokens) := by
  obtain ⟨hv, clauses, hflat, hc, hd, _⟩ := (read_eq_ok_iff_clauses ..).1 h
  obtain ⟨ending, ht, hending, hopen⟩ := exists_append_isTerminator tokens
  refine ⟨_, clauses, ending, ?_, hv, hc, hd, hending, hopen⟩
  rw [← hflat, List.take_append_drop]
  exact ht

section Clauses

variable {clauses : List Token} (hv : Command.Converts values command.arguments positional)
  (hc : command.IsClauses [] clauses options)

include hv hc

theorem isSymbol_of_converts_of_isClauses :
    ∀ token ∈ values ++ clauses, token.isSymbol ";" = false := by
  intro token hm
  rcases List.mem_append.1 hm with hm | hm
  · exact hv.isSymbol (by decide +kernel) token hm
  · exact hc.isSymbol (by decide +kernel) token hm

theorem read_append_isTerminator {ending : List Token} (he : IsTerminator ending)
    (hn : ending = [] → ¬ IsClosed (values ++ clauses)) :
    read command (values ++ clauses ++ ending) = .ok ⟨positional, options⟩ := by
  have hb := he.dropTerminator_append (isSymbol_of_converts_of_isClauses hv hc) hn
  rw [read_eq_ok_iff_clauses, hb, List.take_left' hv.length_eq, List.drop_left' hv.length_eq]
  exact ⟨hv, hc⟩

/-- Where no other token closes the tokens, the last value is not read if it looks like one that
does. -/
theorem read_ne_ok_of_isClosed (h : IsClosed (values ++ clauses)) :
    read command (values ++ clauses) ≠ .ok arguments := by
  intro hr
  obtain ⟨last, hlast, hf⟩ := h
  obtain ⟨front, he⟩ := List.getLast?_eq_some_iff.1 hlast
  have hs := isSymbol_of_converts_of_isClauses hv hc
  rw [he] at hs hr
  rw [read_eq_ok_iff_clauses, (IsTerminator.finish hf).dropTerminator_append
    (fun token hm => hs token (by simp [hm])) (by simp)] at hr
  obtain ⟨hv', ho⟩ := hr
  obtain ⟨parts, rfl, hparts, _⟩ := hc
  rcases List.eq_nil_or_concat parts with rfl | ⟨earlier, clause, rfl⟩
  · have hlen := hv'.length_eq
    have hfront := congrArg List.length he
    simp only [List.flatten_nil, List.append_nil, hv.length_eq, List.length_append,
      List.length_singleton, List.length_take] at hlen hfront
    omega
  have hentry := exists_of_forall₂ hparts
  obtain ⟨entry, hclause⟩ := hentry clause (by simp)
  cases hclause with
  | @flag token option hn =>
    have he : values ++ earlier.flatten ++ [token] = front ++ [last] := by simpa using he
    obtain ⟨_, heq⟩ := List.append_inj' he rfl
    obtain rfl := List.singleton_inj.1 heq
    simp [Token.isFinish_of_isWord hn.1] at hf
  | @valued token value option kind argument hn hvalue =>
    have he : values ++ (earlier.flatten ++ [token]) ++ [value] = front ++ [last] := by
      simpa using he
    obtain ⟨rfl, _⟩ := List.append_inj' he rfl
    rw [List.drop_left' hv.length_eq] at ho
    obtain ⟨_, _, hr⟩ := ho.of_append fun clause hm => hentry clause (by simp [hm])
    exact Command.not_isClauses_of_missing hn hvalue hr

end Clauses

/-- Of arguments that are read the clauses may be put in any order. What is read then is the same up
to the order of the options, and so is found under each name and done by the command, if the last
token does not become the end of the statement by it. -/
theorem read_perm_clauses {tokens : List Token} (h : read command tokens = .ok arguments) :
    ∃ values clauses ending, tokens = values ++ clauses.flatten ++ ending ∧
      values.length = command.arguments.length ∧
      List.Forall₂ command.IsClause clauses arguments.options ∧ IsTerminator ending ∧
      ∀ others : List (List Token), others.Perm clauses →
        ((∃ rearranged, read command (values ++ others.flatten ++ ending) = .ok rearranged) ↔
          (IsClosed (values ++ others.flatten ++ ending) → IsClosed tokens)) ∧
        ∀ rearranged, read command (values ++ others.flatten ++ ending) = .ok rearranged →
          rearranged.positional = arguments.positional ∧
          rearranged.options.Perm arguments.options ∧
          (∀ name other, alike name other = true →
            rearranged.hasOption name = arguments.hasOption other ∧
            rearranged.optionValue name = arguments.optionValue other) ∧
          ∀ {State : Type} (session : Session) (state : State),
            Router.executeCommand command rearranged session state =
              Router.executeCommand command arguments session state := by
  obtain ⟨values, clauses, ending, ht, hv, hc, hd, hending, hopen⟩ := exists_clauses_of_read h
  refine ⟨values, clauses, ending, ht, hv.length_eq, hc, hending, fun others hp => ?_⟩
  obtain ⟨moved, hperm, hclauses⟩ := Command.exists_isClauses_of_perm hp hc hd
  have hreorders : Reorders ⟨arguments.positional, moved⟩ arguments := ⟨rfl, hperm, hd⟩
  by_cases hclosed : IsClosed (values ++ others.flatten ++ ending) → IsClosed tokens
  · have hread := read_append_isTerminator hv hclauses hending <| by
      rintro rfl hm
      exact hopen rfl (hclosed (by simpa using hm))
    refine ⟨iff_of_true ⟨_, hread⟩ hclosed, fun rearranged hr => ?_⟩
    obtain rfl := Except.ok.inj (hread.symm.trans hr)
    exact ⟨rfl, hperm, fun name other => hreorders.eq_of_alike, hreorders.executeCommand⟩
  · -- a terminator closes the tokens in every order, so there is none
    obtain rfl : ending = [] := by
      cases ending with
      | nil => rfl
      | cons token rest =>
        rw [ht, isClosed_append_cons, isClosed_append_cons] at hclosed
        exact absurd id hclosed
    obtain ⟨hmoved, _⟩ := Classical.not_imp.1 hclosed
    simp only [List.append_nil] at hclosed hmoved ⊢
    have hne (rearranged : Arguments) : read command (values ++ others.flatten) ≠ .ok rearranged :=
      read_ne_ok_of_isClosed hv hclauses hmoved
    exact ⟨iff_of_false (fun ⟨_, hr⟩ => hne _ hr) hclosed, fun _ hr => absurd hr (hne _)⟩

/-- The value that is a word of the directive keeps its place behind its own word. -/
theorem read_perm_clauses_streaming :
    let directive := Streaming.directive .standard
    let tokens : List Token := [⟨"ON", .keyword, 0⟩, ⟨"ordered", .keyword, 3⟩,
      ⟨"allow_overwrite", .keyword, 11⟩, ⟨"OFF", .keyword, 27⟩, ⟨"BATCH_SIZE", .keyword, 31⟩,
      ⟨"64", .number, 42⟩, ⟨";", .punctuation, 44⟩, .finish 45]
    let arguments : Arguments := ⟨[.boolean true], [(.ofText "ORDERED", none),
      (.ofText "ALLOW_OVERWRITE", some (.boolean false)),
      (.ofText "BATCH_SIZE", some (.integer 64))]⟩
    read directive tokens = .ok arguments ∧
      ∃ values clauses ending, tokens = values ++ clauses.flatten ++ ending ∧
        List.Forall₂ directive.IsClause clauses arguments.options ∧
        ∀ others : List (List Token), others.Perm clauses → ∃ rearranged,
          read directive (values ++ others.flatten ++ ending) = .ok rearranged ∧
          rearranged.options.Perm arguments.options := by
  intro directive tokens arguments
  have h : read directive tokens = .ok arguments := by decide +kernel
  obtain ⟨values, clauses, ending, he, _, hc, _, hall⟩ := read_perm_clauses h
  refine ⟨h, values, clauses, ending, he, hc, fun others hp => ?_⟩
  obtain ⟨hiff, hsame⟩ := hall others hp
  obtain ⟨rearranged, hr⟩ := hiff.2 fun _ => ⟨.finish 45, rfl, rfl⟩
  exact ⟨rearranged, hr, (hsame _ hr).2.1⟩

/-- A value of the kind that closes statements is taken for the end once its clause is the last. -/
theorem clauses_before_open_end :
    let switch : Command := ⟨[.ofText "P"], [], [.valued "X" .boolean, .flag "Y"], .acknowledge "P"⟩
    let flag : List Token := [⟨"Y", .identifier, 0⟩]
    let valued : List Token := [⟨"X", .identifier, 2⟩, ⟨"on", .finish, 4⟩]
    let options := [(Capitals.ofText "X", some (.boolean true)), (.ofText "Y", none)]
    List.Forall₂ switch.IsClause [valued, flag] options ∧ [flag, valued].Perm [valued, flag] ∧
      read switch ([valued, flag].flatten) = .ok ⟨[], options⟩ ∧
      ∀ rearranged, read switch ([flag, valued].flatten) ≠ .ok rearranged := by
  intro switch flag valued options
  have hx : switch.Names ⟨"X", .identifier, 2⟩ (.valued "X" .boolean) :=
    Command.optionNamed_eq_some_iff.1 (by decide +kernel)
  have hy : switch.Names ⟨"Y", .identifier, 0⟩ (.flag "Y") :=
    Command.optionNamed_eq_some_iff.1 (by decide +kernel)
  have hon : Argument.read ⟨"on", .finish, 4⟩ .boolean = .ok (.boolean true) := by decide +kernel
  have hr : read switch ([flag, valued].flatten) =
      .error (Clause.missing (.valued "X" .boolean) .boolean 4) := by decide +kernel
  exact ⟨.cons (.valued hx rfl hon) (.cons (.flag hy rfl) .nil), .swap .., by decide +kernel,
    fun rearranged h => nomatch hr.symm.trans h⟩

end Arguments

end SqlDispatch
