import SqlDispatch.Proofs.Arguments.Case
import SqlDispatch.Proofs.Classification
import SqlDispatch.Router

set_option autoImplicit false

/-!
What the case of a statement matters. Statements that are the same but for case are the same command
or are both for the engine, and as commands they have the same arguments but for case, or the same
fault. No handler looks at the letters of an argument, so carrying them out is the same in every
respect (`execute_of_alike`).
-/

namespace SqlDispatch

open Text

namespace Argument

theorem boolean?_lowered (argument : Argument) : argument.lowered.boolean? = argument.boolean? := by
  cases argument <;> rfl

theorem integer?_lowered (argument : Argument) : argument.lowered.integer? = argument.integer? := by
  cases argument <;> rfl

end Argument

namespace Arguments

variable (arguments : Arguments)

theorem get?_lowered (index : Nat) :
    arguments.lowered.get? index = (arguments.get? index).map Argument.lowered :=
  List.getElem?_map

theorem hasOption_lowered (name : String) :
    arguments.lowered.hasOption name = arguments.hasOption name := by
  rw [hasOption, lowered, List.any_map]
  rfl

theorem optionValue_lowered (name : String) :
    arguments.lowered.optionValue name = (arguments.optionValue name).map Argument.lowered := by
  let named (option : Capitals × Option Argument) : Bool := option.1 = .ofText name
  have h : named ∘ loweredOption = named := rfl
  change ((arguments.options.map loweredOption).find? named).bind (·.2) =
    ((arguments.options.find? named).bind (·.2)).map Argument.lowered
  rw [List.find?_map, h]
  cases arguments.options.find? named <;> rfl

end Arguments

namespace Streaming

theorem readOption_lowered {α : Type} {read : Argument → Option α}
    (h : ∀ argument, read argument.lowered = read argument) (noun : String)
    (arguments : Arguments) (name : String) :
    readOption read noun arguments.lowered name = readOption read noun arguments name := by
  unfold readOption
  rw [arguments.optionValue_lowered]
  cases arguments.optionValue name with
  | none => rfl
  | some value => simp only [Option.map_some, h]

theorem Settings.ofArguments_lowered (defaults : Settings) (arguments : Arguments) :
    ofArguments defaults arguments.lowered = ofArguments defaults arguments := by
  have hb : (arguments.lowered.get? 0).bind Argument.boolean? =
      (arguments.get? 0).bind Argument.boolean? := by
    rw [arguments.get?_lowered]
    cases arguments.get? 0 with
    | none => rfl
    | some value => exact value.boolean?_lowered
  simp only [ofArguments, apply, readMode, hb, Arguments.hasOption_lowered,
    readOption_lowered Argument.integer?_lowered, readOption_lowered Argument.boolean?_lowered]

end Streaming

theorem Handler.run_of_lowered_eq (handler : Handler) {arguments others : Arguments}
    (h : arguments.lowered = others.lowered) : handler.run arguments = handler.run others :=
  handler.run_congr fun defaults => by
    rw [← defaults.ofArguments_lowered, h, defaults.ofArguments_lowered]

namespace Router

variable {router : Router} {text other : String} {tokens others slice slice' : List Token}
  {command : Command}

theorem prepare_of_classify (h : Statement.read text = .ok ⟨text, tokens⟩)
    (hc : router.table.classify ⟨text, tokens⟩ = .internal command slice) :
    router.prepare text = (Arguments.read command slice).map (Prepared.internal command) := by
  simp only [prepare, h, hc]
  cases Arguments.read command slice <;> rfl

/-- A command whose arguments are the same but for case is carried out in the same way, and one with
the same fault fails with it. -/
theorem execute_of_eqLowered {x y : Except Fault Arguments}
    (ht : router.prepare text = x.map (Prepared.internal command))
    (ho : router.prepare other = y.map (Prepared.internal command))
    (h : EqLowered Arguments.lowered x y) {State : Type} (engine : Engine State)
    (context : Context) (session : Session) (state : State) :
    let before := router.execute engine context text session state
    let after := router.execute engine context other session state
    EqLowered id before.result after.result ∧ after = { before with result := after.result } ∧
      ∀ arguments, x = .ok arguments → after = before := by
  intro before after
  cases h with
  | @error fault fault' hf =>
    have hb : before = ⟨.error fault, session, state, none, [], false⟩ := by
      simp only [before, execute, ht, Except.map]
    have ha : after = ⟨.error fault', session, state, none, [], false⟩ := by
      simp only [after, execute, ho, Except.map]
    rw [hb, ha]
    refine ⟨.error hf, rfl, fun arguments hx => ?_⟩
    cases hx
  | @ok arguments arguments' hl =>
    have he : after = before := by
      simp only [before, after, execute, ht, ho, Except.map, executeCommand,
        command.handler.run_of_lowered_eq hl]
    rw [he]
    exact ⟨.refl .., rfl, fun _ _ => rfl⟩

/-- Case is of no account. Statements that are the same but for case have the same fault, or tokens
that are the same but for case. Then the same command or the engine is in charge of both; a command
has the same arguments but for case, or a fault that is the same but for case, and is carried out
in the same way. -/
theorem execute_of_alike (h : alike text other = true) :
    (∃ fault, Statement.read text = .error fault ∧ Statement.read other = .error fault) ∨
    ∃ tokens others, Statement.read text = .ok ⟨text, tokens⟩ ∧
      Statement.read other = .ok ⟨other, others⟩ ∧ List.Forall₂ Token.Alike tokens others ∧
      ∀ router : Router,
        (router.table.classify ⟨text, tokens⟩).Corresponds Token.Alike
          (router.table.classify ⟨other, others⟩) ∧
        ∀ command slice slice',
          router.table.classify ⟨text, tokens⟩ = .internal command slice →
          router.table.classify ⟨other, others⟩ = .internal command slice' →
          EqLowered Arguments.lowered (Arguments.read command slice)
              (Arguments.read command slice') ∧
            ∀ (State : Type) (engine : Engine State) (context : Context) (session : Session)
              (state : State),
              let before := router.execute engine context text session state
              let after := router.execute engine context other session state
              EqLowered id before.result after.result ∧
                after = { before with result := after.result } ∧
                ∀ arguments, Arguments.read command slice = .ok arguments → after = before := by
  refine (Statement.read_of_alike h).imp_right fun hr => ?_
  obtain ⟨tokens, others, ht, ho, hf⟩ := hr
  refine ⟨tokens, others, ht, ho, hf, fun router => ?_⟩
  have hc : (router.table.classify ⟨text, tokens⟩).Corresponds Token.Alike
      (router.table.classify ⟨other, others⟩) :=
    router.table.corresponds_classify (fun _ _ h => h.spells_eq) hf
  refine ⟨hc, fun command slice slice' hs hs' => ?_⟩
  have ha : EqLowered Arguments.lowered (Arguments.read command slice)
      (Arguments.read command slice') := by
    rw [hs, hs'] at hc
    cases hc with
    | internal command hf => exact Arguments.read_of_alike command hf
  refine ⟨ha, fun State engine context session state => ?_⟩
  exact execute_of_eqLowered (prepare_of_classify ht hs) (prepare_of_classify ho hs') ha
    engine context session state

theorem execute_of_mixed_case :
    let text := "SET STREAMING ON BATCH_SIZE 5"
    let other := "set Streaming oN batch_Size 5"
    let router := ofTable (Streaming.builtin .standard)
    alike text other = true ∧
      ∀ (State : Type) (engine : Engine State) (context : Context) (session : Session)
        (state : State), router.execute engine context other session state =
          router.execute engine context text session state := by
  intro text other router
  have h : alike text other = true := by decide +kernel
  refine ⟨h, fun State engine context session state => ?_⟩
  let slice : List Token := [⟨"ON", .keyword, 14⟩, ⟨"BATCH_SIZE", .keyword, 17⟩,
    ⟨"5", .number, 28⟩, .finish 29]
  let slice' : List Token := [⟨"oN", .keyword, 14⟩, ⟨"batch_Size", .keyword, 17⟩,
    ⟨"5", .number, 28⟩, .finish 29]
  let tokens : List Token := ⟨"SET", .keyword, 0⟩ :: ⟨"STREAMING", .keyword, 4⟩ :: slice
  let others : List Token := ⟨"set", .keyword, 0⟩ :: ⟨"Streaming", .keyword, 4⟩ :: slice'
  have ht : Statement.read text = .ok ⟨text, tokens⟩ := by decide +kernel
  have ho : Statement.read other = .ok ⟨other, others⟩ := by decide +kernel
  rcases execute_of_alike h with ⟨fault, hf, _⟩ | ⟨_, _, hr, hr', _, hx⟩
  · rw [ht] at hf
    cases hf
  · cases ht.symm.trans hr
    cases ho.symm.trans hr'
    have hc : router.table.classify ⟨text, tokens⟩ =
        .internal (Streaming.directive .standard) slice := by decide +kernel
    have hc' : router.table.classify ⟨other, others⟩ =
        .internal (Streaming.directive .standard) slice' := by decide +kernel
    have ha : Arguments.read (Streaming.directive .standard) slice =
        .ok ⟨[.boolean true], [(.ofText "BATCH_SIZE", some (.integer 5))]⟩ := by decide +kernel
    obtain ⟨_, he⟩ := (hx router).2 _ slice slice' hc hc'
    exact (he State engine context session state).2.2 _ ha

end Router

end SqlDispatch
