import SqlDispatch.Proofs.Routing
import SqlDispatch.Proofs.Streaming.Directive

set_option autoImplicit false

/-!
What an execution leaves in its session. A text stores settings if it is a streaming directive that
its handler takes (`settings?`), and otherwise nothing: neither the context nor the engine nor a
statement that fails has any part in it (`session_execute`). Settings go into seven options, and no
other option is touched.
-/

namespace SqlDispatch

open Text

namespace Streaming.Settings

def optionNames : List String :=
  ["streaming.allow_overwrite", "streaming.batch_size", "streaming.enabled",
    "streaming.flush_frequency_ms", "streaming.ordered", "streaming.per_node_buffer_size",
    "streaming.per_node_parallel_operations"]

theorem lower_of_mem_optionNames : ∀ name ∈ optionNames, lower name = name := by decide +kernel

theorem perm_optionNames (settings : Settings) :
    (settings.named.map fun entry => optionName entry.1).Perm optionNames := by
  have h : (["enabled", "batch_size", "per_node_buffer_size", "per_node_parallel_operations",
      "allow_overwrite", "flush_frequency_ms", "ordered"].map optionName).Perm optionNames := by
    decide +kernel
  exact h

theorem mem_optionNames_iff (settings : Settings) {name : String} :
    name ∈ optionNames ↔ ∃ entry ∈ settings.named, optionName entry.1 = name := by
  rw [← settings.perm_optionNames.mem_iff, List.mem_map]

theorem get?_store_of_not_mem (settings : Settings) (session : Session) {name : String}
    (h : lower name ∉ optionNames) : (settings.store session).get? name = session.get? name := by
  refine Session.get?_putAll_of_forall_ne ?_ session
  intro _ hm hn
  obtain ⟨entry, he, rfl⟩ := List.mem_map.1 hm
  have ho : optionName entry.1 ∈ optionNames := settings.mem_optionNames_iff.2 ⟨entry, he, rfl⟩
  exact h (hn ▸ (lower_of_mem_optionNames _ ho).symm ▸ ho)

end Streaming.Settings

/-- A handler that fails has stored nothing and told nothing. -/
theorem Handler.eq_of_on_error {handler : Handler} {arguments : Arguments}
    {place later : Workplace} {causes : List String}
    (h : (handler.run arguments).on place = (.error causes, later)) : later = place := by
  cases handler with
  | acknowledge summary => cases h
  | refuse =>
    cases h
    rfl
  | streaming defaults =>
    rw [on_streaming] at h
    cases hs : defaults.ofArguments arguments with
    | error cause =>
      rw [hs] at h
      cases h
      rfl
    | ok settings =>
      rw [hs] at h
      cases h

/-- The session keeps what is stored before a failure; it is up to a handler to fail before. -/
example : ((do Handling.store .standard; throw ["late"] : Handling Unit).on
    ⟨.empty, []⟩).2.session.size = 7 := by decide +kernel

namespace Router

open Streaming

def settings? (router : Router) (text : String) : Option Settings :=
  match router.prepare text with
  | .ok (.internal command arguments) =>
    match command.handler with
    | .streaming defaults => (defaults.ofArguments arguments).toOption
    | .acknowledge _ | .refuse _ => none
  | .ok (.forward _) | .error _ => none

theorem settings?_eq_some_iff {router : Router} {text : String} {settings : Settings} :
    router.settings? text = some settings ↔ ∃ command arguments defaults,
      router.prepare text = .ok (.internal command arguments) ∧
        command.handler = .streaming defaults ∧ defaults.ofArguments arguments = .ok settings := by
  unfold settings?
  constructor
  · intro h
    split at h
    · rename_i command arguments hp
      split at h
      · rename_i defaults hh
        refine ⟨command, arguments, defaults, hp, hh, ?_⟩
        cases hs : defaults.ofArguments arguments with
        | error cause => simp [hs, Except.toOption] at h
        | ok given => simpa [hs, Except.toOption] using h
      · cases h
      · cases h
    · cases h
    · cases h
  · rintro ⟨command, arguments, defaults, hp, hh, hs⟩
    simp [hp, hh, hs, Except.toOption]

variable {State : Type} {router : Router} {engine : Engine State} {context : Context}
  {text : String} {session : Session} {state : State}

theorem session_execute (router : Router) (engine : Engine State) (context : Context)
    (text : String) (session : Session) (state : State) :
    (router.execute engine context text session state).session =
      (router.settings? text).elim session (·.store session) := by
  unfold execute settings?
  cases hp : router.prepare text with
  | error fault => rfl
  | ok prepared =>
    cases prepared with
    | forward statement =>
      simp only [forward]
      split <;> rfl
    | internal command arguments =>
      simp only [executeCommand]
      cases command.handler with
      | acknowledge summary => rfl
      | refuse causes => rfl
      | streaming defaults =>
        rw [Handler.on_streaming]
        dsimp only
        cases defaults.ofArguments arguments <;> rfl

theorem result_execute_of_settings {settings : Settings}
    (h : router.settings? text = some settings) :
    (router.execute engine context text session state).result =
      .ok (.command ⟨Directive.name, settings.summary⟩) := by
  obtain ⟨command, arguments, defaults, hp, hh, hs⟩ := settings?_eq_some_iff.1 h
  simp only [execute, hp, executeCommand, hh, Handler.on_streaming, hs]

theorem settings?_eq_none_of_error {fault : Fault}
    (h : (router.execute engine context text session state).result = .error fault) :
    router.settings? text = none := by
  refine Option.eq_none_iff_forall_ne_some.2 fun settings hs => ?_
  rw [result_execute_of_settings hs] at h
  cases h

theorem settings?_eq_none_of_forwards (h : router.forwards text = true) :
    router.settings? text = none := by
  obtain ⟨statement, _, hp⟩ := prepare_of_forwards h
  simp [settings?, hp]

theorem settings?_of_result {command : Command} {arguments : Arguments} {defaults : Settings}
    {outcome : Outcome} (hp : router.prepare text = .ok (.internal command arguments))
    (hh : command.handler = .streaming defaults)
    (h : (router.execute engine context text session state).result = .ok outcome) :
    ∃ settings, defaults.ofArguments arguments = .ok settings ∧
      router.settings? text = some settings := by
  cases hs : defaults.ofArguments arguments with
  | error cause => simp [execute, hp, executeCommand, hh, Handler.on_streaming, hs] at h
  | ok settings =>
    exact ⟨settings, rfl, settings?_eq_some_iff.2 ⟨command, arguments, defaults, hp, hh, hs⟩⟩

/-- A statement that fails, whatever the fault, and one that goes to the engine leave the session as
it was: a handler writes into the session as it goes, but it has written nothing when it fails. A
streaming directive that succeeds stores all of its settings and touches no option besides theirs,
also where the table binds its handler to a command of other arguments and options. -/
theorem execute_changes_settings_only (router : Router) (engine : Engine State)
    (context : Context) (text : String) (session : Session) (state : State) :
    let execution := router.execute engine context text session state
    (∀ (handler : Handler) (arguments : Arguments) (place later : Workplace) (causes : List String),
      (handler.run arguments).on place = (.error causes, later) → later = place) ∧
    (∀ fault, execution.result = .error fault → execution.session = session) ∧
    (router.forwards text = true → execution.session = session) ∧
    ∀ command arguments defaults outcome,
      router.prepare text = .ok (.internal command arguments) →
      command.handler = .streaming defaults → execution.result = .ok outcome →
      ∃ settings, defaults.ofArguments arguments = .ok settings ∧
        outcome = .command ⟨Directive.name, settings.summary⟩ ∧
        (∀ entry ∈ settings.named,
          execution.session.get? (Settings.optionName entry.1) = some entry.2) ∧
        ∀ name, lower name ∉ Settings.optionNames →
          execution.session.get? name = session.get? name := by
  intro execution
  have hs := session_execute router engine context text session state
  -- whatever fails or goes to the engine stores no settings
  refine ⟨fun _ _ _ _ _ => Handler.eq_of_on_error, fun fault hr => ?_, fun hf => ?_, ?_⟩
  · rwa [settings?_eq_none_of_error hr] at hs
  · rwa [settings?_eq_none_of_forwards hf] at hs
  · intro command arguments defaults outcome hp hh hr
    obtain ⟨settings, ha, hset⟩ := settings?_of_result hp hh hr
    rw [hset, Option.elim_some] at hs
    rw [result_execute_of_settings hset] at hr
    refine ⟨settings, ha, (Except.ok.inj hr).symm, fun entry he => ?_, fun name hn => ?_⟩
    · rw [hs]
      exact Settings.get?_store he session
    · rw [hs]
      exact settings.get?_store_of_not_mem session hn

/-- The handler finds a string where it looks for a number, after it has taken the mode. -/
example :
    let command : Command := ⟨[.ofText "T"], [.boolean],
      [.valued Directive.batchSize .stringLiteral], .streaming .standard⟩
    let router := ofTable ⟨[command], by simp [command], by simp⟩
    let execution :=
      router.execute (Engine.scripted (.ok [])) .plain "T ON BATCH_SIZE 'x'" .empty []
    execution.result = .error (.handler "T" ["BATCH_SIZE expects an integer"]) ∧
      execution.session = .empty := by
  decide +kernel

end Router

end SqlDispatch
