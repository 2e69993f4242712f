import Mathlib.Data.List.Nodup
import SqlDispatch.Proofs.Preparation
import SqlDispatch.Proofs.Session

set_option autoImplicit false

/-!
What a streaming directive leaves in a session. The settings that it stores are read back whatever
stood there before, and each of them is the value given with the directive or else the default. One
is not: `ORDERED` is off wherever it is not given, also where the default is on.
-/

namespace SqlDispatch

open Text

namespace Argument

theorem exists_of_fits_boolean {argument : Argument} (h : argument.Fits .boolean) :
    ∃ value, argument = .boolean value := by
  cases argument with
  | boolean value => exact ⟨value, rfl⟩
  | integer | identifier | stringLiteral => cases h

theorem exists_of_fits_integer {argument : Argument} {least greatest : Int}
    (h : argument.Fits (.integer least greatest)) : ∃ value, argument = .integer value := by
  cases argument with
  | integer value => exact ⟨value, rfl⟩
  | boolean | identifier | stringLiteral => cases h

end Argument

namespace Command

variable {command : Command} {name : Capitals} {given : Option Argument}

theorem Declares.exists_fits (hd : (command.options.map (·.name)).Nodup) {kind : ArgumentKind}
    (ho : ⟨name, some kind⟩ ∈ command.options) (h : command.Declares (name, given)) :
    ∃ argument, given = some argument ∧ argument.Fits kind := by
  obtain ⟨other, hm, hn, h⟩ := h
  obtain rfl := List.inj_on_of_nodup_map hd hm ho hn
  rcases h with ⟨hv, _⟩ | ⟨_, argument, hv, hg, hf⟩
  · cases hv
  · cases hv
    exact ⟨argument, hg, hf⟩

theorem Declares.exists_boolean (hd : (command.options.map (·.name)).Nodup)
    (ho : ⟨name, some .boolean⟩ ∈ command.options) (h : command.Declares (name, given)) :
    ∃ value, given = some (.boolean value) := by
  obtain ⟨argument, rfl, hf⟩ := h.exists_fits hd ho
  obtain ⟨value, rfl⟩ := Argument.exists_of_fits_boolean hf
  exact ⟨value, rfl⟩

theorem Declares.exists_integer (hd : (command.options.map (·.name)).Nodup) {least greatest : Int}
    (ho : ⟨name, some (.integer least greatest)⟩ ∈ command.options)
    (h : command.Declares (name, given)) : ∃ value, given = some (.integer value) := by
  obtain ⟨argument, rfl, hf⟩ := h.exists_fits hd ho
  obtain ⟨value, rfl⟩ := Argument.exists_of_fits_integer hf
  exact ⟨value, rfl⟩

theorem Declares.eq_none (hd : (command.options.map (·.name)).Nodup)
    (ho : ⟨name, none⟩ ∈ command.options) (h : command.Declares (name, given)) :
    given = none := by
  obtain ⟨other, hm, hn, h⟩ := h
  obtain rfl := List.inj_on_of_nodup_map hd hm ho hn
  rcases h with ⟨_, hg⟩ | ⟨_, _, hv, _⟩
  · exact hg
  · cases hv

end Command

namespace Arguments

/-- The value is the one given for the option, or the other one if the option is not given. -/
def Chooses {α : Type} (arguments : Arguments) (name : String) (wrap : α → Argument)
    (otherwise value : α) : Prop :=
  (Capitals.ofText name, some (wrap value)) ∈ arguments.options ∨
    value = otherwise ∧ ∀ given, (Capitals.ofText name, given) ∉ arguments.options

theorem hasOption_iff {arguments : Arguments} {name : String} :
    arguments.hasOption name = true ↔
      ∃ given, (Capitals.ofText name, given) ∈ arguments.options := by
  simp [hasOption]

theorem optionValue_cases {α : Type} {arguments : Arguments} {name : String}
    {wrap : α → Argument}
    (h : ∀ given, (Capitals.ofText name, given) ∈ arguments.options →
      ∃ value, given = some (wrap value)) :
    arguments.optionValue name = none ∧
        (∀ given, (Capitals.ofText name, given) ∉ arguments.options) ∨
      ∃ value, arguments.optionValue name = some (wrap value) ∧
        (Capitals.ofText name, some (wrap value)) ∈ arguments.options := by
  unfold optionValue
  cases hf : arguments.options.find? fun option => option.1 = .ofText name with
  | none => exact .inl ⟨rfl, fun given hm => by simpa using List.find?_eq_none.1 hf _ hm⟩
  | some entry =>
    have hm := List.mem_of_find?_eq_some hf
    obtain ⟨option, given⟩ := entry
    obtain rfl : option = .ofText name := by simpa using List.find?_some hf
    obtain ⟨value, rfl⟩ := h given hm
    exact .inr ⟨value, rfl, hm⟩

theorem exists_optionValue {α : Type} {arguments : Arguments} {name : String} {wrap : α → Argument}
    (h : ∀ given, (Capitals.ofText name, given) ∈ arguments.options →
      ∃ value, given = some (wrap value)) (ho : arguments.hasOption name = true) :
    ∃ value, arguments.optionValue name = some (wrap value) := by
  obtain ⟨given, hm⟩ := hasOption_iff.1 ho
  rcases optionValue_cases h with ⟨_, hn⟩ | ⟨value, hv, _⟩
  · exact absurd hm (hn given)
  · exact ⟨value, hv⟩

theorem Chooses.functional {α : Type} {arguments : Arguments} {name : String}
    {wrap : α → Argument} (hw : Function.Injective wrap)
    (hn : (arguments.options.map (·.1)).Nodup) {otherwise a b : α}
    (ha : arguments.Chooses name wrap otherwise a)
    (hb : arguments.Chooses name wrap otherwise b) : a = b := by
  rcases ha with ha | ⟨rfl, ha⟩ <;> rcases hb with hb | ⟨rfl, hb⟩
  · have he := List.inj_on_of_nodup_map hn ha hb rfl
    exact hw (Option.some.inj (Prod.mk.inj he).2)
  · exact absurd ha (hb _)
  · exact absurd hb (ha _)
  · rfl

theorem Chooses.bounds {command : Command} {arguments : Arguments} {name : String}
    {least greatest otherwise value : Int} (h : arguments.Chooses name .integer otherwise value)
    (hd : (command.options.map (·.name)).Nodup)
    (hg : ∀ entry ∈ arguments.options, command.Declares entry)
    (ho : .valued name (.integer least greatest) ∈ command.options)
    (hr : least ≤ otherwise ∧ otherwise ≤ greatest) : least ≤ value ∧ value ≤ greatest := by
  rcases h with hm | ⟨rfl, _⟩
  · obtain ⟨argument, he, hf⟩ := (hg _ hm).exists_fits hd ho
    obtain rfl := Option.some.inj he
    exact hf
  · exact hr

end Arguments

namespace Streaming

variable {command : Command} {arguments : Arguments} {name : String}

theorem exists_readOption {α : Type} {read : Argument → Option α} (wrap : α → Argument)
    (hr : ∀ value, read (wrap value) = some value)
    (h : ∀ given, (Capitals.ofText name, given) ∈ arguments.options →
      ∃ value, given = some (wrap value)) (noun : String) :
    ∃ given, readOption read noun arguments name = .ok given ∧
      ∀ otherwise, arguments.Chooses name wrap otherwise (given.getD otherwise) := by
  unfold readOption
  rcases Arguments.optionValue_cases h with ⟨ho, hn⟩ | ⟨value, ho, hm⟩
  · exact ⟨none, by rw [ho], fun otherwise => .inr ⟨rfl, hn⟩⟩
  · exact ⟨some value, by simp [ho, hr], fun otherwise => .inl hm⟩

namespace Settings

theorem nodup_optionNames (settings : Settings) :
    ((settings.named.map fun entry => (optionName entry.1, entry.2)).map (lower ·.1)).Nodup := by
  have h : (["enabled", "batch_size", "per_node_buffer_size", "per_node_parallel_operations",
      "allow_overwrite", "flush_frequency_ms", "ordered"].map
        fun name => lower (optionName name)).Nodup := by decide +kernel
  exact h

theorem get?_store {settings : Settings} {entry : String × OptionValue}
    (h : entry ∈ settings.named) (session : Session) :
    (settings.store session).get? (optionName entry.1) = some entry.2 := by
  have hm : (optionName entry.1, entry.2) ∈
      settings.named.map fun entry => (optionName entry.1, entry.2) := List.mem_map_of_mem h
  rw [store]
  exact Session.get?_putAll_of_mem settings.nodup_optionNames hm session

theorem ofSession_store (settings otherwise : Settings) (session : Session) :
    ofSession (settings.store session) otherwise = settings := by
  have hf (name : String) (value : Bool) (h : (name, .boolean value) ∈ settings.named)
      (other : Bool) : flag (settings.store session) name other = value := by
    simp [flag, get?_store h, OptionValue.boolean?]
  have hq (name : String) (value : Int) (h : (name, .integer value) ∈ settings.named)
      (other : Int) : quantity (settings.store session) name other = value := by
    simp [quantity, get?_store h, OptionValue.integer?]
  simp only [ofSession]
  rw [hf _ settings.enabled (by simp [named]),
    hq _ settings.batchSize (by simp [named]),
    hq _ settings.perNodeBufferSize (by simp [named]),
    hq _ settings.perNodeParallelOperations (by simp [named]),
    hf _ settings.allowOverwrite (by simp [named]),
    hq _ settings.flushFrequency (by simp [named]),
    hf _ settings.ordered (by simp [named])]

/-- The settings are those that the arguments ask for, the rest being the defaults. -/
structure Completes (defaults : Settings) (arguments : Arguments) (settings : Settings) :
    Prop where
  enabled : arguments.positional = [.boolean settings.enabled]
  batchSize :
    arguments.Chooses Directive.batchSize .integer defaults.batchSize settings.batchSize
  perNodeBufferSize : arguments.Chooses Directive.perNodeBufferSize .integer
    defaults.perNodeBufferSize settings.perNodeBufferSize
  perNodeParallelOperations : arguments.Chooses Directive.perNodeParallelOperations .integer
    defaults.perNodeParallelOperations settings.perNodeParallelOperations
  allowOverwrite : arguments.Chooses Directive.allowOverwrite .boolean
    defaults.allowOverwrite settings.allowOverwrite
  flushFrequency : arguments.Chooses Directive.flushFrequency .integer
    defaults.flushFrequency settings.flushFrequency
  ordered : (Capitals.ofText Directive.ordered, none) ∈ arguments.options ∧
      settings.ordered = true ∨
    (∀ given, (Capitals.ofText Directive.ordered, given) ∉ arguments.options) ∧
      settings.ordered = defaults.ordered

theorem nodup_directive_options (defaults : Settings) :
    ((directive defaults).options.map (·.name)).Nodup := by
  have h : ([Directive.batchSize, Directive.perNodeBufferSize,
      Directive.perNodeParallelOperations, Directive.allowOverwrite, Directive.flushFrequency,
      Directive.ordered].map Capitals.ofText).Nodup := by decide +kernel
  exact h

theorem Completes.functional {defaults settings other : Settings}
    (hn : (arguments.options.map (·.1)).Nodup) (h : defaults.Completes arguments settings)
    (ho : defaults.Completes arguments other) : settings = other := by
  have hb : Function.Injective Argument.boolean := fun _ _ => Argument.boolean.inj
  have hi : Function.Injective Argument.integer := fun _ _ => Argument.integer.inj
  have he : settings.enabled = other.enabled := by
    have he := h.enabled.symm.trans ho.enabled
    simpa using he
  have hr : settings.ordered = other.ordered := by
    rcases h.ordered with ⟨hm, hs⟩ | ⟨hm, hs⟩ <;> rcases ho.ordered with ⟨hm', hs'⟩ | ⟨hm', hs'⟩
    · rw [hs, hs']
    · exact absurd hm (hm' _)
    · exact absurd hm' (hm _)
    · rw [hs, hs']
  cases settings
  cases other
  rw [mk.injEq]
  exact ⟨he, h.batchSize.functional hi hn ho.batchSize,
    h.perNodeBufferSize.functional hi hn ho.perNodeBufferSize,
    h.perNodeParallelOperations.functional hi hn ho.perNodeParallelOperations,
    h.allowOverwrite.functional hb hn ho.allowOverwrite,
    h.flushFrequency.functional hi hn ho.flushFrequency, hr⟩

theorem Completes.inRange {defaults settings : Settings}
    (h : defaults.Completes arguments settings) (hr : defaults.InRange)
    (hg : ∀ entry ∈ arguments.options, (directive defaults).Declares entry) : settings.InRange := by
  have hd := nodup_directive_options defaults
  obtain ⟨hb, hu, hp, hf⟩ := hr
  exact ⟨h.batchSize.bounds hd hg (by simp [directive, positive]) hb,
    h.perNodeBufferSize.bounds hd hg (by simp [directive, positive]) hu,
    h.perNodeParallelOperations.bounds hd hg (by simp [directive, positive]) hp,
    h.flushFrequency.bounds hd hg (by simp [directive, notNegative]) hf⟩

theorem exists_ofArguments {defaults : Settings} {tokens : List Token} {arguments : Arguments}
    (h : (directive defaults).Accepts tokens arguments) :
    ∃ settings, defaults.ofArguments arguments = .ok settings ∧
      { defaults with ordered := false }.Completes arguments settings := by
  obtain ⟨_, _, _, _, _, hv, hc⟩ := h
  have hd := nodup_directive_options defaults
  obtain ⟨mode, hm⟩ : ∃ mode, arguments.positional = [.boolean mode] := by
    obtain ⟨argument, rest, hf, hr, he⟩ := List.forall₂_cons_right_iff.1 hv.fits
    obtain ⟨mode, rfl⟩ := Argument.exists_of_fits_boolean hf
    rw [he, List.forall₂_nil_right_iff.1 hr]
    exact ⟨mode, rfl⟩
  have hq (name : String) (least : Int)
      (ho : .valued name (.integer least greatest) ∈ (directive defaults).options) :
      ∃ given, quantityOption arguments name = .ok given ∧
        ∀ otherwise, arguments.Chooses name .integer otherwise (given.getD otherwise) :=
    exists_readOption .integer (fun _ => rfl)
      (fun _ hm => (hc.declares _ hm).exists_integer hd ho) _
  have hb : .valued Directive.allowOverwrite .boolean ∈ (directive defaults).options := by
    simp [directive]
  have hr : .flag Directive.ordered ∈ (directive defaults).options := by simp [directive]
  obtain ⟨batch, hbe, hbc⟩ := hq Directive.batchSize 1 (by simp [directive, positive])
  obtain ⟨buffer, hue, huc⟩ := hq Directive.perNodeBufferSize 1 (by simp [directive, positive])
  obtain ⟨parallel, hpe, hpc⟩ :=
    hq Directive.perNodeParallelOperations 1 (by simp [directive, positive])
  obtain ⟨flush, hfe, hfc⟩ := hq Directive.flushFrequency 0 (by simp [directive, notNegative])
  obtain ⟨overwrite, hoe, hoc⟩ : ∃ given,
      flagOption arguments Directive.allowOverwrite = .ok given ∧ ∀ otherwise,
        arguments.Chooses Directive.allowOverwrite .boolean otherwise (given.getD otherwise) :=
    exists_readOption .boolean (fun _ => rfl)
      (fun _ hm => (hc.declares _ hm).exists_boolean hd hb) _
  have hme : readMode arguments = .ok mode := by
    simp [readMode, Arguments.get?, hm, Argument.boolean?]
  refine ⟨_, ofArguments_eq_ok hme hbe hue hpe hfe hoe, hm, hbc _, huc _, hpc _, hoc _, hfc _, ?_⟩
  · cases ho : arguments.hasOption Directive.ordered with
    | true =>
      obtain ⟨given, hg⟩ := Arguments.hasOption_iff.1 ho
      obtain rfl := (hc.declares _ hg).eq_none hd hr
      exact .inl ⟨hg, rfl⟩
    | false =>
      refine .inr ⟨fun given hg => ?_, rfl⟩
      rw [Arguments.hasOption_iff.2 ⟨given, hg⟩] at ho
      cases ho

/-- What is completed with `ordered` off is completed from the defaults themselves, if that is off
in them too or `ORDERED` is given, and not otherwise. -/
theorem completes_iff {defaults settings : Settings} {arguments : Arguments}
    (h : { defaults with ordered := false }.Completes arguments settings) :
    defaults.Completes arguments settings ↔
      (defaults.ordered = true →
        (Capitals.ofText Directive.ordered, none) ∈ arguments.options) := by
  constructor
  · intro hc hd
    rcases hc.ordered with ⟨hm, _⟩ | ⟨hn, ho⟩
    · exact hm
    · rcases h.ordered with ⟨hm, _⟩ | ⟨_, hf⟩
      · exact hm
      · rw [ho, hd] at hf
        cases hf
  · intro hd
    refine { h with ordered := ?_ }
    rcases h.ordered with ⟨hm, ho⟩ | ⟨hn, ho⟩
    · exact .inl ⟨hm, ho⟩
    · cases hf : defaults.ordered with
      | true => exact absurd (hd hf) (hn none)
      | false => exact .inr ⟨hn, ho⟩

end Settings

end Streaming

namespace Router

open Streaming

theorem execute_of_prepared_directive {router : Router} {text : String} {defaults : Settings}
    {arguments : Arguments}
    (h : router.prepare text = .ok (.internal (directive defaults) arguments))
    {settings : Settings} (hs : defaults.ofArguments arguments = .ok settings) {State : Type}
    (engine : Engine State) (context : Context) (session : Session) (state : State) :
    let execution := router.execute engine context text session state
    execution.result = .ok (.command ⟨Directive.name, settings.summary⟩) ∧
      execution.session = settings.store session := by
  simp only [execute, h, executeCommand, directive, Handler.on_streaming, hs, and_self]

/-- A text that is prepared as a directive stores the settings that it gives, completed from the
configured defaults; but where it does not give `ORDERED`, that is off whatever the default. -/
theorem settings_of_prepared_directive {lookup : Lookup} {text : String} {command : Command}
    {arguments : Arguments}
    (h : (ofConfig (Config.read lookup).1).prepare text = .ok (.internal command arguments)) :
    let router := ofConfig (Config.read lookup).1
    let defaults := (Config.read lookup).1.streaming
    ∃ statement tokens settings, Statement.read text = .ok statement ∧
      statement.tokens.drop command.words.length = tokens ++ [.finish text.utf8ByteSize] ∧
      command = directive defaults ∧ command.Accepts tokens arguments ∧
      { defaults with ordered := false }.Completes arguments settings ∧
      (defaults.Completes arguments settings ↔ (defaults.ordered = true →
        (Capitals.ofText Directive.ordered, none) ∈ arguments.options)) ∧
      ∀ (State : Type) (engine : Engine State) (context : Context) (session : Session)
        (state : State),
        let execution := router.execute engine context text session state
        execution.result = .ok (.command ⟨Directive.name, settings.summary⟩) ∧
          ∀ otherwise, Settings.ofSession execution.session otherwise = settings := by
  intro router defaults
  obtain ⟨statement, tokens, hr, hc, ha⟩ := prepare_eq_internal_iff.1 h
  obtain ⟨hm, _, ht⟩ := CommandTable.opens_of_classify hc
  obtain rfl : command = directive defaults := List.mem_singleton.1 hm
  obtain ⟨settings, hs, hp⟩ := Settings.exists_ofArguments ha
  refine ⟨statement, tokens, settings, hr, ht.symm, rfl, ha, hp, Settings.completes_iff hp, ?_⟩
  intro State engine context session state execution
  obtain ⟨he, hn⟩ := execute_of_prepared_directive h hs engine context session state
  refine ⟨he, fun otherwise => ?_⟩
  rw [hn, Settings.ofSession_store]

theorem prepared_directive_ordered :
    let lookup : Lookup := fun name => [("GRIDSQL_STREAMING_ORDERED", "on")].lookup name
    let defaults := (Config.read lookup).1.streaming
    let arguments : Arguments :=
      ⟨[.boolean true], [(Capitals.ofText Directive.ordered, none)]⟩
    (ofConfig (Config.read lookup).1).prepare "SET STREAMING ON ORDERED" =
        .ok (.internal (directive defaults) arguments) ∧
      ∃ settings, defaults.Completes arguments settings := by
  intro lookup defaults arguments
  have h : (ofConfig (Config.read lookup).1).prepare "SET STREAMING ON ORDERED" =
      .ok (.internal (directive defaults) arguments) := by decide +kernel
  obtain ⟨_, _, settings, _, _, _, _, _, hc, _⟩ := settings_of_prepared_directive h
  exact ⟨h, settings, hc.2 fun _ => List.mem_singleton_self _⟩

/-- A default that is on is off again after a directive that does not mention it. -/
theorem ordered_default_dropped :
    let lookup : Lookup := fun name => [("GRIDSQL_STREAMING_ORDERED", "on")].lookup name
    let router := ofConfig (Config.read lookup).1
    let defaults := (Config.read lookup).1.streaming
    defaults.ordered = true ∧
      router.prepare "SET STREAMING OFF" =
        .ok (.internal (directive defaults) ⟨[.boolean false], []⟩) ∧
      ∀ (State : Type) (engine : Engine State) (context : Context) (session : Session)
        (state : State) (otherwise : Settings),
        (Settings.ofSession (router.execute engine context "SET STREAMING OFF" session
          state).session otherwise).ordered = false := by
  intro lookup router defaults
  have h : router.prepare "SET STREAMING OFF" =
      .ok (.internal (directive defaults) ⟨[.boolean false], []⟩) := by decide +kernel
  have hs : defaults.ofArguments ⟨[.boolean false], []⟩ =
      .ok { defaults with enabled := false, ordered := false } := rfl
  refine ⟨by decide +kernel, h, ?_⟩
  intro State engine context session state otherwise
  rw [(execute_of_prepared_directive h hs engine context session state).2,
    Settings.ofSession_store]

end Router

end SqlDispatch
