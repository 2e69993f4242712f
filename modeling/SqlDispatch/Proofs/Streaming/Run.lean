import Mathlib.Data.List.Induction
import SqlDispatch.Proofs.Execution

set_option autoImplicit false

/-!
Streaming settings over whole runs. A run stores the settings of its directives one after another
(`session_left_executeAll`), and each of them writes all seven options. So a session that was empty
holds all of them, within their bounds, or none (`entries_of_run`), and what they hold is the last
directive's doing alone (`options_of_last_command`).
-/

namespace SqlDispatch

open Text

namespace Config

theorem bounds_of_readQuantity {lookup : Lookup} {key : String} {least greatest value : Int}
    (h : (readQuantity lookup key least greatest).value = some value) :
    least ≤ value ∧ value ≤ greatest := by
  unfold readQuantity at h
  split at h
  · cases h
  · split at h
    · rename_i found hf
      obtain rfl := Option.some.inj h
      simpa using (Option.filter_eq_some_iff.1 hf).2
    · cases h

theorem bounds_getD_readQuantity (lookup : Lookup) (key : String) {least greatest usual : Int}
    (h : least ≤ usual ∧ usual ≤ greatest) :
    least ≤ (readQuantity lookup key least greatest).value.getD usual ∧
      (readQuantity lookup key least greatest).value.getD usual ≤ greatest := by
  cases hv : (readQuantity lookup key least greatest).value with
  | none => exact h
  | some value => exact bounds_of_readQuantity hv

theorem inRange_read (lookup : Lookup) : (read lookup).1.streaming.InRange :=
  ⟨bounds_getD_readQuantity lookup _ (by decide), bounds_getD_readQuantity lookup _ (by decide),
    bounds_getD_readQuantity lookup _ (by decide), bounds_getD_readQuantity lookup _ (by decide)⟩

end Config

namespace Streaming.Settings

def entries (settings : Settings) : List Entry :=
  [("streaming.allow_overwrite", .boolean settings.allowOverwrite),
    ("streaming.batch_size", .integer settings.batchSize),
    ("streaming.enabled", .boolean settings.enabled),
    ("streaming.flush_frequency_ms", .integer settings.flushFrequency),
    ("streaming.ordered", .boolean settings.ordered),
    ("streaming.per_node_buffer_size", .integer settings.perNodeBufferSize),
    ("streaming.per_node_parallel_operations", .integer settings.perNodeParallelOperations)]

theorem map_entries (settings : Settings) : settings.entries.map (·.1) = optionNames := rfl

def session (settings : Settings) : Session where
  entries := settings.entries
  small := fun entry h =>
    lower_of_mem_optionNames _ (settings.map_entries ▸ List.mem_map_of_mem h)
  ordered := by
    have h : optionNames.Pairwise (· < ·) := by decide +kernel
    exact List.pairwise_map.1 (settings.map_entries ▸ h)

theorem get?_session {settings : Settings} {entry : String × OptionValue}
    (h : entry ∈ settings.named) :
    settings.session.get? (optionName entry.1) = some entry.2 := by
  rw [Session.get?_eq_some_iff, lower_of_mem_optionNames _
    (settings.mem_optionNames_iff.2 ⟨entry, h, rfl⟩)]
  simp only [named, List.mem_cons, List.not_mem_nil, or_false] at h
  rcases h with rfl | rfl | rfl | rfl | rfl | rfl | rfl <;> simp [session, entries, optionName]

theorem store_eq_session (settings : Settings) {before : Session}
    (h : ∀ entry ∈ before.entries, entry.1 ∈ optionNames) :
    settings.store before = settings.session := by
  refine Session.ext_get? fun name => ?_
  by_cases hn : lower name ∈ optionNames
  · obtain ⟨entry, he, hname⟩ := settings.mem_optionNames_iff.1 hn
    rw [← Session.get?_lower, ← Session.get?_lower settings.session, ← hname, get?_store he,
      get?_session he]
  · have hnone (other : Session) (ho : ∀ entry ∈ other.entries, entry.1 ∈ optionNames) :
        other.get? name = none :=
      Session.get?_eq_none_iff.2 fun entry he e => hn (e ▸ ho entry he)
    rw [get?_store_of_not_mem settings before hn, hnone before h, hnone settings.session]
    exact fun entry he => settings.map_entries ▸ List.mem_map_of_mem he

theorem foldl_store_empty (stored : List Settings) :
    stored.foldl (fun session settings => settings.store session) .empty =
      stored.getLast?.elim .empty session := by
  -- from the end, since the last settings take the place of all that were stored before
  induction stored using List.reverseRecOn with
  | nil => rfl
  | append_singleton stored settings ih =>
    rw [List.foldl_concat, ih, List.getLast?_concat, Option.elim_some]
    refine settings.store_eq_session fun entry he => ?_
    cases hl : stored.getLast? with
    | none => simp [hl, Session.empty] at he
    | some earlier =>
      rw [hl, Option.elim_some] at he
      exact earlier.map_entries ▸ List.mem_map_of_mem he

end Streaming.Settings

namespace Router

open Streaming

variable {State : Type} {engine : Engine State} {config : Config} {text : String}

theorem eq_directive_of_prepare {command : Command} {arguments : Arguments}
    (h : (ofConfig config).prepare text = .ok (.internal command arguments)) :
    command = directive config.streaming ∧ ∃ tokens, command.Accepts tokens arguments := by
  obtain ⟨_, tokens, _, hc, ha⟩ := prepare_eq_internal_iff.1 h
  exact ⟨List.mem_singleton.1 (CommandTable.opens_of_classify hc).1, tokens, ha⟩

theorem inRange_of_settings? {settings : Settings} (hr : config.streaming.InRange)
    (h : (ofConfig config).settings? text = some settings) : settings.InRange := by
  obtain ⟨command, arguments, defaults, hp, hh, hs⟩ := settings?_eq_some_iff.1 h
  obtain ⟨rfl, tokens, ha⟩ := eq_directive_of_prepare hp
  obtain rfl : config.streaming = defaults := Handler.streaming.inj hh
  obtain ⟨given, hg, hc⟩ := Settings.exists_ofArguments ha
  obtain rfl : given = settings := Except.ok.inj (hg.symm.trans hs)
  obtain ⟨_, _, _, _, _, _, hclauses⟩ := ha
  exact hc.inRange hr hclauses.declares

theorem exists_settings?_of_command {context : Context} {session : Session} {state : State}
    {acknowledgement : Acknowledgement}
    (h : ((ofConfig config).execute engine context text session state).result =
      .ok (.command acknowledgement)) :
    ∃ settings, (ofConfig config).settings? text = some settings ∧
      acknowledgement = ⟨Directive.name, settings.summary⟩ := by
  obtain ⟨command, arguments, hp⟩ : ∃ command arguments,
      (ofConfig config).prepare text = .ok (.internal command arguments) := by
    unfold execute at h
    split at h
    · cases h
    · exact ⟨_, _, ‹_›⟩
    · simp only [forward] at h
      split at h <;> cases h
  obtain ⟨rfl, _⟩ := eq_directive_of_prepare hp
  obtain ⟨settings, _, hs⟩ := settings?_of_result hp rfl h
  rw [result_execute_of_settings hs] at h
  cases h
  exact ⟨settings, hs, rfl⟩

theorem session_left_executeAll (router : Router) (engine : Engine State)
    (statements : List (Context × String)) (session : Session) (state : State) :
    (left session state (router.executeAll engine statements session state)).1 =
      (statements.filterMap (router.settings? ·.2)).foldl
        (fun session settings => settings.store session) session := by
  induction statements generalizing session state with
  | nil => rfl
  | cons statement rest ih =>
    have hs := session_execute router engine statement.1 statement.2 session state
    simp only [executeAll, left_cons, ih, List.filterMap_cons]
    cases hset : router.settings? statement.2 with
    | none => simp [hs, hset]
    | some settings => simp [hs, hset]

theorem exists_execute_of_mem_zip {router : Router} {statements : List (Context × String)}
    {session : Session} {state : State} {step : (Context × String) × Execution State}
    (h : step ∈ statements.zip (router.executeAll engine statements session state)) :
    ∃ before next, step.2 = router.execute engine step.1.1 step.1.2 before next := by
  induction statements generalizing session state with
  | nil => simp at h
  | cons statement rest ih =>
    rw [executeAll, List.zip_cons_cons] at h
    rcases List.mem_cons.1 h with rfl | h
    · exact ⟨session, state, rfl⟩
    · exact ih h

/-- A session that was empty at the start of a run holds the settings of its last directive and
nothing else, or it is empty still, and that just if no command of the run was carried out. -/
theorem session_left_executeAll_empty (config : Config) (engine : Engine State)
    (statements : List (Context × String)) (state : State) :
    let run := (ofConfig config).executeAll engine statements .empty state
    let stored := statements.filterMap ((ofConfig config).settings? ·.2)
    (left .empty state run).1 = stored.getLast?.elim .empty Settings.session ∧
      (stored = [] ↔ ∀ execution ∈ run, ∀ acknowledgement,
        execution.result ≠ .ok (.command acknowledgement)) := by
  intro run stored
  refine ⟨?_, ?_⟩
  · rw [session_left_executeAll, Settings.foldl_store_empty]
  · rw [List.filterMap_eq_nil_iff]
    have hl : run.length = statements.length := length_executeAll ..
    constructor
    · intro h execution he acknowledgement hr
      rw [← List.map_snd_zip (Nat.le_of_eq hl)] at he
      obtain ⟨step, hz, rfl⟩ := List.mem_map.1 he
      obtain ⟨before, next, hx⟩ := exists_execute_of_mem_zip hz
      rw [hx] at hr
      obtain ⟨settings, hs, _⟩ := exists_settings?_of_command hr
      rw [h step.1 (List.of_mem_zip hz).1] at hs
      cases hs
    · intro h statement hm
      rw [← List.map_fst_zip (Nat.le_of_eq hl.symm)] at hm
      obtain ⟨step, hz, rfl⟩ := List.mem_map.1 hm
      obtain ⟨before, next, hx⟩ := exists_execute_of_mem_zip hz
      refine Option.eq_none_iff_forall_ne_some.2 fun settings hs => ?_
      refine h step.2 (List.of_mem_zip hz).2 ⟨Directive.name, settings.summary⟩ ?_
      rw [hx, result_execute_of_settings hs]

/-- Whatever is configured, a session that was empty holds no option as long as no directive is
carried out, and then the seven that hold settings and no other: the flags as truth values, the
quantities as whole numbers within their bounds. -/
theorem entries_of_run (lookup : Lookup) (engine : Engine State)
    (statements : List (Context × String)) (state : State) :
    let run := (ofConfig (Config.read lookup).1).executeAll engine statements .empty state
    let session := (left .empty state run).1
    (session.entries = [] ∨
      ∃ settings : Settings, settings.InRange ∧ session.entries = settings.entries) ∧
    (session.entries = [] ↔ ∀ execution ∈ run, ∀ acknowledgement,
      execution.result ≠ .ok (.command acknowledgement)) := by
  intro run session
  obtain ⟨hs, hc⟩ :=
    session_left_executeAll_empty (Config.read lookup).1 engine statements state
  rw [← hc]
  generalize hl : statements.filterMap ((ofConfig (Config.read lookup).1).settings? ·.2) = stored
    at hs
  change session = _ at hs
  rw [hs]
  cases hlast : stored.getLast? with
  | none => simpa [Session.empty] using List.getLast?_eq_none_iff.1 hlast
  | some settings =>
    have hm := List.mem_of_getLast? hlast
    rw [← hl] at hm
    obtain ⟨statement, _, hset⟩ := List.mem_filterMap.1 hm
    refine ⟨.inr ⟨settings, inRange_of_settings? (Config.inRange_read lookup) hset, rfl⟩, ?_⟩
    simp [Settings.session, Settings.entries, List.ne_nil_of_mem (List.mem_of_getLast? hlast)]

/-- The text is the last command of a run that is carried out, with this acknowledgement: what comes
after it fails or goes to the engine. -/
def IsLastCommand (router : Router) (text : String) (acknowledgement : Acknowledgement)
    (steps : List ((Context × String) × Execution State)) : Prop :=
  ∃ before context execution after, steps = before ++ ((context, text), execution) :: after ∧
    execution.result = .ok (.command acknowledgement) ∧
    ∀ step ∈ after, router.forwards step.1.2 = true ∨ ∃ fault, step.2.result = .error fault

theorem IsLastCommand.exists_settings {statements : List (Context × String)} {session : Session}
    {state : State} {acknowledgement : Acknowledgement}
    (h : (ofConfig config).IsLastCommand text acknowledgement
      (statements.zip ((ofConfig config).executeAll engine statements session state))) :
    ∃ settings, (ofConfig config).settings? text = some settings ∧
      acknowledgement = ⟨Directive.name, settings.summary⟩ ∧
      ∀ entry ∈ settings.named,
        (left session state ((ofConfig config).executeAll engine statements session state)).1.get?
          (Settings.optionName entry.1) = some entry.2 := by
  obtain ⟨before, context, execution, after, hsteps, hr, hafter⟩ := h
  have hx {step : (Context × String) × Execution State}
      (hm : step ∈ before ++ ((context, text), execution) :: after) :=
    exists_execute_of_mem_zip (hsteps ▸ hm)
  obtain ⟨earlier, next, he⟩ := hx (List.mem_append_right _ List.mem_cons_self)
  change execution = (ofConfig config).execute engine context text earlier next at he
  rw [he] at hr
  obtain ⟨settings, hs, rfl⟩ := exists_settings?_of_command hr
  refine ⟨settings, hs, rfl, fun entry hm => ?_⟩
  have hstatements : statements = before.map (·.1) ++ (context, text) :: after.map (·.1) := by
    have hl := length_executeAll (ofConfig config) engine statements session state
    rw [← List.map_fst_zip (Nat.le_of_eq hl.symm), hsteps]
    simp
  -- nothing behind the directive stores anything, so its settings are stored last
  have hnone : (after.map (·.1)).filterMap ((ofConfig config).settings? ·.2) = [] := by
    rw [List.filterMap_map, List.filterMap_eq_nil_iff]
    intro step hm
    obtain ⟨_, _, he⟩ := hx (List.mem_append_right _ (List.mem_cons_of_mem _ hm))
    rcases hafter step hm with hf | ⟨fault, hf⟩
    · exact settings?_eq_none_of_forwards hf
    · exact settings?_eq_none_of_error (he ▸ hf)
  rw [session_left_executeAll, hstatements, List.filterMap_append, List.filterMap_cons, hs, hnone,
    List.foldl_concat]
  exact Settings.get?_store hm _

/-- Two runs that carry out the same directive last leave the same settings, whatever they began
with, whatever the engine answers and whatever else they execute. -/
theorem options_of_last_command {Other : Type} {other : Engine Other}
    {statements others : List (Context × String)} {session session' : Session} {state : State}
    {next : Other} {acknowledgement acknowledgement' : Acknowledgement}
    (h : (ofConfig config).IsLastCommand text acknowledgement
      (statements.zip ((ofConfig config).executeAll engine statements session state)))
    (h' : (ofConfig config).IsLastCommand text acknowledgement'
      (others.zip ((ofConfig config).executeAll other others session' next))) :
    let final := (left session state
      ((ofConfig config).executeAll engine statements session state)).1
    let final' := (left session' next
      ((ofConfig config).executeAll other others session' next)).1
    acknowledgement = acknowledgement' ∧
      (∀ name ∈ Settings.optionNames, final.get? name = final'.get? name) ∧
      ∃ settings, (ofConfig config).settings? text = some settings ∧
        ∀ entry ∈ settings.named, final.get? (Settings.optionName entry.1) = some entry.2 := by
  intro final final'
  obtain ⟨settings, hs, ha, hf⟩ := h.exists_settings
  obtain ⟨settings', hs', ha', hf'⟩ := h'.exists_settings
  obtain rfl : settings = settings' := Option.some.inj (hs.symm.trans hs')
  refine ⟨ha.trans ha'.symm, fun name hn => ?_, settings, hs, hf⟩
  obtain ⟨entry, he, rfl⟩ := settings.mem_optionNames_iff.1 hn
  exact (hf entry he).trans (hf' entry he).symm

/-- Neither the directive before it nor what the other session held shows, and what comes after it
changes nothing. -/
theorem options_of_last_command_batch_size :
    let router := ofConfig .standard
    let engine := Engine.scripted (.ok [])
    let text := "SET STREAMING ON BATCH_SIZE 8"
    let acknowledgement : Acknowledgement :=
      ⟨"SET STREAMING", "streaming enabled (batch size 8, ordered OFF)"⟩
    let statements := ["SET STREAMING OFF FLUSH_FREQUENCY 5 ORDERED", text, "SELECT 1",
      "SET STREAMING MAYBE"].map (Context.plain, ·)
    let others := [(Context.plain, text)]
    let other := Session.empty.put "streaming.batch_size" (.text "many")
    let run := router.executeAll engine statements .empty []
    let run' := router.executeAll engine others other []
    router.IsLastCommand text acknowledgement (statements.zip run) ∧
      router.IsLastCommand text acknowledgement (others.zip run') ∧
      ∀ name ∈ Settings.optionNames,
        (left .empty [] run).1.get? name = (left other [] run').1.get? name := by
  intro router engine text acknowledgement statements others other run run'
  have hs : router.settings? text =
      some { Settings.standard with enabled := true, batchSize := 8 } := by decide +kernel
  have hf : router.prepare "SET STREAMING MAYBE" = .error (.argumentType 14 "boolean" "MAYBE"
      "Unexpected token: 'MAYBE', ON, OFF, 1 or 0 expected.") := by decide +kernel
  have h : router.IsLastCommand text acknowledgement (statements.zip run) := by
    refine ⟨[_], .plain, _, [_, _], rfl, result_execute_of_settings hs, ?_⟩
    simp only [List.forall_mem_cons]
    refine ⟨.inl (by decide +kernel), .inr ?_, by simp⟩
    exact ⟨_, congrArg Execution.result (execute_of_fault hf ..)⟩
  have h' : router.IsLastCommand text acknowledgement (others.zip run') :=
    ⟨[], .plain, _, [], rfl, result_execute_of_settings hs, by simp⟩
  exact ⟨h, h', (options_of_last_command h h').2.1⟩

end Router

end SqlDispatch
