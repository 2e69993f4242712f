import SqlDispatch.Proofs.Shell.Trace

set_option autoImplicit false

/-!
Runs that end before their input does. A run that is asked to shut down during a call ends with the
statement of that call, as if the input ended with its line (`run_shutdown`); a run that is to fail
fast is the full run up to and with the first failure (`run_failFast`).
-/

namespace SqlDispatch

open Text

variable {State : Type}

/-- A call during which a request to shut down arrives comes back as cancelled. -/
def Engine.HeedsShutdown (engine : Engine State) : Prop :=
  ∀ state call, (engine.submit state call).1.shutdown = true →
    (engine.submit state call).1.result = .error .cancelled

theorem Engine.heedsShutdown_scripted (topology : Except EngineError (List Node)) :
    (scripted topology).HeedsShutdown := by
  intro replies call h
  simp only [scripted] at h ⊢
  split at h
  · cases h
  · rename_i hc
    rw [if_neg hc]
    cases replies with
    | nil => cases h
    | cons reply rest =>
      cases reply with
      | rows => cases h
      | fail => cases h
      | shutdown => rfl

namespace Router

theorem exists_submit_of_shutdown {router : Router} {engine : Engine State} {context : Context}
    {text : String} {session : Session} {state : State}
    (h : (router.execute engine context text session state).shutdown = true) :
    ∃ call, (router.execute engine context text session state).call = some call ∧
      (engine.submit state call).1.shutdown = true ∧
      (router.execute engine context text session state).result =
        (engine.submit state call).1.outcome := by
  unfold execute at h ⊢
  cases hp : router.prepare text with
  | error fault =>
    rw [hp] at h
    cases h
  | ok prepared =>
    rw [hp] at h
    cases prepared with
    | internal command arguments =>
      cases h
    | forward statement =>
      simp only [forward, Answer.outcome] at h ⊢
      split at h
      · rename_i error he
        exact ⟨_, rfl, h, by rw [he]⟩
      · rename_i rows he
        exact ⟨_, rfl, h, by rw [he]⟩

end Router

namespace Shell

def Run.unlogged (run : Run) : Run := { run with events := [] }

theorem unlogged_eq_iff {run other : Run} :
    run.unlogged = other.unlogged ↔ run.records = other.records ∧
      run.executed = other.executed ∧ run.failed = other.failed ∧ run.calls = other.calls ∧
        run.fault = other.fault := by
  simp [Run.unlogged]

theorem unlogged_precede (execution : Execution State) (record : Record) (run : Run) :
    (Run.precede execution record run).unlogged =
      (Run.precede execution record run.unlogged).unlogged := rfl

theorem unlogged_precedeAll (run : Run) (events : List Event)
    (pairs : List ((String × Nat) × Execution State)) :
    (Run.precedeAll { run with events := events } pairs).unlogged =
      (run.precedeAll pairs).unlogged := by
  induction pairs with
  | nil => rfl
  | cons pair rest ih =>
    rw [Run.precedeAll, unlogged_precede, ih, ← unlogged_precede]
    rfl

section Texts

variable {setup : Setup State} {texts : List String} {place : Place State}

theorem unlogged_runFrom (hr : place.room = none) :
    (runFrom setup place (texts.map some)).unlogged =
      (Run.precedeAll (.finished setup.writer) (if place.shutdown then [] else
        setup.reached (numbered (place.line + 1) texts) place.session place.engine)).unlogged := by
  obtain ⟨events, he⟩ := exists_runFrom_eq setup texts hr
  rw [he, unlogged_precedeAll]

/-- Where a run stops after a statement, the lines behind that of the statement do not matter. -/
theorem unlogged_runFrom_take (hr : place.room = none) {k : Nat} {statement : String × Nat}
    {execution : Execution State}
    (hst : (numbered (place.line + 1) texts)[k]? = some statement)
    (hex : (setup.executions (numbered (place.line + 1) texts) place.session place.engine)[k]? =
      some execution)
    (hs : setup.stopsAfter execution = true) :
    ∃ n, statement.2 = place.line + n ∧
      (runFrom setup place ((texts.take n).map some)).unlogged =
        (runFrom setup place (texts.map some)).unlogged := by
  obtain ⟨n, hn, ht⟩ := exists_numbered_take hst
  refine ⟨n, by omega, ?_⟩
  rw [unlogged_runFrom hr, unlogged_runFrom hr, ht, reached_take hex hs]

theorem executed_runFrom (hr : place.room = none) (hs : place.shutdown = false) :
    (runFrom setup place (texts.map some)).executed =
      (setup.reached (numbered (place.line + 1) texts) place.session place.engine).length := by
  obtain ⟨_, he, _⟩ := unlogged_eq_iff.1 (@unlogged_runFrom _ setup texts place hr)
  rw [he, executed_precedeAll, hs]
  rfl

theorem fault_runFrom (hr : place.room = none) :
    (runFrom setup place (texts.map some)).fault = (Run.finished setup.writer).fault := by
  obtain ⟨_, _, _, _, hf⟩ := unlogged_eq_iff.1 (@unlogged_runFrom _ setup texts place hr)
  rw [hf, fault_precedeAll]

end Texts

theorem exists_execute_of_getElem? {setup : Setup State} {statements : List (String × Nat)}
    {session : Session} {engine : State} {k : Nat} {execution : Execution State}
    (h : (setup.executions statements session engine)[k]? = some execution) :
    ∃ text before state,
      execution = setup.router.execute setup.engine .plain text before state := by
  rw [Setup.executions, Router.getElem?_executeAll, Option.map_eq_some_iff] at h
  obtain ⟨⟨context, text⟩, hm, rfl⟩ := h
  rw [List.getElem?_map, Option.map_eq_some_iff] at hm
  obtain ⟨statement, _, hm⟩ := hm
  obtain ⟨rfl, rfl⟩ := Prod.mk.inj hm
  exact ⟨_, _, _, rfl⟩

/-- A run that a request to shut down interrupts during a statement is the run on the input cut off
behind the line of this statement, which is its last; a run that is asked to shut down before it
starts does nothing. Both end well. -/
theorem run_shutdown (router : Router) (engine : Engine State) (failFast : Bool) (state : State)
    {input : List UInt8} {text : String} (h : decode input = some text) :
    let setup : Setup State := ⟨router, engine, failFast, .endless⟩
    let run := Shell.run setup state false input
    let statements := statementsOf text
    let executions := setup.executions statements .empty state
    (∀ (k line : Nat) (statement : String) (execution : Execution State),
      statements[k]? = some (statement, line) → executions[k]? = some execution →
      k < run.executed → execution.shutdown = true →
        let cut := Shell.run setup state false (leading line input)
        run.output .endless = cut.output .endless ∧ run.executed = cut.executed ∧
          run.failed = cut.failed ∧ run.calls = cut.calls ∧ run.fault = none ∧ cut.fault = none ∧
          run.executed = k + 1 ∧ run.records.getLast? = some ⟨line, execution.result⟩ ∧
          (∃ call, execution.call = some call ∧ run.calls.getLast? = some call) ∧
          (engine.HeedsShutdown → ∃ fault : Fault, execution.result = .error fault ∧
            fault.state.code = "HY008")) ∧
      let idle := Shell.run setup state true input
      idle.output .endless = [] ∧ idle.executed = 0 ∧ idle.failed = 0 ∧ idle.calls = [] ∧
        idle.fault = none := by
  intro setup run statements executions
  have hl := lines_of_decode h
  refine ⟨fun k line statement execution hst hex hk hd => ?_, ?_⟩
  · intro cut
    have hrun : run = runFrom setup (.start setup state false) ((linesOfText text).map some) := by
      rw [← hl]
      rfl
    have hcut (n : Nat) : Shell.run setup state false (leading n input) =
        runFrom setup (.start setup state false) (((linesOfText text).take n).map some) := by
      rw [Shell.run, lines_leading, hl, List.map_take]
    have hstop : setup.stopsAfter execution = true := by simp [Setup.stopsAfter, hd]
    have he : run.executed = k + 1 := by
      have he := @executed_runFrom _ setup (linesOfText text) (.start setup state false) rfl rfl
      rw [hrun, he] at hk
      rw [hrun, he]
      exact length_reached_of_stopsAfter hk hex hstop
    obtain ⟨n, hn, hu⟩ := @unlogged_runFrom_take _ setup _ (.start setup state false) rfl _ _ _
      hst hex hstop
    obtain rfl : line = n := by simpa [Place.start] using hn
    rw [← hrun, ← hcut] at hu
    have ht : run.Traces statements executions := by
      have ht := traces_run setup state false input
      rwa [statementsIn_of_decode h] at ht
    have hf : run.fault = none := by
      rw [hrun]
      exact fault_runFrom rfl
    obtain ⟨_, _, _, rfl⟩ := exists_execute_of_getElem? hex
    obtain ⟨call, hc, hs, hr⟩ := Router.exists_submit_of_shutdown hd
    obtain ⟨_, hexe, hfai, hcal, hfau⟩ := unlogged_eq_iff.1 hu.symm
    refine ⟨congrArg (·.output .endless) hu.symm, hexe, hfai, hcal, hf, hfau.symm.trans hf, he,
      ht.getLast?_records he hst hex, ⟨call, hc, ht.getLast?_calls he hex hc⟩, fun hg => ?_⟩
    refine ⟨.engine .cancelled, ?_, rfl⟩
    rw [hr, Answer.outcome, hg _ _ hs]
  · have hu : (runFrom setup (.start setup state true) ((linesOfText text).map some)).unlogged =
        (Run.finished .endless).unlogged := unlogged_runFrom rfl
    rw [← hl] at hu
    obtain ⟨_, hexe, hfai, hcal, hfau⟩ := unlogged_eq_iff.1 hu
    exact ⟨congrArg (·.output .endless) hu, hexe, hfai, hcal, hfau⟩

theorem run_shutdown_between_directives :
    let setup : Setup (List Engine.Reply) :=
      ⟨.ofTable (Streaming.builtin .standard), Engine.scripted (.ok []), false, .endless⟩
    let text := "SET STREAMING ON\nSELECT 1\n\nSET STREAMING OFF\nSELECT 2"
    let run := Shell.run setup [.shutdown] false (encode text)
    let cut := Shell.run setup [.shutdown] false (encode "SET STREAMING ON\nSELECT 1\n")
    decode (encode text) = some text ∧ run.output .endless = cut.output .endless ∧
      run.calls = cut.calls ∧ run.executed = 2 ∧ run.fault = none ∧
      ∃ fault : Fault, run.records.getLast? = some ⟨2, .error fault⟩ ∧
        fault.state.code = "HY008" := by
  intro setup text run cut
  let first := setup.router.execute setup.engine .plain "SET STREAMING ON" .empty [.shutdown]
  have hs : statementsOf text = [("SET STREAMING ON", 1), ("SELECT 1", 2),
      ("SET STREAMING OFF", 4), ("SELECT 2", 5)] := by decide +kernel
  have hx : (setup.executions (statementsOf text) .empty [.shutdown])[1]? =
      some (setup.router.execute setup.engine .plain "SELECT 1" first.session first.engine) := by
    rw [hs]
    rfl
  have hl : leading 2 (encode text) = encode "SET STREAMING ON\nSELECT 1\n" := by decide +kernel
  obtain ⟨hrun, _⟩ := run_shutdown setup.router setup.engine false [.shutdown] (decode_encode text)
  obtain ⟨ho, _, _, hc, hf, _, he, hr, _, hg⟩ := hrun 1 2 "SELECT 1" _ (by rw [hs]; rfl) hx
    (by decide +kernel) (by decide +kernel)
  obtain ⟨fault, hq, hy⟩ := hg (Engine.heedsShutdown_scripted _)
  rw [hl] at ho hc
  rw [hq] at hr
  exact ⟨decode_encode text, ho, hc, he, hf, fault, hr, hy⟩

/-- The second run is the first, in which nothing fails, or its part up to and with the first
failure, after which it ends well. -/
inductive Run.FailsFast (full fast : Run) : Prop where
  | unfailing : (∀ record ∈ full.records, record.failed = false) → fast = full →
      FailsFast full fast
  | failing {front rest : List Record} {bad : Record} : full.records = front ++ bad :: rest →
      (∀ record ∈ front, record.failed = false) → bad.failed = true →
      fast.records = front ++ [bad] → fast.fault = none → FailsFast full fast

theorem Run.FailsFast.precede {full fast : Run} (h : full.FailsFast fast)
    (execution : Execution State) {record : Record} (hr : record.failed = false) :
    (Run.precede execution record full).FailsFast (Run.precede execution record fast) := by
  cases h with
  | unfailing hn he => exact .unfailing (List.forall_mem_cons.2 ⟨hr, hn⟩) (by rw [he])
  | @failing front rest bad hf hn hb he hz =>
    have hfull : (Run.precede execution record full).records =
        (record :: front) ++ bad :: rest := by rw [Run.precede, hf, List.cons_append]
    have hfast : (Run.precede execution record fast).records = (record :: front) ++ [bad] := by
      rw [Run.precede, he, List.cons_append]
    exact .failing hfull (List.forall_mem_cons.2 ⟨hr, hn⟩) hb hfast hz

theorem failsFast_runFrom (router : Router) (engine : Engine State) (lines : List (Option String))
    {place : Place State} (hr : place.room = none) :
    (runFrom ⟨router, engine, false, .endless⟩ place lines).FailsFast
      (runFrom ⟨router, engine, true, .endless⟩ place lines) := by
  induction place, lines using lines_induction with
  | nil place => exact .unfailing (List.forall_mem_nil _) rfl
  | unreadable place rest => exact .unfailing (List.forall_mem_nil _) rfl
  | void place text rest hv ih =>
    rw [runFrom_of_isVoid hv, runFrom_of_isVoid hv]
    exact ih hr
  | halted place text rest hv hs =>
    rw [runFrom_of_shutdown hv hs, runFrom_of_shutdown hv hs]
    exact .unfailing (List.forall_mem_nil _) rfl
  | statement place text rest hv hs ih =>
    rw [runFrom_of_statement_of_endless hv hs hr, runFrom_of_statement_of_endless hv hs hr]
    simp only [Bool.false_and, Bool.false_eq_true, if_false, Bool.true_and]
    generalize router.execute engine .plain text place.session place.engine = execution
    cases hf : execution.failed with
    | true =>
      have hn : ∀ record ∈ ([] : List Record), record.failed = false := List.forall_mem_nil _
      have hb : Record.failed ⟨place.line + 1, execution.result⟩ = true := hf
      exact .failing rfl hn hb rfl rfl
    | false => exact (ih _ _ (Place.room_after hr ..)).precede execution hf

/-- A run that is to fail fast on an input is the full run on it, if nothing fails there; otherwise
it is the full run up to and with the first failure, with the calls made until then, and ends well
whatever lines follow. -/
theorem run_failFast (router : Router) (engine : Engine State) (state : State) (shutdown : Bool)
    (input : List UInt8) :
    let setup : Setup State := ⟨router, engine, false, .endless⟩
    let full := Shell.run setup state shutdown input
    let fast := Shell.run { setup with failFast := true } state shutdown input
    let executions := setup.executions (statementsIn input) .empty state
    (∀ record ∈ full.records, record.failed = false) ∧ fast = full ∨
      ∃ front bad rest, full.records = front ++ bad :: rest ∧
        (∀ record ∈ front, record.failed = false) ∧ bad.failed = true ∧
        full.output .endless = fast.output .endless ++ rest.flatMap Record.bytes ∧
        full.calls = (executions.take full.records.length).filterMap Execution.call ∧
        fast.records = front ++ [bad] ∧ fast.executed = fast.records.length ∧ fast.failed = 1 ∧
        fast.calls = (executions.take (front.length + 1)).filterMap Execution.call ∧
        fast.fault = none := by
  intro setup full fast executions
  have hl : executions.length = (statementsIn input).length := length_executions
  have hfull : full.Traces (statementsIn input) executions := traces_run setup state shutdown input
  have hfast : fast.Traces (statementsIn input) executions :=
    traces_run { setup with failFast := true } state shutdown input
  have h : full.FailsFast fast := failsFast_runFrom router engine (lines input) rfl
  cases h with
  | unfailing hn he => exact .inl ⟨hn, he⟩
  | @failing front rest bad hf hn hb he hz =>
    have hlen : fast.executed = front.length + 1 := by
      rw [← hfast.length_records hl, he, List.length_append, List.length_singleton]
    refine .inr ⟨front, bad, rest, hf, hn, hb, ?_, ?_, he, (hfast.length_records hl).symm, ?_, ?_,
      hz⟩
    · simp [Run.output, Writer.endless, hf, he]
    · rw [hfull.length_records hl, hfull.calls_eq]
    · have hc : front.countP Record.failed = 0 := List.countP_eq_zero.2 (by simpa using hn)
      rw [hfast.countP_records hl, he, List.countP_append, hc, List.countP_singleton, hb]
      rfl
    · rw [← hlen, hfast.calls_eq]

end Shell

end SqlDispatch
