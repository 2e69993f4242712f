import SqlDispatch.Proofs.Shell.Run

set_option autoImplicit false

/-!
What every run does, however it ends. Whatever the writer takes and whether all lines can be read, a
run executes the statements of its input from the first on, and how many it executes decides its
records, its calls and its failures (`traces_run`). Two runs on one input are thus compared by their
lengths, and by how they end.
-/

namespace SqlDispatch

open Text

variable {State : Type}

namespace Shell

def legible : List (Option String) → List String
  | some text :: rest => text :: legible rest
  | _ => []

theorem legible_map_some (texts : List String) : legible (texts.map some) = texts := by
  induction texts with
  | nil => rfl
  | cons text texts ih => rw [List.map_cons, legible, ih]

theorem legible_append_none (texts : List String) (rest : List (Option String)) :
    legible (texts.map some ++ none :: rest) = texts := by
  induction texts with
  | nil => rfl
  | cons text texts ih => rw [List.map_cons, List.cons_append, legible, ih]

def statementsIn (input : List UInt8) : List (String × Nat) := numbered 1 (legible (lines input))

theorem lines_of_decode {input : List UInt8} {text : String} (h : decode input = some text) :
    lines input = (linesOfText text).map some := by
  rw [eq_encode_of_decode h, lines_encode]

theorem statementsIn_of_decode {input : List UInt8} {text : String}
    (h : decode input = some text) : statementsIn input = statementsOf text := by
  rw [statementsIn, lines_of_decode h, legible_map_some]
  rfl

theorem executions_cons (setup : Setup State) (statement : String × Nat)
    (statements : List (String × Nat)) (session : Session) (engine : State) :
    let execution := setup.router.execute setup.engine .plain statement.1 session engine
    setup.executions (statement :: statements) session engine =
      execution :: setup.executions statements execution.session execution.engine := rfl

/-- The run executes the first of these statements, as many as it counts, and records what they came
to. -/
structure Run.Traces (run : Run) (statements : List (String × Nat))
    (executions : List (Execution State)) : Prop where
  executed_le : run.executed ≤ statements.length
  records_eq : run.records = ((statements.zip executions).take run.executed).map
    fun pair => ⟨pair.1.2, pair.2.result⟩
  calls_eq : run.calls = (executions.take run.executed).filterMap Execution.call
  failed_eq : run.failed = (executions.take run.executed).countP Execution.failed

namespace Run.Traces

variable {run : Run} {statements : List (String × Nat)} {executions : List (Execution State)}

theorem of_idle (hr : run.records = []) (he : run.executed = 0) (hf : run.failed = 0)
    (hc : run.calls = []) : run.Traces statements executions := by
  refine ⟨?_, ?_, ?_, ?_⟩
  · rw [he]
    exact Nat.zero_le _
  · rw [he, hr, List.take_zero, List.map_nil]
  · rw [he, hc, List.take_zero, List.filterMap_nil]
  · rw [he, hf, List.take_zero, List.countP_nil]

theorem precede (h : run.Traces statements executions) (statement : String × Nat)
    (execution : Execution State) :
    (Run.precede execution ⟨statement.2, execution.result⟩ run).Traces (statement :: statements)
      (execution :: executions) := by
  refine ⟨Nat.succ_le_succ h.executed_le, ?_, ?_, ?_⟩
  · simp only [Run.precede, List.zip_cons_cons, List.take_succ_cons, List.map_cons, h.records_eq]
  · cases hc : execution.call <;>
      simp [Run.precede, List.take_succ_cons, hc, h.calls_eq]
  · have hf : Record.failed ⟨statement.2, execution.result⟩ = execution.failed := rfl
    simp only [Run.precede, List.take_succ_cons, List.countP_cons, hf, h.failed_eq]
    cases execution.failed <;> rfl

theorem length_records (h : run.Traces statements executions)
    (hl : executions.length = statements.length) : run.records.length = run.executed := by
  have he := h.executed_le
  rw [h.records_eq, List.length_map, List.length_take, List.length_zip, hl]
  omega

theorem countP_records (h : run.Traces statements executions)
    (hl : executions.length = statements.length) :
    run.failed = run.records.countP Record.failed := by
  have hz : (statements.zip executions).map Prod.snd = executions :=
    List.map_snd_zip (by omega)
  have ht : executions.take run.executed =
      ((statements.zip executions).take run.executed).map Prod.snd := by rw [List.map_take, hz]
  rw [h.failed_eq, h.records_eq, List.countP_map, ht, List.countP_map]
  rfl

theorem getLast?_records (h : run.Traces statements executions) {k : Nat}
    (hk : run.executed = k + 1) {statement : String × Nat} {execution : Execution State}
    (hs : statements[k]? = some statement) (he : executions[k]? = some execution) :
    run.records.getLast? = some ⟨statement.2, execution.result⟩ := by
  have hz : (statements.zip executions)[k]? = some (statement, execution) :=
    List.getElem?_zip_eq_some.2 ⟨hs, he⟩
  rw [h.records_eq, hk, List.take_add_one, hz, List.map_append]
  exact List.getLast?_concat

theorem getLast?_calls (h : run.Traces statements executions) {k : Nat}
    (hk : run.executed = k + 1) {execution : Execution State} {call : Call}
    (he : executions[k]? = some execution) (hc : execution.call = some call) :
    run.calls.getLast? = some call := by
  rw [h.calls_eq, hk, List.take_add_one, he, List.filterMap_append, Option.toList_some,
    List.filterMap_cons_some hc]
  exact List.getLast?_concat

end Run.Traces

theorem traces_runFrom (setup : Setup State) (lines : List (Option String))
    (place : Place State) :
    let statements := numbered (place.line + 1) (legible lines)
    (runFrom setup place lines).Traces statements
      (setup.executions statements place.session place.engine) := by
  induction place, lines using lines_induction with
  | nil place => exact .of_idle rfl rfl rfl rfl
  | unreadable place rest => exact .of_idle rfl rfl rfl rfl
  | void place text rest hv ih =>
    rw [legible, numbered_cons, runFrom_of_isVoid hv, if_pos hv]
    exact ih
  | halted place text rest hv hs =>
    rw [runFrom_of_shutdown hv hs]
    exact .of_idle rfl rfl rfl rfl
  | statement place text rest hv hs ih =>
    rw [legible, numbered_cons, runFrom_of_statement hv hs, hv]
    simp only [Bool.false_eq_true, if_false, executions_cons]
    refine .precede ?_ (text, place.line + 1) _
    split_ifs
    · exact .of_idle rfl rfl rfl rfl
    · exact .of_idle rfl rfl rfl rfl
    · exact ih ..

/-- Every run executes the statements of its input one after another from an empty session, as many
as it comes to. -/
theorem traces_run (setup : Setup State) (engine : State) (shutdown : Bool) (input : List UInt8) :
    (Shell.run setup engine shutdown input).Traces (statementsIn input)
      (setup.executions (statementsIn input) .empty engine) :=
  traces_runFrom setup (lines input) (.start setup engine shutdown)

end Shell

end SqlDispatch
