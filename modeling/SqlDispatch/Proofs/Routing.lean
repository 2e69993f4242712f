import SqlDispatch.Router

set_option autoImplicit false

/-!
Routing over whole runs. The engine is watched from outside by a log of every call that reaches it
and of what it answers, so that a call lost, doubled or rewritten on the way shows in the log. The
log of a run is a function of the texts and contexts alone, and the session is a function of the
texts alone.
-/

namespace SqlDispatch

structure Exchange where
  call : Call
  answer : Answer

def Answer.outcome (answer : Answer) : Except Fault Outcome :=
  match answer.result with
  | .ok rows => .ok (.rows rows)
  | .error error => .error (.engine error)

/-- The engine with a log of its exchanges, the latest last. -/
def Engine.logged {State : Type} (engine : Engine State) : Engine (State × List Exchange) where
  submit state call :=
    let answered := engine.submit state.1 call
    (answered.1, answered.2, state.2 ++ [⟨call, answered.1⟩])
  topology := engine.topology

namespace Router

/-- The call for a text as it stands; what the context leaves open is the router's default. -/
def callFor (router : Router) (context : Context) (text : String) : Call where
  text := text
  target := context.target.getD router.target
  timeout := context.timeout.or router.timeout
  cancelled := context.cancelled

def forwards (router : Router) (text : String) : Bool :=
  match Statement.read text with
  | .error _ => false
  | .ok statement =>
    match router.table.classify statement with
    | .internal .. => false
    | .forward _ => true

theorem prepare_of_forwards {router : Router} {text : String} (h : router.forwards text = true) :
    ∃ statement, statement.text = text ∧ router.prepare text = .ok (.forward statement) := by
  unfold forwards at h
  cases hr : Statement.read text with
  | error fault => simp [hr] at h
  | ok statement =>
    cases hc : router.table.classify statement with
    | internal command tokens => simp [hr, hc] at h
    | forward raw =>
      refine ⟨statement, Statement.text_of_read hr, ?_⟩
      simp [prepare, hr, hc]

theorem forwards_of_prepare {router : Router} {text : String} {statement : Statement}
    (h : router.prepare text = .ok (.forward statement)) : router.forwards text = true := by
  unfold prepare at h
  cases hr : Statement.read text with
  | error fault => simp [hr] at h
  | ok read =>
    cases hc : router.table.classify read with
    | forward raw => simp [forwards, hr, hc]
    | internal command tokens =>
      cases ha : Arguments.read command tokens <;> simp [hr, hc, ha] at h

theorem forwards_eq_false_of_internal {router : Router} {text : String} {statement : Statement}
    {command : Command} {tokens : List Token} (hr : Statement.read text = .ok statement)
    (hc : router.table.classify statement = .internal command tokens) :
    router.forwards text = false := by
  simp [forwards, hr, hc]

variable {State Other : Type}

theorem execute_of_fault {router : Router} {text : String} {fault : Fault}
    (h : router.prepare text = .error fault) (engine : Engine State) (context : Context)
    (session : Session) (state : State) :
    router.execute engine context text session state =
      ⟨.error fault, session, state, none, [], false⟩ := by
  simp [execute, h]

@[simp] theorem engine_executeCommand (command : Command) (arguments : Arguments)
    (session : Session) (state : State) :
    (executeCommand command arguments session state).engine = state := rfl

theorem engine_execute_of_not_forwards {router : Router} {text : String}
    (h : router.forwards text = false) (engine : Engine State) (context : Context)
    (session : Session) (state : State) :
    (router.execute engine context text session state).engine = state := by
  unfold execute
  split
  · rfl
  · exact engine_executeCommand ..
  · rename_i statement hp
    simp [forwards_of_prepare hp] at h

theorem execute_of_forwards {router : Router} {text : String} (h : router.forwards text = true)
    (engine : Engine State) (context : Context) (session : Session) (state : State) :
    let call := router.callFor context text
    let execution := router.execute engine context text session state
    execution.result = (engine.submit state call).1.outcome ∧ execution.session = session ∧
      execution.engine = (engine.submit state call).2 := by
  intro call execution
  obtain ⟨statement, ht, hp⟩ := prepare_of_forwards h
  have hc : router.callOf context statement = call := by
    simp [callOf, callFor, call, ht, Option.orElse_eq_or]
  have he : execution = forward engine call session state := by
    simp [execution, execute, hp, hc]
  rw [he]
  unfold forward Answer.outcome
  cases hs : engine.submit state call with
  | mk answer next => cases ha : answer.result <;> simp [ha]

theorem session_execute_engine (router : Router) (engine : Engine State) (other : Engine Other)
    (context : Context) (text : String) (session : Session) (state : State) (next : Other) :
    (router.execute engine context text session state).session =
      (router.execute other context text session next).session := by
  unfold execute
  split
  · rfl
  · rfl
  · unfold forward
    simp only
    split <;> split <;> rfl

theorem engine_execute_session (router : Router) (engine : Engine State) (context : Context)
    (text : String) (session other : Session) (state : State) :
    (router.execute engine context text session state).engine =
      (router.execute engine context text other state).engine := by
  cases hf : router.forwards text with
  | false => simp [engine_execute_of_not_forwards hf]
  | true => rw [(execute_of_forwards hf ..).2.2, (execute_of_forwards hf ..).2.2]

def left (session : Session) (state : State) (run : List (Execution State)) : Session × State :=
  run.foldl (fun _ execution => (execution.session, execution.engine)) (session, state)

theorem left_cons (session : Session) (state : State) (execution : Execution State)
    (run : List (Execution State)) :
    left session state (execution :: run) = left execution.session execution.engine run := rfl

theorem getElem?_executeAll (router : Router) (engine : Engine State)
    (statements : List (Context × String)) (session : Session) (state : State) (i : Nat) :
    (router.executeAll engine statements session state)[i]? =
      statements[i]?.map fun statement =>
        let before := left session state
          ((router.executeAll engine statements session state).take i)
        router.execute engine statement.1 statement.2 before.1 before.2 := by
  induction statements generalizing session state i with
  | nil => simp [executeAll]
  | cons statement rest ih =>
    cases i with
    | zero => simp [executeAll, left]
    | succ i =>
      simp only [executeAll, List.getElem?_cons_succ, List.take_succ_cons, left_cons]
      exact ih ..

theorem length_executeAll (router : Router) (engine : Engine State)
    (statements : List (Context × String)) (session : Session) (state : State) :
    (router.executeAll engine statements session state).length = statements.length := by
  induction statements generalizing session state with
  | nil => rfl
  | cons statement rest ih => simp [executeAll, ih]

theorem executeAll_take (router : Router) (engine : Engine State)
    (statements : List (Context × String)) (session : Session) (state : State) (n : Nat) :
    router.executeAll engine (statements.take n) session state =
      (router.executeAll engine statements session state).take n := by
  induction statements generalizing session state n with
  | nil => simp [executeAll]
  | cons statement rest ih =>
    cases n with
    | zero => rfl
    | succ n => simp only [executeAll, List.take_succ_cons, ih]

theorem sessions_executeAll_engine (router : Router) (engine : Engine State)
    (other : Engine Other) (statements : List (Context × String)) (session : Session)
    (state : State) (next : Other) :
    (router.executeAll engine statements session state).map Execution.session =
      (router.executeAll other statements session next).map Execution.session := by
  induction statements generalizing session state next with
  | nil => rfl
  | cons statement rest ih =>
    have hs := session_execute_engine router engine other statement.1 statement.2 session state next
    simp only [executeAll, List.map_cons, hs]
    rw [ih]

theorem left_executeAll_session (router : Router) (engine : Engine State)
    (statements : List (Context × String)) (session other : Session) (state : State) :
    (left session state (router.executeAll engine statements session state)).2 =
      (left other state (router.executeAll engine statements other state)).2 := by
  induction statements generalizing session other state with
  | nil => rfl
  | cons statement rest ih =>
    have he := engine_execute_session router engine statement.1 statement.2 session other state
    simp only [executeAll, left_cons, he]
    exact ih ..

/-- A run adds to the log the calls of the statements for the engine, one each and in order, and the
outcomes of those statements are the answers. -/
theorem log_executeAll (router : Router) (engine : Engine State)
    (statements : List (Context × String)) (session : Session)
    (state : State) (log : List Exchange) :
    let run := router.executeAll engine.logged statements session (state, log)
    ∃ exchanges, (left session (state, log) run).2.2 = log ++ exchanges ∧
      exchanges.map (·.call) =
        (statements.filter (router.forwards ·.2)).map (fun s => router.callFor s.1 s.2) ∧
      exchanges.map (·.answer.outcome) =
        ((statements.zip run).filter (router.forwards ·.1.2)).map (·.2.result) := by
  induction statements generalizing session state log with
  | nil => exact ⟨[], by simp [executeAll, left]⟩
  | cons statement rest ih =>
    cases hf : router.forwards statement.2 with
    | false =>
      have he := engine_execute_of_not_forwards hf engine.logged statement.1 session (state, log)
      obtain ⟨exchanges, hl, hc, ho⟩ := ih
        (router.execute engine.logged statement.1 statement.2 session (state, log)).session state
        log
      refine ⟨exchanges, ?_, ?_, ?_⟩
      · simpa [executeAll, left_cons, he] using hl
      · simpa [hf] using hc
      · simpa [executeAll, hf, he] using ho
    | true =>
      obtain ⟨hr, _, he⟩ := execute_of_forwards hf engine.logged statement.1 session (state, log)
      let call := router.callFor statement.1 statement.2
      let answered := engine.submit state call
      obtain ⟨exchanges, hl, hc, ho⟩ := ih
        (router.execute engine.logged statement.1 statement.2 session (state, log)).session
        answered.2 (log ++ [⟨call, answered.1⟩])
      change _ = (answered.2, log ++ [⟨call, answered.1⟩]) at he
      refine ⟨⟨call, answered.1⟩ :: exchanges, ?_, ?_, ?_⟩
      · simpa [executeAll, left_cons, he] using hl
      · simp [hf, hc, call]
      · simp only [executeAll, List.zip_cons_cons, List.filter_cons, hf, if_true, List.map_cons,
          hr, he, ho]
        rfl

/-- The calls that reach the engine in a run are those of the statements that are read and open with
no command, one each and in order, and the answers are what these statements come to. A statement
that cannot be prepared leaves session, engine and log as they were, and a command leaves the engine
and the log. The log does not depend on the session, nor the session on the engine. -/
theorem executeAll_forwards_exactly (router : Router) (engine : Engine State)
    (statements : List (Context × String)) (session : Session) (state : State) :
    let run := router.executeAll engine.logged statements session (state, [])
    let log := (left session (state, []) run).2.2
    run.length = statements.length ∧
    log.map (·.call) =
      (statements.filter (router.forwards ·.2)).map (fun s => router.callFor s.1 s.2) ∧
    log.map (·.answer.outcome) =
      ((statements.zip run).filter (router.forwards ·.1.2)).map (·.2.result) ∧
    (∀ (i : Nat) (context : Context) (text : String)
        (execution : Execution (State × List Exchange)),
      statements[i]? = some (context, text) → run[i]? = some execution →
        let before := left session (state, []) (run.take i)
        (∀ fault, router.prepare text = .error fault → execution.result = .error fault ∧
          execution.session = before.1 ∧ execution.engine = before.2) ∧
        (∀ statement command tokens, Statement.read text = .ok statement →
          router.table.classify statement = .internal command tokens →
          execution.engine = before.2) ∧
        (router.forwards text = true → execution.session = before.1)) ∧
    (∀ other : Session, (left other (state, [])
      (router.executeAll engine.logged statements other (state, []))).2.2 = log) ∧
    ∀ (Other : Type) (another : Engine Other) (next : Other),
      (router.executeAll another statements session next).map (·.session) =
        run.map (·.session) := by
  intro run log
  obtain ⟨exchanges, hl, hc, ho⟩ := log_executeAll router engine statements session state []
  have hlog : log = exchanges := by simpa using hl
  refine ⟨length_executeAll .., hlog ▸ hc, hlog ▸ ho, ?_, ?_, ?_⟩
  · intro i context text execution hs hx before
    have he : execution = router.execute engine.logged context text before.1 before.2 := by
      have h := getElem?_executeAll router engine.logged statements session (state, []) i
      rw [hs] at h
      exact Option.some.inj (hx.symm.trans h)
    subst he
    refine ⟨fun fault hp => ?_, fun statement command tokens hr hc => ?_, fun hf => ?_⟩
    · rw [execute_of_fault hp]
      exact ⟨rfl, rfl, rfl⟩
    · exact engine_execute_of_not_forwards (forwards_eq_false_of_internal hr hc) ..
    · exact (execute_of_forwards hf ..).2.1
  · intro other
    exact congrArg Prod.snd
      (left_executeAll_session router engine.logged statements other session _)
  · intro Other another next
    exact sessions_executeAll_engine router another engine.logged statements session next _

end Router

end SqlDispatch
