import SqlDispatch.Config
import SqlDispatch.Engine

set_option autoImplicit false

/-!
Routing. A statement is read and classified; a command is carried out on the session by its handler,
and everything else is handed to the engine as it is. An execution records all that it does: the
call that is made, if any, and the session as it is left, also by a handler that fails.
-/

namespace SqlDispatch

open Text

structure Acknowledgement where
  command : String
  summary : String
  deriving DecidableEq, Repr

/-- What a handler works on: the session, and what it tells the operator. -/
structure Workplace where
  session : Session
  events : List Event

abbrev Handling := Work Workplace (List String)

namespace Handling

def put (name : String) (value : OptionValue) : Handling Unit :=
  modify fun place => { place with session := place.session.put name value }

def tell (event : Event) : Handling Unit :=
  modify fun place => { place with events := place.events ++ [event] }

theorem on_put (name : String) (value : OptionValue) (place : Workplace) :
    (put name value).on place = (.ok (), { place with session := place.session.put name value }) :=
  rfl

def store (settings : Streaming.Settings) : Handling Unit :=
  settings.named.forM fun entry => put (Streaming.Settings.optionName entry.1) entry.2

theorem on_forM_put (entries : List (String × OptionValue)) (place : Workplace) :
    Work.on (entries.forM fun entry => put (Streaming.Settings.optionName entry.1) entry.2) place =
      (.ok (), { place with session := place.session.putAll (entries.map fun entry =>
        (Streaming.Settings.optionName entry.1, entry.2)) }) := by
  induction entries generalizing place with
  | nil => rfl
  | cons entry entries ih => exact (Work.on_bind_of_ok (on_put ..) _).trans (ih _)

theorem on_store (settings : Streaming.Settings) (place : Workplace) :
    (store settings).on place =
      (.ok (), { place with session := settings.store place.session }) :=
  on_forM_put settings.named place

end Handling

/-- Carries a command out, or fails with causes of which the last is the root. -/
def Handler.run (handler : Handler) (arguments : Arguments) : Handling Acknowledgement :=
  match handler with
  | .acknowledge summary => return ⟨"noop", summary⟩
  | .refuse causes => throw causes
  | .streaming defaults => do
    let settings ← (defaults.ofArguments arguments).mapError fun cause => [cause]
    Handling.store settings
    Handling.tell (.streamingUpdated settings)
    return ⟨Streaming.Directive.name, settings.summary⟩

/-- A streaming directive takes all of its arguments before it stores anything. -/
theorem Handler.on_streaming (defaults : Streaming.Settings) (arguments : Arguments)
    (place : Workplace) :
    ((Handler.streaming defaults).run arguments).on place =
      match defaults.ofArguments arguments with
      | .error cause => (.error [cause], place)
      | .ok settings =>
        (.ok ⟨Streaming.Directive.name, settings.summary⟩,
          ⟨settings.store place.session, place.events ++ [.streamingUpdated settings]⟩) := by
  unfold Handler.run
  dsimp only
  cases defaults.ofArguments arguments with
  | error cause => rfl
  | ok settings =>
    have hs := Handling.on_store settings place
    exact (Work.on_bind_of_ok rfl _).trans (Work.on_bind_of_ok hs _)

theorem Handler.run_congr (handler : Handler) {arguments others : Arguments}
    (h : ∀ defaults : Streaming.Settings,
      defaults.ofArguments arguments = defaults.ofArguments others) :
    handler.run arguments = handler.run others := by
  cases handler with
  | acknowledge summary => rfl
  | refuse causes => rfl
  | streaming defaults => simp only [run, h]

inductive Outcome where
  | command (acknowledgement : Acknowledgement)
  | rows (rows : Rows)
  deriving DecidableEq

def Outcome.json : Outcome → Json
  | .command acknowledgement =>
    .object [("type", .text "command"), ("command", .text acknowledgement.command),
      ("summary", .text acknowledgement.summary)]
  | .rows result =>
    .object [("type", .text "rows"), ("columns", .array (result.columns.map .text)),
      ("rows", .array (result.rows.map fun row => .array (row.map Cell.json))),
      ("rows_affected", .integer result.affected)]

inductive Prepared where
  | internal (command : Command) (arguments : Arguments)
  | forward (statement : Statement)
  deriving DecidableEq

/-- What goes with one statement; what it leaves open the router decides. -/
structure Context where
  target : Option Target
  timeout : Option Span
  cancelled : Bool
  deriving DecidableEq

def Context.plain : Context := ⟨none, none, false⟩

structure Router where
  table : CommandTable
  target : Target
  timeout : Option Span

structure Execution (State : Type) where
  result : Except Fault Outcome
  session : Session
  engine : State
  call : Option Call
  events : List Event
  shutdown : Bool

namespace Router

def ofTable (table : CommandTable) : Router := ⟨table, .cluster, none⟩

def ofConfig (config : Config) : Router :=
  ⟨Streaming.builtin config.streaming, config.target, config.timeout⟩

def prepare (router : Router) (text : String) : Except Fault Prepared :=
  match Statement.read text with
  | .error fault => .error fault
  | .ok statement =>
    match router.table.classify statement with
    | .forward _ => .ok (.forward statement)
    | .internal command tokens =>
      match Arguments.read command tokens with
      | .error fault => .error fault
      | .ok arguments => .ok (.internal command arguments)

def callOf (router : Router) (context : Context) (statement : Statement) : Call where
  text := statement.text
  target := context.target.getD router.target
  timeout := context.timeout <|> router.timeout
  cancelled := context.cancelled

variable {State : Type}

def executeCommand (command : Command) (arguments : Arguments) (session : Session)
    (state : State) : Execution State :=
  let (outcome, place) :=
    (command.handler.run arguments).on ⟨session, [.commandStarted command.name]⟩
  let result := match outcome with
    | .error causes => .error (.handler command.name causes)
    | .ok acknowledgement => .ok (.command acknowledgement)
  ⟨result, place.session, state, none, place.events, false⟩

def forward (engine : Engine State) (call : Call) (session : Session) (state : State) :
    Execution State :=
  let forwarded := Event.statementForwarded call.target
  let (answer, state) := engine.submit state call
  match answer.result with
  | .error error =>
    ⟨.error (.engine error), session, state, some call, [forwarded, .statementRejected error],
      answer.shutdown⟩
  | .ok rows => ⟨.ok (.rows rows), session, state, some call, [forwarded], answer.shutdown⟩

def execute (router : Router) (engine : Engine State) (context : Context) (text : String)
    (session : Session) (state : State) : Execution State :=
  match router.prepare text with
  | .error fault => ⟨.error fault, session, state, none, [], false⟩
  | .ok (.internal command arguments) => executeCommand command arguments session state
  | .ok (.forward statement) => forward engine (router.callOf context statement) session state

def executeAll (router : Router) (engine : Engine State) :
    List (Context × String) → Session → State → List (Execution State)
  | [], _, _ => []
  | (context, text) :: rest, session, state =>
    let execution := router.execute engine context text session state
    execution :: router.executeAll engine rest execution.session execution.engine

end Router

end SqlDispatch
