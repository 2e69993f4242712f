import SqlDispatch.Proofs.Shell.Stop

set_option autoImplicit false

/-!
Blank lines put into an input. They move the lines behind them and do nothing else: a run on the
longer input makes the same calls and comes to the same outcomes, and every record and every entry
of its log has the number of its line in the longer input (`runFrom_of_padded`).
-/

namespace SqlDispatch

open Text

variable {State : Type}

def Event.renumbered (f : Nat → Nat) : Event → Event
  | .statementFailed line fault => .statementFailed (f line) fault
  | .shutdownRequested line => .shutdownRequested (f line)
  | event => event

theorem Router.map_renumbered_events (router : Router) (engine : Engine State) (context : Context)
    (text : String) (session : Session) (state : State) (f : Nat → Nat) :
    (router.execute engine context text session state).events.map (Event.renumbered f) =
      (router.execute engine context text session state).events := by
  unfold execute
  split
  · rfl
  · rename_i command arguments _
    unfold executeCommand
    cases command.handler with
    | acknowledge summary => rfl
    | refuse causes => rfl
    | streaming defaults =>
      rw [Handler.on_streaming]
      cases defaults.ofArguments arguments <;> rfl
  · unfold forward
    dsimp only
    split <;> rfl

namespace Shell

def Record.renumbered (f : Nat → Nat) (record : Record) : Record :=
  { record with line := f record.line }

namespace Run

def renumbered (f : Nat → Nat) (run : Run) : Run :=
  { run with
    records := run.records.map (Record.renumbered f)
    events := run.events.map (Event.renumbered f) }

theorem renumbered_precede (f : Nat → Nat) {execution : Execution State} (record : Record)
    (run : Run) (h : execution.events.map (Event.renumbered f) = execution.events) :
    (precede execution record run).renumbered f =
      precede execution (record.renumbered f) (run.renumbered f) := by
  simp only [renumbered, precede, List.map_cons, List.map_append, eventsOf, h]
  cases execution.result <;> rfl

end Run

/-- As `before`, for a text with one more line in front and nothing before that. -/
def later (before : Nat → Nat) : Nat → Nat
  | 0 | 1 => 0
  | n + 2 => before (n + 1)

/-- The second text is the first with blank lines put in. Each is put where a line begins, with an
end of its own, and `before n` of them are put before the line that had the number `n`. -/
inductive Padded : (Nat → Nat) → String → String → Prop where
  | done (text : String) : Padded (fun _ => 0) text text
  | line {before : Nat → Nat} {line text other : String} :
      '\n' ∉ line.toList → Padded before text other →
      Padded (later before) (line ++ "\n" ++ text) (line ++ "\n" ++ other)
  | blank {before : Nat → Nat} {line text other : String} :
      isVoid line = true → '\n' ∉ line.toList → Padded before text other →
      Padded (fun n => before n + 1) text (line ++ "\n" ++ other)

inductive PaddedLines : (Nat → Nat) → List (Option String) → List (Option String) → Prop where
  | nil (before : Nat → Nat) : PaddedLines before [] []
  | line {before : Nat → Nat} (line : Option String) {lines others : List (Option String)} :
      PaddedLines before lines others → PaddedLines (later before) (line :: lines) (line :: others)
  | blank {before : Nat → Nat} {text : String} {lines others : List (Option String)} :
      isVoid text = true → PaddedLines before lines others →
      PaddedLines (fun n => before n + 1) lines (some text :: others)

theorem later_zero : later (fun _ => 0) = fun _ => 0 := by
  funext n
  match n with
  | 0 | 1 | _ + 2 => rfl

theorem paddedLines_self (lines : List (Option String)) :
    PaddedLines (fun _ => 0) lines lines := by
  induction lines with
  | nil => exact .nil _
  | cons line lines ih =>
    rw [← later_zero]
    exact ih.line line

theorem isVoid_withoutReturn {line : String} (h : isVoid line = true) :
    isVoid (.ofList (withoutReturn line.toList)) = true := by
  simp only [isVoid, String.toList_ofList, List.all_eq_true] at h ⊢
  intro c hc
  unfold withoutReturn at hc
  split at hc
  · exact h c (List.dropLast_subset _ hc)
  · exact h c hc

theorem paddedLines_of_padded {before : Nat → Nat} {text other : String}
    (h : Padded before text other) :
    PaddedLines before (lines (encode text)) (lines (encode other)) := by
  induction h with
  | done text => exact paddedLines_self _
  | @line _ line text other hn _ ih =>
    rw [encode_append (line ++ "\n") text, encode_append (line ++ "\n") other,
      lines_encode_append hn, lines_encode_append hn]
    exact ih.line _
  | @blank _ line _ other hv hn _ ih =>
    rw [encode_append (line ++ "\n") other, lines_encode_append hn]
    exact ih.blank (isVoid_withoutReturn hv)

namespace Place

def moved (place : Place State) (k : Nat) : Place State := { place with line := place.line + k }

theorem moved_moved (place : Place State) (a b : Nat) :
    (place.moved a).moved b = place.moved (a + b) := by
  simp [moved, Nat.add_assoc]

theorem moved_after (place : Place State) (k : Nat) (execution : Execution State) (size : Nat) :
    (place.moved k).after execution size = (place.after execution size).moved k := by
  simp [moved, after, Nat.add_right_comm]

theorem after_eq_of_endless {place : Place State} (hr : place.room = none)
    (execution : Execution State) (size : Nat) :
    place.after execution size = place.after execution 0 := by
  simp [after, hr]

end Place

theorem runFrom_moved_of_statement {setup : Setup State} {place : Place State} {text : String}
    {rest : List (Option String)} (hv : isVoid text = false) (hs : place.shutdown = false)
    (hr : place.room = none) (k : Nat) :
    let execution :=
      setup.router.execute setup.engine .plain text place.session place.engine
    let record : Record := ⟨place.line + k + 1, execution.result⟩
    runFrom setup (place.moved k) (some text :: rest) =
      .precede execution record
        (if setup.failFast && execution.failed then .finished setup.writer
          else runFrom setup ((place.after execution record.bytes.length).moved k) rest) := by
  intro execution record
  rw [← Place.moved_after]
  exact @runFrom_of_statement_of_endless _ setup (place.moved k) text rest hv hs hr

/-- With `k` more lines behind and blank lines put in ahead, a run does the same under other
numbers. -/
theorem runFrom_of_padded {setup : Setup State} {before : Nat → Nat}
    {lines others : List (Option String)} (h : PaddedLines before lines others)
    {place : Place State} (hr : place.room = none) (k : Nat) {f : Nat → Nat}
    (hf : ∀ n, f (place.line + (n + 1)) = place.line + (n + 1) + k + before (n + 1)) :
    runFrom setup (place.moved k) others = (runFrom setup place lines).renumbered f := by
  induction h generalizing place k with
  | nil before => rfl
  | @line before line lines others _ ih =>
    have hfirst : f (place.line + 1) = place.line + k + 1 := by
      rw [hf 0, later, Nat.add_zero, Nat.zero_add, Nat.add_right_comm]
    have hlater (n : Nat) :
        f (place.line + 1 + (n + 1)) = place.line + 1 + (n + 1) + k + before (n + 1) := by
      rw [Nat.add_assoc, Nat.add_comm 1, hf (n + 1), later]
    cases line with
    | none => rfl
    | some text =>
      cases hv : isVoid text with
      | true =>
        rw [runFrom_of_isVoid hv, runFrom_of_isVoid hv]
        change runFrom setup ((place.moved k).moved 1) others =
          (runFrom setup (place.moved 1) lines).renumbered f
        rw [Place.moved_moved, Nat.add_comm k, ← Place.moved_moved]
        exact @ih (place.moved 1) hr k hlater
      | false =>
        cases hs : place.shutdown with
        | true =>
          have hm : (place.moved k).shutdown = true := hs
          rw [runFrom_of_shutdown hv hs, runFrom_of_shutdown hv hm]
          simp [Run.renumbered, Run.finished, Event.renumbered, hfirst, Place.moved]
        | false =>
          have he := setup.router.map_renumbered_events setup.engine .plain text place.session
            place.engine f
          rw [runFrom_of_statement_of_endless hv hs hr, runFrom_moved_of_statement hv hs hr]
          generalize setup.router.execute setup.engine .plain text place.session place.engine =
            execution at he ⊢
          rw [Run.renumbered_precede _ _ _ he, Record.renumbered, hfirst]
          refine congrArg (Run.precede execution _) ?_
          cases setup.failFast && execution.failed with
          | true => rfl
          | false =>
            rw [Place.after_eq_of_endless hr,
              Place.after_eq_of_endless hr _ (Record.bytes _).length]
            exact ih (Place.room_after hr ..) k hlater
  | @blank before text lines others hv _ ih =>
    rw [runFrom_of_isVoid hv]
    change runFrom setup ((place.moved k).moved 1) others = _
    rw [Place.moved_moved]
    refine ih hr (k + 1) fun n => ?_
    rw [hf n]
    dsimp only
    omega

theorem fault_run_encode (setup : Setup State) (engine : State) (shutdown : Bool) (text : String)
    (hr : setup.writer.room = none) :
    (Shell.run setup engine shutdown (encode text)).fault = (Run.finished setup.writer).fault := by
  rw [Shell.run, lines_encode]
  exact @fault_runFrom _ setup _ (.start setup engine shutdown) hr

/-- Blank lines can be put into a text or taken out of it. The calls of a run, what its statements
come to and how many fail are the same, however the run ends; the line of a record has moved by the
blank lines before it. -/
theorem run_of_padded (router : Router) (engine : Engine State) (failFast shutdown : Bool)
    (state : State) {before : Nat → Nat} {text other : String} (h : Padded before text other) :
    let setup : Setup State := ⟨router, engine, failFast, .endless⟩
    let run := Shell.run setup state shutdown (encode text)
    let padded := Shell.run setup state shutdown (encode other)
    padded.calls = run.calls ∧ padded.executed = run.executed ∧ padded.failed = run.failed ∧
      padded.fault = none ∧ run.fault = none ∧
      padded.records =
        run.records.map (fun record => ⟨record.line + before record.line, record.result⟩) ∧
      padded.events = run.events.map (Event.renumbered fun line => line + before line) := by
  intro setup run padded
  have hp : padded = run.renumbered fun line => line + before line := by
    have hr : (Place.start setup state shutdown).room = none := rfl
    refine runFrom_of_padded (paddedLines_of_padded h) hr 0 fun n => ?_
    simp [Place.start]
  have hf : run.fault = none := fault_run_encode setup state shutdown text rfl
  rw [hp]
  -- no more is said of what the run itself is
  clear_value run
  exact ⟨rfl, rfl, rfl, hf, hf, rfl, rfl⟩

theorem run_of_padded_shutdown :
    let setup : Setup (List Engine.Reply) :=
      ⟨.ofTable (Streaming.builtin .standard), Engine.scripted (.ok []), true, .endless⟩
    let text := "SELECT 1\nSELECT 2\n\nSET STREAMING OFF"
    let other := "\u2003\r\nSELECT 1\n \n\nSELECT 2\n\n\t\nSET STREAMING OFF"
    let run := Shell.run setup [.usual, .shutdown] false (encode text)
    let padded := Shell.run setup [.usual, .shutdown] false (encode other)
    ∃ before, Padded before text other ∧ before 1 = 1 ∧ before 2 = 3 ∧ before 4 = 4 ∧
      padded.calls = run.calls ∧ padded.executed = run.executed ∧ run.executed = 2 ∧
      padded.records.map Record.line = [2, 5] := by
  intro setup text other run padded
  have h : Padded _ text other :=
    @Padded.blank _ "\u2003\r" _ _ (by decide) (by decide) <|
    @Padded.line _ "SELECT 1" _ _ (by decide) <|
    @Padded.blank _ " " _ _ (by decide) (by decide) <|
    @Padded.blank _ "" _ _ (by decide) (by decide) <|
    @Padded.line _ "SELECT 2" _ _ (by decide) <|
    @Padded.line _ "" _ _ (by decide) <|
    @Padded.blank _ "\t" _ _ (by decide) (by decide) <|
    .done "SET STREAMING OFF"
  obtain ⟨before, h, h₁, h₂, h₄⟩ : ∃ before, Padded before text other ∧
      before 1 = 1 ∧ before 2 = 3 ∧ before 4 = 4 := ⟨_, h, rfl, rfl, rfl⟩
  obtain ⟨hc, he, _, _, _, hr, _⟩ :=
    run_of_padded setup.router setup.engine true false [.usual, .shutdown] h
  have hl : run.records.map Record.line = [1, 2] := by decide +kernel
  have hp : padded.records.map Record.line =
      (run.records.map Record.line).map fun line => line + before line := by
    rw [hr, List.map_map, List.map_map]
    rfl
  refine ⟨before, h, h₁, h₂, h₄, hc, he, by decide +kernel, ?_⟩
  rw [hp, hl, List.map_cons, List.map_singleton, h₁, h₂]

end Shell

end SqlDispatch
