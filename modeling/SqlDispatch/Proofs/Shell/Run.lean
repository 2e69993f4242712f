import SqlDispatch.Proofs.Routing
import SqlDispatch.Proofs.Shell.Line
import SqlDispatch.Proofs.Text.Json
import SqlDispatch.Shell.Run

set_option autoImplicit false

/-!
What a run leaves behind. On a text the statements are the lines that are not blank; a run executes
them one after another from an empty session, up to and with the first after which it stops
(`exists_runFrom_eq`), and writes for each one line of JSON (`Run.frames`).
-/

namespace SqlDispatch

open Text

variable {State : Type}

def upTo {α : Type} (p : α → Bool) : List α → List α
  | [] => []
  | x :: rest => x :: if p x then [] else upTo p rest

section UpTo

variable {α : Type} {p : α → Bool} {xs : List α}

theorem upTo_isPrefix : upTo p xs <+: xs := by
  induction xs with
  | nil => exact List.prefix_rfl
  | cons x rest ih =>
    rw [upTo]
    split
    · exact ⟨rest, rfl⟩
    · exact (List.cons_prefix_cons).2 ⟨rfl, ih⟩

theorem not_of_getElem?_upTo {k : Nat} {x : α} (hk : k + 1 < (upTo p xs).length)
    (h : (upTo p xs)[k]? = some x) : p x = false := by
  induction xs generalizing k with
  | nil => cases h
  | cons y rest ih =>
    rw [upTo] at h hk
    split at h
    · rename_i hp
      simp [hp] at hk
    · rename_i hp
      cases k with
      | zero =>
        obtain rfl := Option.some.inj h
        simpa using hp
      | succ k =>
        rw [if_neg hp] at hk
        exact ih (by simpa using hk) (by simpa using h)

theorem upTo_take {k : Nat} {x : α} (h : xs[k]? = some x) (hp : p x = true) :
    upTo p (xs.take (k + 1)) = upTo p xs := by
  induction xs generalizing k with
  | nil => cases h
  | cons y rest ih =>
    rw [List.take_succ_cons, upTo, upTo]
    cases k with
    | zero =>
      obtain rfl := Option.some.inj h
      rw [if_pos hp, if_pos hp]
    | succ k => rw [ih h]

end UpTo

namespace Execution

def failed (execution : Execution State) : Bool :=
  match execution.result with
  | .error _ => true
  | .ok _ => false

end Execution

namespace Shell

def numbered (start : Nat) (texts : List String) : List (String × Nat) :=
  (texts.zipIdx start).filter fun line => !isVoid line.1

def statementsOf (text : String) : List (String × Nat) := numbered 1 (linesOfText text)

theorem numbered_cons (start : Nat) (text : String) (texts : List String) :
    numbered start (text :: texts) =
      if isVoid text then numbered (start + 1) texts
      else (text, start) :: numbered (start + 1) texts := by
  unfold numbered
  rw [List.zipIdx_cons, List.filter_cons]
  cases isVoid text <;> rfl

theorem exists_numbered_take {start k : Nat} {texts : List String} {statement : String × Nat}
    (h : (numbered start texts)[k]? = some statement) :
    ∃ n, statement.2 + 1 = start + n ∧
      numbered start (texts.take n) = (numbered start texts).take (k + 1) := by
  induction texts generalizing start k with
  | nil => cases h
  | cons text rest ih =>
    rw [numbered_cons] at h ⊢
    cases hv : isVoid text with
    | true =>
      rw [hv, if_pos rfl] at h
      obtain ⟨n, hn, ht⟩ := ih h
      refine ⟨n + 1, by omega, ?_⟩
      rw [List.take_succ_cons, numbered_cons, hv, if_pos rfl, if_pos rfl, ht]
    | false =>
      rw [hv, if_neg Bool.false_ne_true] at h
      cases k with
      | zero =>
        obtain rfl := Option.some.inj h
        refine ⟨1, rfl, ?_⟩
        rw [List.take_succ_cons, List.take_zero, numbered_cons, hv]
        rfl
      | succ k =>
        obtain ⟨n, hn, ht⟩ := ih h
        refine ⟨n + 1, by omega, ?_⟩
        rw [List.take_succ_cons, numbered_cons, hv, if_neg Bool.false_ne_true,
          if_neg Bool.false_ne_true, ht, List.take_succ_cons]

def Setup.stopsAfter (setup : Setup State) (execution : Execution State) : Bool :=
  execution.shutdown || setup.failFast && execution.failed

def Setup.executions (setup : Setup State) (statements : List (String × Nat)) (session : Session)
    (engine : State) : List (Execution State) :=
  setup.router.executeAll setup.engine (statements.map fun statement => (.plain, statement.1))
    session engine

section Step

variable {setup : Setup State} {place : Place State} {text : String} {rest : List (Option String)}

theorem runFrom_of_isVoid (h : isVoid text = true) :
    runFrom setup place (some text :: rest) =
      runFrom setup { place with line := place.line + 1 } rest := by
  rw [runFrom, if_pos h]

theorem runFrom_of_shutdown (hv : isVoid text = false) (hs : place.shutdown = true) :
    runFrom setup place (some text :: rest) =
      { Run.finished setup.writer with events := [.shutdownRequested (place.line + 1)] } := by
  rw [runFrom, if_neg (by simp [hv]), if_pos hs]

theorem runFrom_of_statement (hv : isVoid text = false) (hs : place.shutdown = false) :
    let execution :=
      setup.router.execute setup.engine .plain text place.session place.engine
    let record : Record := ⟨place.line + 1, execution.result⟩
    let size := record.bytes.length
    runFrom setup place (some text :: rest) =
      .precede execution record
        (if !place.fits size then .broken .write
          else if setup.failFast && execution.failed then .finished setup.writer
          else runFrom setup (place.after execution size) rest) := by
  intro execution record size
  have he : place.execute setup text = execution := by
    simp only [Place.execute, hs]
    rfl
  rw [runFrom, if_neg (by simp [hv]), if_neg (by simp [hs])]
  simp only [he]
  rfl

theorem runFrom_of_statement_of_endless (hv : isVoid text = false) (hs : place.shutdown = false)
    (hr : place.room = none) :
    let execution :=
      setup.router.execute setup.engine .plain text place.session place.engine
    let record : Record := ⟨place.line + 1, execution.result⟩
    runFrom setup place (some text :: rest) =
      .precede execution record
        (if setup.failFast && execution.failed then .finished setup.writer
          else runFrom setup (place.after execution record.bytes.length) rest) := by
  intro execution record
  have hf (size : Nat) : place.fits size = true := by simp [Place.fits, hr]
  rw [runFrom_of_statement hv hs]
  simp only [hf, Bool.not_true, Bool.false_eq_true, if_false]
  rfl

theorem Place.room_after (hr : place.room = none) (execution : Execution State) (size : Nat) :
    (place.after execution size).room = none := by
  simp [Place.after, hr]

theorem Place.shutdown_after (hs : place.shutdown = false) (execution : Execution State)
    (size : Nat) : (place.after execution size).shutdown = execution.shutdown := by
  simp [Place.after, hs]

end Step

/-- Lines are gone through one by one: a line cannot be read, or is blank, or comes after a request
to shut down, or holds a statement, behind which the run goes on if at all. -/
theorem lines_induction {motive : Place State → List (Option String) → Prop}
    (nil : ∀ place, motive place [])
    (unreadable : ∀ place rest, motive place (none :: rest))
    (void : ∀ place text rest, isVoid text = true →
      motive { place with line := place.line + 1 } rest → motive place (some text :: rest))
    (halted : ∀ place text rest, isVoid text = false → place.shutdown = true →
      motive place (some text :: rest))
    (statement : ∀ place text rest, isVoid text = false → place.shutdown = false →
      (∀ execution size, motive (place.after execution size) rest) →
        motive place (some text :: rest))
    (place : Place State) (lines : List (Option String)) : motive place lines := by
  induction lines generalizing place with
  | nil => exact nil place
  | cons line rest ih =>
    cases line with
    | none => exact unreadable place rest
    | some text =>
      cases hv : isVoid text with
      | true => exact void place text rest hv (ih _)
      | false =>
        cases hs : place.shutdown with
        | true => exact halted place text rest hv hs
        | false => exact statement place text rest hv hs fun _ _ => ih _

def Run.precedeAll (run : Run) : List ((String × Nat) × Execution State) → Run
  | [] => run
  | (statement, execution) :: rest =>
    .precede execution ⟨statement.2, execution.result⟩ (run.precedeAll rest)

section PrecedeAll

variable (run : Run) (pairs : List ((String × Nat) × Execution State))

theorem fault_precedeAll : (run.precedeAll pairs).fault = run.fault := by
  induction pairs with
  | nil => rfl
  | cons pair rest ih => simp [Run.precedeAll, Run.precede, ih]

theorem executed_precedeAll :
    (run.precedeAll pairs).executed = pairs.length + run.executed := by
  induction pairs with
  | nil => simp [Run.precedeAll]
  | cons pair rest ih =>
    simp only [Run.precedeAll, Run.precede, ih, List.length_cons]
    omega

end PrecedeAll

/-- The statements that a run executes, with their executions: up to and with the first after which
it stops. -/
def Setup.reached (setup : Setup State) (statements : List (String × Nat)) (session : Session)
    (engine : State) : List ((String × Nat) × Execution State) :=
  upTo (fun pair => setup.stopsAfter pair.2)
    (statements.zip (setup.executions statements session engine))

theorem reached_cons (setup : Setup State) (statement : String × Nat)
    (statements : List (String × Nat)) (session : Session) (engine : State) :
    let execution := setup.router.execute setup.engine .plain statement.1 session engine
    setup.reached (statement :: statements) session engine =
      (statement, execution) :: if setup.stopsAfter execution then []
        else setup.reached statements execution.session execution.engine := rfl

/-- A run on texts executes the statements that it reaches, none after a request to shut down, and
then ends. -/
theorem exists_runFrom_eq (setup : Setup State) (texts : List String) {place : Place State}
    (hr : place.room = none) :
    ∃ events, runFrom setup place (texts.map some) =
      Run.precedeAll { Run.finished setup.writer with events := events }
        (if place.shutdown then []
          else setup.reached (numbered (place.line + 1) texts) place.session place.engine) := by
  induction texts generalizing place with
  | nil =>
    refine ⟨[], ?_⟩
    cases place.shutdown <;> rfl
  | cons text rest ih =>
    rw [List.map_cons, numbered_cons]
    cases hv : isVoid text with
    | true =>
      rw [runFrom_of_isVoid hv]
      exact ih hr
    | false =>
      cases hs : place.shutdown with
      | true =>
        rw [runFrom_of_shutdown hv hs]
        exact ⟨_, rfl⟩
      | false =>
        rw [runFrom_of_statement_of_endless hv hs hr]
        simp only [Bool.false_eq_true, if_false, reached_cons]
        generalize setup.router.execute setup.engine .plain text place.session place.engine =
          execution
        cases hf : setup.failFast && execution.failed with
        | true =>
          refine ⟨[], ?_⟩
          simp [Setup.stopsAfter, hf, Run.precedeAll, Run.finished]
        | false =>
          let next := place.after execution
            (Record.bytes ⟨place.line + 1, execution.result⟩).length
          obtain ⟨events, he⟩ := @ih next (Place.room_after hr ..)
          refine ⟨events, ?_⟩
          rw [Place.shutdown_after hs] at he
          rw [if_neg (by simp), he]
          simp only [Setup.stopsAfter, hf, Bool.or_false]
          rfl

namespace Record

variable (record : Record)

theorem spells : Json.Spells record.json.render.toList record.json := by
  rw [Json.render, String.toList_ofList]
  exact Json.spells_chars _

end Record

section Reached

variable {setup : Setup State} {statements : List (String × Nat)} {session : Session}
  {engine : State} {k : Nat}

theorem length_executions :
    (setup.executions statements session engine).length = statements.length := by
  rw [Setup.executions, Router.length_executeAll, List.length_map]

theorem getElem?_of_reached {pair : (String × Nat) × Execution State}
    (h : (setup.reached statements session engine)[k]? = some pair) :
    statements[k]? = some pair.1 ∧
      (setup.executions statements session engine)[k]? = some pair.2 := by
  obtain ⟨rest, hr⟩ : setup.reached statements session engine <+:
      statements.zip (setup.executions statements session engine) := upTo_isPrefix
  rw [← List.getElem?_zip_eq_some, ← hr,
    List.getElem?_append_left (List.getElem?_eq_some_iff.1 h).1]
  exact h

theorem stopsAfter_of_lt_reached {execution : Execution State}
    (hk : k + 1 < (setup.reached statements session engine).length)
    (h : (setup.executions statements session engine)[k]? = some execution) :
    setup.stopsAfter execution = false := by
  obtain ⟨pair, hp⟩ : ∃ pair, (setup.reached statements session engine)[k]? = some pair :=
    ⟨_, List.getElem?_eq_getElem (Nat.lt_of_succ_lt hk)⟩
  obtain rfl := Option.some.inj ((getElem?_of_reached hp).2.symm.trans h)
  have hs := not_of_getElem?_upTo hk hp
  exact hs

theorem length_reached_of_stopsAfter {execution : Execution State}
    (hk : k < (setup.reached statements session engine).length)
    (h : (setup.executions statements session engine)[k]? = some execution)
    (hs : setup.stopsAfter execution = true) :
    (setup.reached statements session engine).length = k + 1 := by
  by_contra hn
  have hf := stopsAfter_of_lt_reached (by omega) h
  rw [hs] at hf
  cases hf

theorem reached_take {execution : Execution State}
    (h : (setup.executions statements session engine)[k]? = some execution)
    (hs : setup.stopsAfter execution = true) :
    setup.reached (statements.take (k + 1)) session engine =
      setup.reached statements session engine := by
  have hx : setup.executions (statements.take (k + 1)) session engine =
      (setup.executions statements session engine).take (k + 1) := by
    rw [Setup.executions, Setup.executions, List.map_take, Router.executeAll_take]
  obtain ⟨statement, hst⟩ : ∃ statement, statements[k]? = some statement := by
    have hl := (List.getElem?_eq_some_iff.1 h).1
    rw [length_executions] at hl
    exact ⟨_, List.getElem?_eq_getElem hl⟩
  have hz : (statements.zip (setup.executions statements session engine))[k]? =
      some (statement, execution) := List.getElem?_zip_eq_some.2 ⟨hst, h⟩
  rw [Setup.reached, hx, List.zip, ← List.take_zipWith]
  exact upTo_take hz hs

end Reached

end Shell

end SqlDispatch
