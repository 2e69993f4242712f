import SqlDispatch.Proofs.Shell.Trace

set_option autoImplicit false

/-!
Runs that break off. Where the writer takes no more, the run breaks off at the first record that
does not fit, and what was accepted is the beginning of what an endless writer accepts; where a line
cannot be read, the run is that on the lines before it (`run_breaksOff`). In either case a run has
done what the statements up to there do, and nothing else.
-/

namespace SqlDispatch

open Text

variable {State : Type}

namespace Shell

def sizeOf (records : List Record) : Nat := (records.flatMap Record.bytes).length

theorem sizeOf_cons (record : Record) (records : List Record) :
    sizeOf (record :: records) = record.bytes.length + sizeOf records := by
  rw [sizeOf, List.flatMap_cons, List.length_append]
  rfl

/-- The second run is the first, whose records all fit into `room` bytes, or its part up to and with
the first record that does not fit any more, where it breaks off. -/
inductive Run.Limits (room : Nat) (full part : Run) : Prop where
  | within : sizeOf full.records ≤ room → part = full → Limits room full part
  | beyond {j : Nat} : room < sizeOf (full.records.take j) →
      (∀ i < j, sizeOf (full.records.take i) ≤ room) → part.records = full.records.take j →
      part.executed = j → part.fault = some .write → Limits room full part

theorem Run.Limits.precede {room : Nat} {full part : Run} (execution : Execution State)
    {record : Record} (hf : record.bytes.length ≤ room)
    (h : full.Limits (room - record.bytes.length) part) :
    (Run.precede execution record full).Limits room (Run.precede execution record part) := by
  cases h with
  | within hs he =>
    refine .within ?_ (by rw [he])
    rw [Run.precede, sizeOf_cons]
    omega
  | @beyond j hs hm hr he hz =>
    refine .beyond (j := j + 1) ?_ (fun i hi => ?_) ?_ (congrArg (· + 1) he) hz
    · rw [Run.precede, List.take_succ_cons, sizeOf_cons]
      omega
    · cases i with
      | zero => exact Nat.zero_le _
      | succ i =>
        have hi := hm i (by omega)
        rw [Run.precede, List.take_succ_cons, sizeOf_cons]
        omega
    · rw [Run.precede, Run.precede, hr, List.take_succ_cons]

def Place.limited (place : Place State) (room : Nat) : Place State :=
  { place with room := some room }

theorem limits_runFrom (router : Router) (engine : Engine State) (failFast flushes : Bool)
    (limit : Nat) (lines : List (Option String)) {place : Place State} (hr : place.room = none)
    (room : Nat) :
    (runFrom ⟨router, engine, failFast, ⟨none, flushes⟩⟩ place lines).Limits room
      (runFrom ⟨router, engine, failFast, ⟨some limit, flushes⟩⟩ (place.limited room) lines) := by
  induction place, lines using lines_induction generalizing room with
  | nil place => exact .within (Nat.zero_le _) rfl
  | unreadable place rest => exact .within (Nat.zero_le _) rfl
  | void place text rest hv ih =>
    rw [runFrom_of_isVoid hv, runFrom_of_isVoid hv]
    exact ih hr room
  | halted place text rest hv hs =>
    have hn : (place.limited room).shutdown = true := hs
    rw [runFrom_of_shutdown hv hs, runFrom_of_shutdown hv hn]
    exact .within (Nat.zero_le _) rfl
  | statement place text rest hv hs ih =>
    let narrow := place.limited room
    rw [runFrom_of_statement_of_endless hv hs hr, @runFrom_of_statement _ _ narrow _ _ hv hs]
    simp only [narrow, Place.limited, Place.fits]
    generalize router.execute engine .plain text place.session place.engine = execution
    let record : Record := ⟨place.line + 1, execution.result⟩
    by_cases hf : record.bytes.length ≤ room
    · simp only [record, hf, decide_true, Bool.not_true, Bool.false_eq_true, if_false]
      refine .precede execution hf ?_
      split
      · exact .within (Nat.zero_le _) rfl
      · exact ih _ _ (Place.room_after hr ..) _
    · simp only [record, hf, decide_false, Bool.not_false, if_true]
      refine .beyond (j := 1) ?_ (fun i hi => ?_) rfl rfl rfl
      · rw [Run.precede, List.take_succ_cons, sizeOf_cons]
        exact Nat.lt_add_right _ (Nat.lt_of_not_le hf)
      · obtain rfl := Nat.lt_one_iff.1 hi
        exact Nat.zero_le _

/-- A run on some lines comes to the line behind them: their statements, `count` in number, are
executed and recorded, and none of them ends the run. -/
structure Run.Passes (run : Run) (failFast : Bool) (count : Nat) : Prop where
  executed_eq : run.executed = count
  written : run.fault ≠ some .write
  unfailing : failFast = true → run.failed = 0

theorem passes_precede_iff {run : Run} {failFast : Bool} {count : Nat}
    (execution : Execution State) {record : Record} (h : (failFast && record.failed) = false) :
    (Run.precede execution record run).Passes failFast (count + 1) ↔ run.Passes failFast count := by
  have hf : (failFast = true → (Run.precede execution record run).failed = 0) ↔
      (failFast = true → run.failed = 0) := by
    refine imp_congr_right fun ht => ?_
    rw [ht, Bool.true_and] at h
    simp [Run.precede, h]
  constructor
  · intro hp
    exact ⟨Nat.succ.inj hp.executed_eq, hp.written, hf.1 hp.unfailing⟩
  · intro hp
    exact ⟨congrArg (· + 1) hp.executed_eq, hp.written, hf.2 hp.unfailing⟩

theorem not_passes_precede {run : Run} {failFast : Bool} {count : Nat}
    {execution : Execution State} {record : Record} (h : (failFast && record.failed) = true) :
    ¬ (Run.precede execution record run).Passes failFast count := by
  obtain ⟨ht, hf⟩ := Bool.and_eq_true_iff.1 h
  intro hp
  have hz := hp.unfailing ht
  simp [Run.precede, hf] at hz

theorem runFrom_append_none (setup : Setup State) (texts : List String)
    (rest : List (Option String)) (place : Place State) :
    let before := runFrom setup place (texts.map some)
    let run := runFrom setup place (texts.map some ++ none :: rest)
    let count := (numbered (place.line + 1) texts).length
    (before.Passes setup.failFast count → run = { before with fault := some .read }) ∧
      (¬ before.Passes setup.failFast count → run = before) := by
  induction texts generalizing place with
  | nil =>
    refine ⟨fun _ => rfl, fun h => absurd ⟨rfl, ?_, fun _ => rfl⟩ h⟩
    intro hw
    simp only [List.map_nil, runFrom, Run.finished] at hw
    split at hw <;> cases hw
  | cons text texts ih =>
    rw [List.map_cons, List.cons_append, numbered_cons]
    cases hv : isVoid text with
    | true =>
      rw [runFrom_of_isVoid hv, runFrom_of_isVoid hv]
      exact ih { place with line := place.line + 1 }
    | false =>
      cases hs : place.shutdown with
      | true =>
        rw [runFrom_of_shutdown hv hs, runFrom_of_shutdown hv hs]
        exact ⟨fun h => absurd h.executed_eq (Nat.zero_ne_add_one _), fun _ => rfl⟩
      | false =>
        rw [runFrom_of_statement hv hs, runFrom_of_statement hv hs]
        simp only [Bool.false_eq_true, if_false, List.length_cons]
        generalize setup.router.execute setup.engine .plain text place.session place.engine =
          execution
        let record : Record := ⟨place.line + 1, execution.result⟩
        cases place.fits record.bytes.length with
        | false => exact ⟨fun h => absurd rfl h.written, fun _ => rfl⟩
        | true =>
          simp only [Bool.not_true, Bool.false_eq_true, if_false]
          cases hx : setup.failFast && execution.failed with
          | true => exact ⟨fun h => absurd h (not_passes_precede hx), fun _ => rfl⟩
          | false =>
            simp only [Bool.false_eq_true, if_false]
            obtain ⟨hr, hn⟩ := ih (place.after execution record.bytes.length)
            rw [@passes_precede_iff _ _ _ _ execution record hx]
            refine ⟨fun h => ?_, fun h => ?_⟩
            · rw [hr h]
              rfl
            · rw [hn h]

theorem exists_texts_of_none {lines : List (Option String)} {k : Nat}
    (hk : lines[k]? = some none) (hb : ∀ i < k, lines[i]? ≠ some none) :
    ∃ (texts : List String) (rest : List (Option String)), texts.length = k ∧
      lines = texts.map some ++ none :: rest := by
  induction lines generalizing k with
  | nil => cases hk
  | cons line lines ih =>
    cases k with
    | zero =>
      obtain rfl := Option.some.inj hk
      exact ⟨[], lines, rfl, rfl⟩
    | succ k =>
      cases line with
      | none => exact absurd rfl (hb 0 (Nat.succ_pos k))
      | some text =>
        obtain ⟨texts, rest, rfl, rfl⟩ :=
          ih (by simpa using hk) fun i hi => by simpa using hb (i + 1) (Nat.succ_lt_succ hi)
        exact ⟨text :: texts, rest, rfl, rfl⟩

theorem take_flatMap_take {records : List Record} {j room : Nat}
    (h : room < sizeOf (records.take j)) :
    room < sizeOf records ∧ ((records.take j).flatMap Record.bytes).take room =
      (records.flatMap Record.bytes).take room := by
  have hs : records.flatMap Record.bytes = (records.take j).flatMap Record.bytes ++
      (records.drop j).flatMap Record.bytes := by
    rw [← List.flatMap_append, List.take_append_drop]
  refine ⟨?_, ?_⟩
  · rw [sizeOf, hs, List.length_append]
    exact Nat.lt_add_right _ h
  · rw [hs, List.take_append_of_le_length (Nat.le_of_lt h)]

/-- A run breaks off where the writer takes no more or a line cannot be read. If the writer takes
fewer bytes than there are, it gets the first of them, and the run ends with the first statement
whose record does not fit. Behind a line that cannot be read nothing is done: the run is that on the
lines before it, but for its end if it comes to that line. -/
theorem run_breaksOff (router : Router) (engine : Engine State) (failFast flushes : Bool)
    (state : State) (shutdown : Bool) (input : List UInt8) :
    let setup (writer : Writer) : Setup State := ⟨router, engine, failFast, writer⟩
    let run (writer : Writer) := Shell.run (setup writer) state shutdown input
    let executions := router.executeAll engine
      ((statementsIn input).map fun statement => (.plain, statement.1)) .empty state
    (∀ room : Nat,
      let wide : Writer := ⟨none, flushes⟩
      let narrow : Writer := ⟨some room, flushes⟩
      let full := run wide
      let part := run narrow
      (full.output wide).length ≤ room ∧ part = full ∧ part.output narrow = full.output wide ∨
        room < (full.output wide).length ∧
          part.fault.map RunFault.message = some "failed to write record" ∧
          part.output narrow = (full.output wide).take room ∧
          ∃ j, room < ((full.records.take j).flatMap Record.bytes).length ∧
            (∀ i < j, ((full.records.take i).flatMap Record.bytes).length ≤ room) ∧
            part.executed = j ∧ part.records = full.records.take j ∧
            part.calls = (executions.take j).filterMap Execution.call) ∧
      ∀ (writer : Writer) (k : Nat), (lines input)[k]? = some none →
        (∀ i < k, (lines input)[i]? ≠ some none) →
          let before := Shell.run (setup writer) state shutdown (leading k input)
          (before.Passes failFast (statementsIn input).length →
            (run writer).fault.map RunFault.message = some "failed to read statement" ∧
            run writer = { before with fault := some .read }) ∧
          (¬ before.Passes failFast (statementsIn input).length → run writer = before) := by
  intro setup run executions
  refine ⟨fun room => ?_, fun writer k hk hb => ?_⟩
  · intro wide narrow full part
    have ht : part.Traces (statementsIn input) executions :=
      traces_run (setup narrow) state shutdown input
    have h : full.Limits room part :=
      @limits_runFrom _ router engine failFast flushes room (lines input)
        (.start (setup wide) state shutdown) rfl room
    cases h with
    | within hs he =>
      refine .inl ⟨hs, he, ?_⟩
      rw [he]
      exact List.take_of_length_le hs
    | @beyond j hs hm hr he hz =>
      obtain ⟨hl, ho⟩ := take_flatMap_take hs
      refine .inr ⟨hl, ?_, ?_, j, hs, hm, he, hr, ?_⟩
      · rw [hz]
        rfl
      · have hp : part.output narrow = (part.records.flatMap Record.bytes).take room := rfl
        rw [hp, hr, ho]
        rfl
      · rw [ht.calls_eq, he]
  · intro before
    obtain ⟨texts, rest, rfl, hl⟩ := exists_texts_of_none hk hb
    have hbefore : before = runFrom (setup writer) (.start (setup writer) state shutdown)
        (texts.map some) := by
      have ht : (lines input).take texts.length = texts.map some := by
        rw [hl, List.take_left' (List.length_map _)]
      simp only [before, Shell.run, lines_leading, ht]
    have hrun : run writer = runFrom (setup writer) (.start (setup writer) state shutdown)
        (texts.map some ++ none :: rest) := by
      rw [← hl]
      rfl
    have hc : statementsIn input = numbered 1 texts := by
      rw [statementsIn, hl, legible_append_none]
    obtain ⟨hr, hn⟩ := runFrom_append_none (setup writer) texts rest
      (.start (setup writer) state shutdown)
    rw [← hbefore, ← hrun] at hr hn
    rw [hc]
    refine ⟨fun hp => ?_, hn⟩
    have he := hr hp
    refine ⟨?_, he⟩
    rw [he]
    rfl

/-- The bytes of the second line are no text, and the third is not executed. -/
theorem run_breaksOff_second_line :
    let setup : Setup (List Engine.Reply) :=
      ⟨.ofTable (Streaming.builtin .standard), Engine.scripted (.ok []), false, .endless⟩
    let input := encode "SELECT 1\n" ++ [0xFF, lineFeed] ++ encode "SELECT 2\n"
    let run := Shell.run setup [] false input
    let before := Shell.run setup [] false (encode "SELECT 1\n")
    lines input = [some "SELECT 1", none, some "SELECT 2"] ∧ before.Passes false 1 ∧
      run.fault.map RunFault.message = some "failed to read statement" ∧
      run.output .endless = before.output .endless ∧ run.calls = before.calls ∧
      run.executed = 1 := by
  intro setup input run before
  have hi : lines input = [some "SELECT 1", none, some "SELECT 2"] := by decide +kernel
  have hl : leading 1 input = encode "SELECT 1\n" := by decide +kernel
  have hs : (statementsIn input).length = 1 := by decide +kernel
  have hp : before.Passes false 1 :=
    ⟨by decide +kernel, by decide +kernel, fun h => absurd h (by decide)⟩
  have hb : ∀ i < 1, (lines input)[i]? ≠ some none := by
    rw [hi]
    decide
  obtain ⟨_, hr⟩ := run_breaksOff setup.router setup.engine false true [] false input
  obtain ⟨hy, _⟩ := hr .endless 1 (by rw [hi]; rfl) hb
  rw [hl, hs] at hy
  obtain ⟨hm, he⟩ := hy hp
  have he : run = { before with fault := some .read } := he
  refine ⟨hi, hp, hm, ?_, ?_, ?_⟩
  · rw [he]
    rfl
  · rw [he]
  · rw [he]
    exact hp.executed_eq

end Shell

end SqlDispatch
