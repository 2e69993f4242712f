import SqlDispatch.Proofs.Fault

set_option autoImplicit false

/-!
Which of several faults is reported. Too few arguments come first; then the first token that does
not continue the clauses before it, whatever is wrong behind it; and a value is looked at only when
all the tokens are arguments and clauses. Of the values the first that is not of its kind is at
fault, in the order of the text.
-/

namespace SqlDispatch

open Text

def Fault.uncounted : Fault → Fault
  | .argumentCount command expected _ position => .argumentCount command expected 0 position
  | fault => fault

namespace Command

/-- The tokens are clauses, and the values in them are called for to be of these kinds. -/
inductive Holds (command : Command) : List Token → List (Token × ArgumentKind) → Prop where
  | nil : Holds command [] []
  | flag {token : Token} {option : OptionSpec} {rest : List Token}
      {values : List (Token × ArgumentKind)} :
      command.Names token option → option.value = none → Holds command rest values →
      Holds command (token :: rest) values
  | valued {token value : Token} {option : OptionSpec} {kind : ArgumentKind} {rest : List Token}
      {values : List (Token × ArgumentKind)} :
      command.Names token option → option.value = some kind → Holds command rest values →
      Holds command (token :: value :: rest) ((value, kind) :: values)

variable {command : Command} {used : List Capitals} {tokens : List Token} {finish : Nat}
  {fault : Fault}

theorem IsClauseOf.names {clause later rest : List Token} {token : Token} {option : OptionSpec}
    (h : command.IsClauseOf clause option) (he : token :: rest = clause ++ later) :
    command.Names token option := by
  cases h with
  | flag hn => exact (List.cons.inj he).1 ▸ hn
  | valued hn => exact (List.cons.inj he).1 ▸ hn

theorem breaksOff_iff : command.BreaksOff finish used tokens fault ↔
    command.FaultAt finish used tokens fault ∨
      ∃ clause option later, tokens = clause ++ later ∧ command.IsClauseOf clause option ∧
        option.name ∉ used ∧ command.BreaksOff finish (option.name :: used) later fault := by
  constructor
  · rintro ⟨front, options, rest, rfl, ⟨clauses, rfl, hc, hd, hu⟩, hf⟩
    cases hc with
    | nil => exact .inl hf
    | @cons clause option clauses options h hc =>
      rw [List.map_cons, List.nodup_cons] at hd
      rw [List.forall_mem_cons] at hu
      refine .inr ⟨clause, option, clauses.flatten ++ rest, by simp, h, hu.1, _, options, rest, rfl,
        ⟨clauses, rfl, hc, hd.2, fun other ho hm => ?_⟩, hf.congr fun name => ?_⟩
      · rcases List.mem_cons.1 hm with he | hm
        · exact hd.1 (he ▸ List.mem_map_of_mem ho)
        · exact hu.2 other ho hm
      · simp only [List.map_cons, List.cons_append, List.mem_cons, List.mem_append]
        tauto
  · rintro (hf | ⟨clause, option, later, rfl, hc, hu, hb⟩)
    · exact hf.breaksOff
    · exact hb.cons hc hu

theorem not_breaksOff_nil : ¬ command.BreaksOff finish used [] fault := by
  rw [breaksOff_iff]
  rintro (hf | ⟨clause, option, later, he, hc, _⟩)
  · cases hf
  · cases hc <;> simp at he

theorem breaksOff_of_unnamed {token : Token} {rest : List Token}
    (hn : ∀ option, ¬ command.Names token option) :
    command.BreaksOff finish used (token :: rest) fault ↔
      ∃ actual, command.arguments.length < actual ∧
        fault = .argumentCount command.name command.arguments.length actual token.position := by
  rw [breaksOff_iff]
  constructor
  · rintro (hf | ⟨clause, option, later, he, hc, _⟩)
    · cases hf with
      | surplus _ ha => exact ⟨_, ha, rfl⟩
      | repeated hn' => exact absurd hn' (hn _)
      | missing hn' => exact absurd hn' (hn _)
    · exact absurd (hc.names he) (hn option)
  · rintro ⟨actual, ha, rfl⟩
    exact .inl (.surplus hn ha)

section Named

variable {token : Token} {option : OptionSpec} {rest : List Token}
  (hn : command.Names token option)

include hn

theorem breaksOff_of_used (hu : option.name ∈ used) :
    command.BreaksOff finish used (token :: rest) fault ↔
      fault = .duplicateOption option.name.text token.position := by
  rw [breaksOff_iff]
  constructor
  · rintro (hf | ⟨clause, other, later, he, hc, ho, _⟩)
    · cases hf with
      | surplus hn' => exact absurd hn (hn' _)
      | repeated hn' => rw [hn.functional hn']
      | missing hn' hu' =>
        obtain rfl := hn.functional hn'
        exact absurd hu hu'
    · obtain rfl := hn.functional (hc.names he)
      exact absurd hu ho
  · rintro rfl
    exact .inl (.repeated hn hu)

theorem breaksOff_of_not_used (hu : option.name ∉ used) :
    command.BreaksOff finish used (token :: rest) fault ↔
      (∃ kind, option.value = some kind ∧ rest = [] ∧
          fault = Clause.missing option kind finish) ∨
        ∃ clause later, token :: rest = clause ++ later ∧ command.IsClauseOf clause option ∧
          command.BreaksOff finish (option.name :: used) later fault := by
  rw [breaksOff_iff]
  constructor
  · rintro (hf | ⟨clause, other, later, he, hc, _, hb⟩)
    · cases hf with
      | surplus hn' => exact absurd hn (hn' _)
      | repeated hn' hu' =>
        obtain rfl := hn.functional hn'
        exact absurd hu' hu
      | missing hn' _ hv =>
        obtain rfl := hn.functional hn'
        exact .inl ⟨_, hv, rfl, rfl⟩
    · obtain rfl := hn.functional (hc.names he)
      exact .inr ⟨clause, later, he, hc, hb⟩
  · rintro (⟨kind, hv, rfl, rfl⟩ | ⟨clause, later, he, hc, hb⟩)
    · exact .inl (.missing hn hu hv)
    · exact .inr ⟨clause, option, later, he, hc, hu, hb⟩

theorem breaksOff_flag (hu : option.name ∉ used) (hv : option.value = none) :
    command.BreaksOff finish used (token :: rest) fault ↔
      command.BreaksOff finish (option.name :: used) rest fault := by
  rw [breaksOff_of_not_used hn hu]
  constructor
  · rintro (⟨kind, hv', _⟩ | ⟨clause, later, he, hc, hb⟩)
    · simp [hv] at hv'
    · cases hc with
      | flag => exact (List.cons.inj he).2 ▸ hb
      | valued _ hv' => simp [hv] at hv'
  · intro hb
    exact .inr ⟨[token], rest, rfl, .flag hn hv, hb⟩

theorem breaksOff_missing {kind : ArgumentKind} (hu : option.name ∉ used)
    (hv : option.value = some kind) :
    command.BreaksOff finish used [token] fault ↔ fault = Clause.missing option kind finish := by
  rw [breaksOff_of_not_used hn hu]
  constructor
  · rintro (⟨kind', hv', _, rfl⟩ | ⟨clause, later, he, hc, _⟩)
    · rw [Option.some.inj (hv.symm.trans hv')]
    · cases hc with
      | flag _ hv' => simp [hv] at hv'
      | valued => simp at he
  · rintro rfl
    exact .inl ⟨kind, hv, rfl, rfl⟩

theorem breaksOff_valued {kind : ArgumentKind} {value : Token} (hu : option.name ∉ used)
    (hv : option.value = some kind) :
    command.BreaksOff finish used (token :: value :: rest) fault ↔
      command.BreaksOff finish (option.name :: used) rest fault := by
  rw [breaksOff_of_not_used hn hu]
  constructor
  · rintro (⟨_, _, he, _⟩ | ⟨clause, later, he, hc, hb⟩)
    · simp at he
    · cases hc with
      | flag _ hv' => simp [hv] at hv'
      | valued => exact (List.cons.inj (List.cons.inj he).2).2 ▸ hb
  · intro hb
    exact .inr ⟨[token, value], rest, rfl, .valued hn hv, hb⟩

end Named

end Command

namespace Clauses

variable {command : Command} {used : List Capitals} {tokens : List Token} {finish : Nat}
  {fault : Fault}

/-- A token that does not continue the clauses is reported, up to the number that is counted. -/
theorem exists_report_of_breaksOff (hp : tokens.Pairwise (·.position < ·.position))
    (hl : ∀ token ∈ tokens, token.position < finish)
    (h : command.BreaksOff finish used tokens fault) :
    ∃ reported, (read command finish used tokens).report command = some reported ∧
      reported.uncounted = fault.uncounted := by
  fun_induction read command finish used tokens with
  | case1 => exact absurd h Command.not_breaksOff_nil
  | case2 used token rest ho others ih =>
    have hn : ∀ option, ¬ command.Names token option := fun option hn => by
      simp [Command.optionNamed_eq_some_iff.2 hn] at ho
    obtain ⟨actual, _, rfl⟩ := (Command.breaksOff_of_unnamed hn).1 h
    exact ⟨_, report_of_surplus rfl fun fault hf => position_lt_of_fault_read hp hl hf, rfl⟩
  | case3 used token rest option ho hu =>
    obtain rfl := (Command.breaksOff_of_used (Command.optionNamed_eq_some_iff.1 ho) hu).1 h
    refine ⟨_, report_of_fault rfl rfl fun other hm => ?_, rfl⟩
    exact (List.pairwise_cons.1 hp).1 other (List.mem_of_mem_filter hm)
  | case4 used token rest option ho hu hv others ih =>
    rw [Command.breaksOff_flag (Command.optionNamed_eq_some_iff.1 ho) hu hv] at h
    exact ih (List.pairwise_cons.1 hp).2 (fun other hm => hl other (by simp [hm])) h
  | case5 used token option ho hu kind hv =>
    obtain rfl := (Command.breaksOff_missing (Command.optionNamed_eq_some_iff.1 ho) hu hv).1 h
    exact ⟨_, rfl, rfl⟩
  | case6 used token option ho hu kind hv value rest others ih =>
    rw [Command.breaksOff_valued (Command.optionNamed_eq_some_iff.1 ho) hu hv] at h
    have hp := (List.pairwise_cons.1 (List.pairwise_cons.1 hp).2).2
    exact ih hp (fun other hm => hl other (by simp [hm])) h

theorem holds_of_report_eq_none (h : (read command finish used tokens).report command = none) :
    command.Holds tokens ((read command finish used tokens).clauses.filterMap Clause.demand) := by
  rw [report_eq_none_iff] at h
  obtain ⟨hs, hf⟩ := h
  fun_induction read command finish used tokens with
  | case1 => exact .nil
  | case2 => cases hs
  | case3 => cases hf
  | case4 used token rest option ho hu hv others ih =>
    simpa [Clause.demand] using
      Command.Holds.flag (Command.optionNamed_eq_some_iff.1 ho) hv (ih hs hf)
  | case5 => cases hf
  | case6 used token option ho hu kind hv value rest others ih =>
    have hn := Command.optionNamed_eq_some_iff.1 ho
    have hholds : command.Holds (token :: value :: rest) _ := .valued hn hv (ih hs hf)
    simpa [Clause.demand, hv] using hholds

end Clauses

namespace Arguments

/-- Of all that is wrong with the arguments of a directive one fault is reported. If they are too
few, it is that; else if some token does not continue the clauses before it, the first such token is
at fault, or the end of the statement where a value is missing; else all the tokens are arguments
and clauses, and the first of their values that is not of its kind is at fault. -/
theorem read_error_precedence {table : CommandTable} {text : String} {statement : Statement}
    {command named : Command} {slice : List Token} {fault : Fault}
    (hr : Statement.read text = .ok statement)
    (hc : table.classify statement = .internal named slice)
    (h : read command slice = .error fault) :
    ∃ body stop, Ends text.utf8ByteSize slice body stop ∧
      (body.length < command.arguments.length →
        fault = .argumentCount command.name command.arguments.length body.length stop) ∧
      (command.arguments.length ≤ body.length →
        (∃ other, command.BreaksOff stop [] (body.drop command.arguments.length) other) →
        command.BreaksOff stop [] (body.drop command.arguments.length) fault ∧
          ∀ other, command.BreaksOff stop [] (body.drop command.arguments.length) other →
            fault.uncounted = other.uncounted) ∧
      (command.arguments.length ≤ body.length →
        (∀ other, ¬ command.BreaksOff stop [] (body.drop command.arguments.length) other) →
        ∃ values, command.Holds (body.drop command.arguments.length) values ∧
          IsFirstMisfit ((body.take command.arguments.length).zip command.arguments ++ values)
            fault) := by
  obtain ⟨tokens, rfl⟩ := exists_append_finish_of_classify hr hc
  have he := ends_dropTerminator tokens text.utf8ByteSize
  generalize (dropTerminator (tokens ++ [.finish text.utf8ByteSize])).1 = body,
    (dropTerminator (tokens ++ [.finish text.utf8ByteSize])).2 = stop at he
  have hd := he.dropTerminator_eq
  have hdirects : table.Directs text named body stop := ⟨statement, _, hr, hc, he⟩
  obtain ⟨_, hp, hs⟩ := hdirects.stands
  have hl : ∀ token ∈ body, token.position < stop := fun token hm => (hs token hm).1
  have hdp := hp.sublist (List.drop_sublist command.arguments.length body)
  have hdl : ∀ token ∈ body.drop command.arguments.length, token.position < stop :=
    fun token hm => hl token (List.mem_of_mem_drop hm)
  refine ⟨body, stop, he, fun hn => ?_, fun hn ⟨other, hb⟩ => ?_, fun hn hb => ?_⟩
  · rw [read_of_length_lt hd hn] at h
    exact (Except.error.inj h).symm
  · obtain ⟨reported, hrep, _⟩ := Clauses.exists_report_of_breaksOff hdp hdl hb
    rcases report_or_isFirstMisfit hd hn h with hf | ⟨hf, _⟩
    · refine ⟨Clauses.breaksOff_of_report hdp hdl hf, fun other hb => ?_⟩
      obtain ⟨same, hs, he⟩ := Clauses.exists_report_of_breaksOff hdp hdl hb
      rw [← he, Option.some.inj (hf.symm.trans hs)]
    · rw [hf] at hrep
      cases hrep
  · rcases report_or_isFirstMisfit hd hn h with hf | ⟨hf, hm⟩
    · exact absurd (Clauses.breaksOff_of_report hdp hdl hf) (hb fault)
    · exact ⟨_, Clauses.holds_of_report_eq_none hf, hm⟩

/-- A token too many stands before an option given twice and behind values that are not of their
kinds; the clauses break off at it. -/
theorem read_error_precedence_surplus :
    let directive := Streaming.directive .standard
    let text := "SET STREAMING maybe BATCH_SIZE x ORDERED 'é' ordered;"
    let fault := Fault.argumentCount "SET STREAMING" 1 2 41
    ∃ statement slice body stop, Statement.read text = .ok statement ∧
      (Streaming.builtin .standard).classify statement = .internal directive slice ∧
      Ends text.utf8ByteSize slice body stop ∧ read directive slice = .error fault ∧
      directive.BreaksOff stop [] (body.drop 1) fault := by
  intro directive text fault
  let statement : Statement := ⟨text,
    [⟨"SET", .keyword, 0⟩, ⟨"STREAMING", .keyword, 4⟩, ⟨"maybe", .identifier, 14⟩,
      ⟨"BATCH_SIZE", .keyword, 20⟩, ⟨"x", .identifier, 31⟩, ⟨"ORDERED", .keyword, 33⟩,
      ⟨"'é'", .stringLiteral, 41⟩, ⟨"ordered", .keyword, 46⟩, ⟨";", .punctuation, 53⟩, .finish 54]⟩
  have hr : Statement.read text = .ok statement := by decide +kernel
  have hc : (Streaming.builtin .standard).classify statement =
      .internal directive (statement.tokens.drop 2) := by decide +kernel
  have h : read directive (statement.tokens.drop 2) = .error fault := by decide +kernel
  obtain ⟨body, stop, he, hfew, hbroken, hvalue⟩ := read_error_precedence hr hc h
  refine ⟨statement, _, body, stop, hr, hc, he, h, ?_⟩
  have hn : directive.arguments.length ≤ body.length := by
    by_contra hn
    have hf := Fault.argumentCount.inj (hfew (Nat.not_le.1 hn))
    omega
  by_contra hb
  obtain ⟨_, _, _, _, _, _, _, _, _, _, hf⟩ :=
    hvalue hn fun other ho => hb (hbroken hn ⟨other, ho⟩).1
  simp [fault] at hf

end Arguments

end SqlDispatch
