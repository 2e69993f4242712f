import SqlDispatch.Proofs.Arguments.Fault

set_option autoImplicit false

/-!
How many arguments are counted where there are too many. Read from the left, every word of an option
opens a clause, and one that calls for a value takes the next token with it; what belongs to no
clause is surplus. The number reported is that of the arguments and the surplus tokens as long as no
option is given twice. From the first repeated option on a clause keeps its word alone, and its
value is counted as well.
-/

namespace SqlDispatch

open Text

namespace Command

/-- The tokens in order are clauses, of which several may have one option, and tokens that belong to
none. Only the last clause may lack the value that its option calls for. -/
inductive Divides (command : Command) : List Token → List Clause → List Token → Prop where
  | nil : Divides command [] [] []
  | surplus {token : Token} {rest surplus : List Token} {clauses : List Clause} :
      (∀ option, ¬ command.Names token option) → Divides command rest clauses surplus →
      Divides command (token :: rest) clauses (token :: surplus)
  | flag {token : Token} {option : OptionSpec} {rest surplus : List Token}
      {clauses : List Clause} :
      command.Names token option → option.value = none → Divides command rest clauses surplus →
      Divides command (token :: rest) (⟨option, none⟩ :: clauses) surplus
  | valued {token value : Token} {option : OptionSpec} {kind : ArgumentKind}
      {rest surplus : List Token} {clauses : List Clause} :
      command.Names token option → option.value = some kind →
      Divides command rest clauses surplus →
      Divides command (token :: value :: rest) (⟨option, some value⟩ :: clauses) surplus
  | missing {token : Token} {option : OptionSpec} {kind : ArgumentKind} :
      command.Names token option → option.value = some kind →
      Divides command [token] [⟨option, none⟩] []

/-- The clauses from the first on whose option is in `used` or was given before. -/
def fromRepeated (used : List Capitals) : List Clause → List Clause
  | [] => []
  | clause :: rest =>
    if clause.option.name ∈ used then clause :: rest
    else fromRepeated (clause.option.name :: used) rest

def plainValues (command : Command) (clauses : List Clause) : List Token :=
  (clauses.filterMap Clause.value).filter fun token => (command.optionNamed token).isNone

variable {command : Command} {tokens surplus : List Token} {clauses : List Clause}

theorem optionNamed_eq_none_iff {token : Token} :
    command.optionNamed token = none ↔ ∀ option, ¬ command.Names token option := by
  simp only [← optionNamed_eq_some_iff, Option.eq_none_iff_forall_ne_some, ne_eq]

theorem exists_divides (command : Command) :
    ∀ tokens, ∃ clauses surplus, command.Divides tokens clauses surplus
  | [] => ⟨[], [], .nil⟩
  | token :: rest => by
    cases ho : command.optionNamed token with
    | none =>
      obtain ⟨clauses, surplus, h⟩ := exists_divides command rest
      exact ⟨_, _, .surplus (optionNamed_eq_none_iff.1 ho) h⟩
    | some option =>
      have hn := optionNamed_eq_some_iff.1 ho
      cases hv : option.value with
      | none =>
        obtain ⟨clauses, surplus, h⟩ := exists_divides command rest
        exact ⟨_, _, .flag hn hv h⟩
      | some kind =>
        match rest with
        | [] => exact ⟨_, _, .missing hn hv⟩
        | value :: later =>
          obtain ⟨clauses, surplus, h⟩ := exists_divides command later
          exact ⟨_, _, .valued hn hv h⟩

theorem plainValues_eq_nil_iff : command.plainValues clauses = [] ↔
    ∀ clause ∈ clauses, ∀ value ∈ clause.value, ∃ option, command.Names value option := by
  simp only [plainValues, List.filter_eq_nil_iff, List.mem_filterMap, Option.isNone_iff_eq_none,
    optionNamed_eq_none_iff, not_forall, not_not, Option.mem_def, forall_exists_index, and_imp]
  exact ⟨fun h clause hc value hv => h value clause hc hv,
    fun h value clause hc hv => h clause hc value hv⟩

theorem Divides.length_filter (h : command.Divides tokens clauses surplus) :
    (tokens.filter fun token => (command.optionNamed token).isNone).length =
      surplus.length + (command.plainValues clauses).length := by
  induction h with
  | nil => rfl
  | surplus hn _ ih =>
    have ho := optionNamed_eq_none_iff.2 hn
    simp only [List.filter_cons, ho, Option.isNone_none, if_true, List.length_cons, ih]
    omega
  | flag hn _ _ ih =>
    have ho := optionNamed_eq_some_iff.2 hn
    simpa [ho, plainValues] using ih
  | @valued _ value _ _ _ _ _ hn _ _ ih =>
    have ho := optionNamed_eq_some_iff.2 hn
    simp only [plainValues] at ih ⊢
    cases hv : (command.optionNamed value).isNone
    · simpa [ho, hv] using ih
    · simp [ho, hv, ih]
      omega
  | missing hn _ =>
    have ho := optionNamed_eq_some_iff.2 hn
    simp [ho, plainValues]

theorem surplus_read_of_used {token : Token} {option : OptionSpec} {rest : List Token}
    {used : List Capitals} (hn : command.Names token option) (hu : option.name ∈ used)
    (finish : Nat) :
    (Clauses.read command finish used (token :: rest)).surplus =
      (token :: rest).filter fun token => (command.optionNamed token).isNone := by
  have ho := optionNamed_eq_some_iff.2 hn
  simp [Clauses.read, Clauses.stop, ho, hu]

/-- What is counted is the surplus and, from the first repeated option on, the values. -/
theorem Divides.length_surplus_read (h : command.Divides tokens clauses surplus) (finish : Nat)
    (used : List Capitals) :
    (Clauses.read command finish used tokens).surplus.length =
      surplus.length + (command.plainValues (fromRepeated used clauses)).length := by
  induction h generalizing used with
  | nil => simp [Clauses.read, fromRepeated, plainValues]
  | surplus hn _ ih =>
    simp only [Clauses.read, optionNamed_eq_none_iff.2 hn, List.length_cons, ih]
    omega
  | @flag _ option _ _ _ hn hv h ih =>
    by_cases hu : option.name ∈ used
    · rw [surplus_read_of_used hn hu, (Divides.flag hn hv h).length_filter, fromRepeated, if_pos hu]
    · simp [Clauses.read, optionNamed_eq_some_iff.2 hn, hu, hv, fromRepeated, ih]
  | @valued token value option _ rest _ _ hn hv h ih =>
    by_cases hu : option.name ∈ used
    · have hd : command.Divides (token :: value :: rest) _ _ := .valued hn hv h
      rw [surplus_read_of_used hn hu, hd.length_filter, fromRepeated, if_pos hu]
    · simp [Clauses.read, optionNamed_eq_some_iff.2 hn, hu, hv, fromRepeated, ih]
  | @missing _ option _ hn hv =>
    by_cases hu : option.name ∈ used
    · rw [surplus_read_of_used hn hu, (Divides.missing hn hv).length_filter, fromRepeated,
        if_pos hu]
    · simp [Clauses.read, Clauses.stop, optionNamed_eq_some_iff.2 hn, hu, hv, fromRepeated,
        plainValues]

end Command

namespace Clauses

variable {command : Command} {used : List Capitals} {tokens : List Token} {finish : Nat}

theorem fault_read_ne_argumentCount (name : String) (expected actual position : Nat) :
    (read command finish used tokens).fault ≠
      some (.argumentCount name expected actual position) := by
  fun_induction read command finish used tokens with
  | case1 => simp
  | case2 used token rest _ others ih => exact ih
  | case3 => simp [stop]
  | case4 used token rest option _ _ _ others ih => exact ih
  | case5 => simp [stop, Clause.missing]
  | case6 used token option _ _ kind _ value rest others ih => exact ih

theorem actual_of_report {name : String} {expected actual position : Nat}
    (h : (read command finish used tokens).report command =
      some (.argumentCount name expected actual position)) :
    actual = command.arguments.length + (read command finish used tokens).surplus.length := by
  have hf : (read command finish used tokens).fault ≠ some _ :=
    fault_read_ne_argumentCount name expected actual position
  generalize read command finish used tokens = clauses at h hf ⊢
  unfold report at h
  split at h
  · exact absurd h hf
  · rename_i first rest hs
    rw [hs] at h ⊢
    split at h
    · exact (Fault.argumentCount.inj (Option.some.inj h)).2.2.1.symm
    · split at h
      · exact (Fault.argumentCount.inj (Option.some.inj h)).2.2.1.symm
      · exact absurd h hf

end Clauses

namespace Arguments

variable {command : Command} {slice body : List Token} {length stop : Nat} {name : String}
  {expected actual position : Nat}

/-- Where the arguments are not too few, a wrong number of them is that of the arguments and the
tokens counted as surplus. Those are the tokens that belong to no clause and, from the first clause
of an option given before on, the values that are no words of options. -/
theorem actual_eq_add_surplus (he : Ends length slice body stop)
    (hn : command.arguments.length ≤ body.length)
    (h : read command slice = .error (.argumentCount name expected actual position)) :
    ∃ clauses surplus,
      command.Divides (body.drop command.arguments.length) clauses surplus ∧
      actual = command.arguments.length + surplus.length +
        (command.plainValues (Command.fromRepeated [] clauses)).length ∧
      (actual = command.arguments.length + surplus.length ↔
        ∀ clause ∈ Command.fromRepeated [] clauses, ∀ value ∈ clause.value,
          ∃ option, command.Names value option) := by
  obtain ⟨clauses, surplus, hd⟩ :=
    command.exists_divides (body.drop command.arguments.length)
  rcases report_or_isFirstMisfit he.dropTerminator_eq hn h with
    hr | ⟨_, _, _, _, _, _, _, _, _, hf⟩
  · have ha := Clauses.actual_of_report hr
    rw [hd.length_surplus_read] at ha
    refine ⟨clauses, surplus, hd, by omega, ?_⟩
    rw [← Command.plainValues_eq_nil_iff, ← List.length_eq_zero_iff]
    omega
  · cases hf

theorem actual_eq_add_surplus_repeated :
    let directive := Streaming.directive .standard
    let body : List Token := [⟨"ON", .keyword, 14⟩, ⟨"junk", .identifier, 17⟩,
      ⟨"BATCH_SIZE", .keyword, 22⟩, ⟨"1", .number, 33⟩, ⟨"batch_size", .keyword, 35⟩,
      ⟨"2", .number, 46⟩]
    let fault := Fault.argumentCount "SET STREAMING" 1 3 17
    Ends 47 (body ++ [.finish 47]) body 47 ∧ directive.arguments.length ≤ body.length ∧
      read directive (body ++ [.finish 47]) = .error fault ∧
      ∃ clauses surplus, directive.Divides (body.drop 1) clauses surplus ∧
        3 = 1 + surplus.length +
          (directive.plainValues (Command.fromRepeated [] clauses)).length := by
  intro directive body fault
  have he : Ends 47 (body ++ [.finish 47]) body 47 := .finish (by decide)
  have hn : directive.arguments.length ≤ body.length := by decide
  have h : read directive (body ++ [.finish 47]) = .error fault := by decide +kernel
  obtain ⟨clauses, surplus, hd, ha, _⟩ := actual_eq_add_surplus he hn h
  exact ⟨he, hn, h, clauses, surplus, hd, ha⟩

/-- One token belongs to no clause, yet three arguments are counted where one is expected. -/
theorem surplus_before_repeated :
    let directive := Streaming.directive .standard
    let text := "SET STREAMING ON junk BATCH_SIZE 1 BATCH_SIZE 2"
    ∃ statement slice body stop clauses, Statement.read text = .ok statement ∧
      (Streaming.builtin .standard).classify statement = .internal directive slice ∧
      Ends text.utf8ByteSize slice body stop ∧
      directive.Divides (body.drop directive.arguments.length) clauses
        [⟨"junk", .identifier, 17⟩] ∧
      read directive slice = .error (.argumentCount "SET STREAMING" 1 3 17) ∧
      3 ≠ directive.arguments.length + [(⟨"junk", .identifier, 17⟩ : Token)].length := by
  intro directive text
  let body : List Token := [⟨"ON", .keyword, 14⟩, ⟨"junk", .identifier, 17⟩,
    ⟨"BATCH_SIZE", .keyword, 22⟩, ⟨"1", .number, 33⟩, ⟨"BATCH_SIZE", .keyword, 35⟩,
    ⟨"2", .number, 46⟩]
  let option := OptionSpec.valued Streaming.Directive.batchSize Streaming.positive
  have hn : directive.Names ⟨"BATCH_SIZE", .keyword, 22⟩ option :=
    Command.optionNamed_eq_some_iff.1 (by decide +kernel)
  have hr : directive.Names ⟨"BATCH_SIZE", .keyword, 35⟩ option :=
    Command.optionNamed_eq_some_iff.1 (by decide +kernel)
  have hj : ∀ option, ¬ directive.Names ⟨"junk", .identifier, 17⟩ option :=
    Command.optionNamed_eq_none_iff.1 (by decide +kernel)
  refine ⟨⟨text, [⟨"SET", .keyword, 0⟩, ⟨"STREAMING", .keyword, 4⟩] ++ (body ++ [.finish 47])⟩,
    body ++ [.finish 47], body, 47, _, by decide +kernel, by decide +kernel,
    .finish (by decide), .surplus hj (.valued hn rfl (.valued hr rfl .nil)),
    by decide +kernel, by decide⟩

end Arguments

end SqlDispatch
