import SqlDispatch.Proofs.Arguments.Grammar

set_option autoImplicit false

/-!
What is wrong with the arguments of a directive. They are too few; or some token does not continue
the clauses before it, and of these tokens the first is at fault (`Clauses.breaksOff_of_report`); or
a token is not of the kind called for. Tokens are told apart by where they stand, so this holds of
tokens in the order of a text.
-/

namespace SqlDispatch

open Text

namespace Command

inductive IsClauseOf (command : Command) : List Token → OptionSpec → Prop where
  | flag {token : Token} {option : OptionSpec} :
      command.Names token option → option.value = none → IsClauseOf command [token] option
  | valued {token value : Token} {option : OptionSpec} {kind : ArgumentKind} :
      command.Names token option → option.value = some kind →
      IsClauseOf command [token, value] option

/-- The tokens are a clause of each of the options, which are different and none of those in
`used`. -/
def AreClausesOf (command : Command) (used : List Capitals) (tokens : List Token)
    (options : List OptionSpec) : Prop :=
  ∃ clauses, tokens = clauses.flatten ∧ List.Forall₂ command.IsClauseOf clauses options ∧
    (options.map OptionSpec.name).Nodup ∧ ∀ option ∈ options, option.name ∉ used

/-- The first of the tokens does not continue the clauses before it, in which the options in `used`
are given. -/
inductive FaultAt (command : Command) (finish : Nat) (used : List Capitals) :
    List Token → Fault → Prop where
  | surplus {token : Token} {rest : List Token} {actual : Nat} :
      (∀ option, ¬ command.Names token option) → command.arguments.length < actual →
      FaultAt command finish used (token :: rest)
        (.argumentCount command.name command.arguments.length actual token.position)
  | repeated {token : Token} {rest : List Token} {option : OptionSpec} :
      command.Names token option → option.name ∈ used →
      FaultAt command finish used (token :: rest)
        (.duplicateOption option.name.text token.position)
  | missing {token : Token} {option : OptionSpec} {kind : ArgumentKind} :
      command.Names token option → option.name ∉ used → option.value = some kind →
      FaultAt command finish used [token] (Clause.missing option kind finish)

variable {command : Command} {used : List Capitals} {tokens : List Token} {finish : Nat}
  {fault : Fault}

theorem areClausesOf_nil : command.AreClausesOf used [] [] :=
  ⟨[], rfl, .nil, .nil, by simp⟩

theorem AreClausesOf.cons {clause : List Token} {option : OptionSpec} {options : List OptionSpec}
    (hc : command.IsClauseOf clause option) (hu : option.name ∉ used)
    (h : command.AreClausesOf (option.name :: used) tokens options) :
    command.AreClausesOf used (clause ++ tokens) (option :: options) := by
  obtain ⟨clauses, rfl, hf, hd, hn⟩ := h
  refine ⟨clause :: clauses, rfl, .cons hc hf, List.nodup_cons.2 ⟨fun hm => ?_, hd⟩, ?_⟩
  · obtain ⟨other, ho, he⟩ := List.mem_map.1 hm
    exact hn other ho (by simp [he])
  · simp only [List.forall_mem_cons]
    exact ⟨hu, fun other ho hm => hn other ho (List.mem_cons_of_mem _ hm)⟩

theorem FaultAt.congr {others : List Capitals} (hu : ∀ name, name ∈ used ↔ name ∈ others)
    (h : command.FaultAt finish used tokens fault) :
    command.FaultAt finish others tokens fault := by
  cases h with
  | surplus hn ha => exact .surplus hn ha
  | repeated hn hm => exact .repeated hn ((hu _).1 hm)
  | missing hn hm hv => exact .missing hn (fun h => hm ((hu _).2 h)) hv

def BreaksOff (command : Command) (finish : Nat) (used : List Capitals) (tokens : List Token)
    (fault : Fault) : Prop :=
  ∃ front options rest, tokens = front ++ rest ∧ command.AreClausesOf used front options ∧
    command.FaultAt finish (options.map OptionSpec.name ++ used) rest fault

theorem FaultAt.breaksOff (h : command.FaultAt finish used tokens fault) :
    command.BreaksOff finish used tokens fault := ⟨[], [], tokens, rfl, areClausesOf_nil, h⟩

theorem BreaksOff.cons {clause : List Token} {option : OptionSpec}
    (hc : command.IsClauseOf clause option) (hu : option.name ∉ used)
    (h : command.BreaksOff finish (option.name :: used) tokens fault) :
    command.BreaksOff finish used (clause ++ tokens) fault := by
  obtain ⟨front, options, rest, rfl, ha, hf⟩ := h
  refine ⟨clause ++ front, option :: options, rest, by simp, ha.cons hc hu, hf.congr fun name => ?_⟩
  simp only [List.mem_append, List.map_cons, List.mem_cons]
  tauto

end Command

namespace Clauses

variable {command : Command} {used : List Capitals} {tokens : List Token} {finish : Nat}
  {fault : Fault}

theorem mem_positions_append (front rest : List Token) {position : Nat}
    (h : position ∈ finish :: rest.map Token.position) :
    position ∈ finish :: (front ++ rest).map Token.position := by
  rw [List.map_append]
  rcases List.mem_cons.1 h with rfl | h
  · exact List.mem_cons_self
  · exact List.mem_cons_of_mem _ (List.mem_append_right _ h)

theorem position_of_fault_read
    (h : (read command finish used tokens).fault = some fault) :
    ∃ position ∈ finish :: tokens.map Token.position, fault.position = some position := by
  fun_induction read command finish used tokens with
  | case1 => cases h
  | case2 used token rest _ others ih =>
    obtain ⟨position, hm, hp⟩ := ih h
    exact ⟨position, mem_positions_append [token] rest hm, hp⟩
  | case3 used token rest option _ _ =>
    cases h
    exact ⟨token.position, by simp, rfl⟩
  | case4 used token rest option _ _ _ others ih =>
    obtain ⟨position, hm, hp⟩ := ih h
    exact ⟨position, mem_positions_append [token] rest hm, hp⟩
  | case5 =>
    cases h
    exact ⟨finish, by simp, rfl⟩
  | case6 used token option _ _ kind _ value rest others ih =>
    obtain ⟨position, hm, hp⟩ := ih h
    exact ⟨position, mem_positions_append [token, value] rest hm, hp⟩

theorem position_lt_of_fault_read {token : Token} {rest : List Token}
    (hp : (token :: rest).Pairwise (·.position < ·.position))
    (hl : ∀ other ∈ token :: rest, other.position < finish)
    (h : (read command finish used rest).fault = some fault) :
    ∃ position, fault.position = some position ∧ token.position < position := by
  obtain ⟨position, hm, hpos⟩ := position_of_fault_read h
  refine ⟨position, hpos, ?_⟩
  rcases List.mem_cons.1 hm with rfl | hm
  · exact hl token (by simp)
  · obtain ⟨other, ho, rfl⟩ := List.mem_map.1 hm
    exact (List.pairwise_cons.1 hp).1 other ho

theorem mem_of_mem_read {clause : Clause} {value : Token}
    (h : clause ∈ (read command finish used tokens).clauses) (hv : clause.value = some value) :
    value ∈ tokens := by
  fun_induction read command finish used tokens with
  | case1 => cases h
  | case2 used token rest _ others ih => exact List.mem_cons_of_mem _ (ih h)
  | case3 => cases h
  | case4 used token rest option _ _ _ others ih =>
    rcases List.mem_cons.1 h with rfl | h
    · cases hv
    · exact List.mem_cons_of_mem _ (ih h)
  | case5 => cases h
  | case6 used token option _ _ kind _ first rest others ih =>
    rcases List.mem_cons.1 h with rfl | h
    · cases hv
      simp
    · exact List.mem_cons_of_mem _ (List.mem_cons_of_mem _ (ih h))

theorem report_of_surplus {clauses : Clauses} {first : Token} {rest : List Token}
    (hs : clauses.surplus = first :: rest)
    (hf : ∀ fault, clauses.fault = some fault →
      ∃ position, fault.position = some position ∧ first.position < position) :
    clauses.report command = some (.argumentCount command.name command.arguments.length
      (command.arguments.length + (rest.length + 1)) first.position) := by
  unfold report
  rw [hs]
  cases hc : clauses.fault with
  | none => rfl
  | some fault =>
    obtain ⟨position, hp, hl⟩ := hf fault hc
    simp [hp, hl]

theorem report_of_fault {clauses : Clauses} {position : Nat} (hf : clauses.fault = some fault)
    (hp : fault.position = some position)
    (hs : ∀ token ∈ clauses.surplus, position < token.position) :
    clauses.report command = some fault := by
  unfold report
  cases hc : clauses.surplus with
  | nil => simpa using hf
  | cons first rest =>
    have hl := hs first (by simp [hc])
    simp [hf, hp, Nat.not_lt.2 (Nat.le_of_lt hl)]

theorem breaksOff_of_report (hp : tokens.Pairwise (·.position < ·.position))
    (hl : ∀ token ∈ tokens, token.position < finish)
    (h : (read command finish used tokens).report command = some fault) :
    command.BreaksOff finish used tokens fault := by
  fun_induction read command finish used tokens with
  | case1 => cases h
  | case2 used token rest ho others ih =>
    have hn : ∀ option, ¬ command.Names token option := fun option hn => by
      simp [Command.optionNamed_eq_some_iff.2 hn] at ho
    rw [report_of_surplus rfl] at h
    · obtain rfl := Option.some.inj h
      exact (Command.FaultAt.surplus hn (by omega)).breaksOff
    · exact fun fault hf => position_lt_of_fault_read hp hl hf
  | case3 used token rest option ho hu =>
    obtain ⟨hr, _⟩ := List.pairwise_cons.1 hp
    rw [report_of_fault rfl rfl fun other hm => hr other (List.mem_of_mem_filter hm)] at h
    obtain rfl := Option.some.inj h
    exact (Command.FaultAt.repeated (Command.optionNamed_eq_some_iff.1 ho) hu).breaksOff
  | case4 used token rest option ho hu hv others ih =>
    have hb := ih (List.pairwise_cons.1 hp).2 (fun other hm => hl other (by simp [hm])) h
    exact hb.cons (.flag (Command.optionNamed_eq_some_iff.1 ho) hv) hu
  | case5 used token option ho hu kind hv =>
    obtain rfl := Option.some.inj h
    exact (Command.FaultAt.missing (Command.optionNamed_eq_some_iff.1 ho) hu hv).breaksOff
  | case6 used token option ho hu kind hv value rest others ih =>
    have hp := (List.pairwise_cons.1 (List.pairwise_cons.1 hp).2).2
    have hb := ih hp (fun other hm => hl other (by simp [hm])) h
    exact hb.cons (.valued (Command.optionNamed_eq_some_iff.1 ho) hv) hu

end Clauses

theorem mapM_eq_error_iff {α β : Type} {f : α → Except Fault β} {xs : List α} {fault : Fault} :
    xs.mapM f = .error fault ↔ ∃ before x after, xs = before ++ x :: after ∧
      (∀ y ∈ before, ∃ z, f y = .ok z) ∧ f x = .error fault := by
  induction xs with
  | nil => simp [pure, Except.pure]
  | cons x xs ih =>
    rw [List.mapM_cons]
    constructor
    · intro h
      cases hx : f x with
      | error other =>
        rw [hx] at h
        cases h
        exact ⟨[], x, xs, rfl, by simp, hx⟩
      | ok y =>
        cases hr : xs.mapM f with
        | error other =>
          rw [hx, hr] at h
          cases h
          obtain ⟨before, z, after, rfl, hb, hz⟩ := ih.1 hr
          refine ⟨x :: before, z, after, rfl, ?_, hz⟩
          rw [List.forall_mem_cons]
          exact ⟨⟨y, hx⟩, hb⟩
        | ok ys =>
          rw [hx, hr] at h
          cases h
    · rintro ⟨before, z, after, he, hb, hz⟩
      cases before with
      | nil =>
        obtain ⟨rfl, rfl⟩ := List.cons.inj he
        rw [hz]
        rfl
      | cons w before =>
        obtain ⟨rfl, rfl⟩ := List.cons.inj he
        rw [List.forall_mem_cons] at hb
        obtain ⟨y, hy⟩ := hb.1
        rw [hy, ih.2 ⟨before, z, after, rfl, hb.2, hz⟩]
        rfl

theorem exists_of_mapM_eq_ok {α β : Type} {f : α → Except Fault β} {xs : List α} {ys : List β}
    (h : xs.mapM f = .ok ys) : ∀ x ∈ xs, ∃ y, f x = .ok y :=
  exists_of_forall₂ (mapM_eq_ok_iff.1 h)

namespace Argument

variable {token : Token} {fault : Fault}

theorem fault_of_read {kind : ArgumentKind} (h : read token kind = .error fault) :
    ∃ message, fault = .argumentType token.position kind.describe token.lexeme message := by
  have hu (vocabulary : String) : ∃ message, unexpected token kind vocabulary =
      .argumentType token.position kind.describe token.lexeme message := ⟨_, rfl⟩
  cases kind with
  | boolean =>
    have h := error_of_map_eq_error h
    simp only [readBoolean] at h
    repeat' split at h
    all_goals cases h
    exact hu _
  | integer least greatest =>
    have h := error_of_map_eq_error h
    unfold readInteger at h
    repeat' split at h
    all_goals cases h
    · exact hu _
    · exact ⟨_, rfl⟩
    · exact ⟨_, rfl⟩
  | identifier =>
    have h := error_of_map_eq_error h
    unfold readIdentifier at h
    cases hc : token.content <;> cases hk : token.kind <;> simp only [hc, hk, Option.elim] at h <;>
      cases h
    all_goals exact hu _
  | stringLiteral =>
    have h := error_of_map_eq_error h
    unfold readString at h
    cases hc : token.content <;> cases hk : token.kind <;> simp only [hc, hk, Option.elim] at h <;>
      cases h
    all_goals exact hu _

end Argument

def Clause.demand (clause : Clause) : Option (Token × ArgumentKind) :=
  match clause.option.value, clause.value with
  | some kind, some token => some (token, kind)
  | _, _ => none

theorem Clause.value_of_demand {clause : Clause} {pair : Token × ArgumentKind}
    (h : clause.demand = some pair) : clause.value = some pair.1 := by
  unfold demand at h
  split at h
  · rename_i kind token _ hv
    obtain rfl := Option.some.inj h
    exact hv
  · cases h

theorem Clause.exists_of_read_eq_error {clause : Clause} {fault : Fault}
    (h : clause.read = .error fault) :
    ∃ pair, clause.demand = some pair ∧ Argument.read pair.1 pair.2 = .error fault := by
  unfold read at h
  split at h
  · rename_i kind token ho hv
    exact ⟨(token, kind), by simp [demand, ho, hv], Argument.error_of_map_eq_error h⟩
  · cases h

theorem Clause.exists_of_read_eq_ok {clause : Clause} {entry : Capitals × Option Argument}
    {pair : Token × ArgumentKind} (h : clause.read = .ok entry) (hd : clause.demand = some pair) :
    ∃ argument, Argument.read pair.1 pair.2 = .ok argument := by
  unfold demand at hd
  split at hd
  · rename_i kind token ho hv
    obtain rfl := Option.some.inj hd
    simp only [read, ho, hv] at h
    obtain ⟨argument, ha, _⟩ := Argument.exists_of_map_eq_ok h
    exact ⟨argument, ha⟩
  · cases hd

def IsFirstMisfit (values : List (Token × ArgumentKind)) (fault : Fault) : Prop :=
  ∃ before token kind after message, values = before ++ (token, kind) :: after ∧
    (∀ value ∈ before, ∃ argument, Argument.read value.1 value.2 = .ok argument) ∧
    Argument.read token kind = .error fault ∧
    fault = .argumentType token.position kind.describe token.lexeme message

namespace IsFirstMisfit

variable {values : List (Token × ArgumentKind)} {fault : Fault}

theorem split {before after : List (Token × ArgumentKind)} {pair : Token × ArgumentKind}
    (hb : ∀ value ∈ before, ∃ argument, Argument.read value.1 value.2 = .ok argument)
    (h : Argument.read pair.1 pair.2 = .error fault) :
    IsFirstMisfit (before ++ pair :: after) fault := by
  obtain ⟨message, he⟩ := Argument.fault_of_read h
  exact ⟨before, pair.1, pair.2, after, message, rfl, hb, h, he⟩

theorem append_left {front : List (Token × ArgumentKind)} (h : IsFirstMisfit values fault)
    (hf : ∀ value ∈ front, ∃ argument, Argument.read value.1 value.2 = .ok argument) :
    IsFirstMisfit (front ++ values) fault := by
  obtain ⟨before, token, kind, after, message, rfl, hb, hr, he⟩ := h
  refine ⟨front ++ before, token, kind, after, message, by simp, fun value hm => ?_, hr, he⟩
  rcases List.mem_append.1 hm with hm | hm
  · exact hf value hm
  · exact hb value hm

theorem append_right {rest : List (Token × ArgumentKind)} (h : IsFirstMisfit values fault) :
    IsFirstMisfit (values ++ rest) fault := by
  obtain ⟨before, token, kind, after, message, rfl, hb, hr, he⟩ := h
  exact ⟨before, token, kind, after ++ rest, message, by simp, hb, hr, he⟩

theorem of_mapM {clauses : List Clause} (h : clauses.mapM Clause.read = .error fault) :
    IsFirstMisfit (clauses.filterMap Clause.demand) fault := by
  obtain ⟨before, clause, after, rfl, hb, hr⟩ := mapM_eq_error_iff.1 h
  obtain ⟨pair, hd, hp⟩ := Clause.exists_of_read_eq_error hr
  rw [List.filterMap_append, List.filterMap_cons_some hd]
  refine split (fun value hm => ?_) hp
  obtain ⟨other, ho, hd⟩ := List.mem_filterMap.1 hm
  obtain ⟨entry, he⟩ := hb other ho
  exact Clause.exists_of_read_eq_ok he hd

end IsFirstMisfit

namespace Arguments

variable {command : Command} {slice body : List Token} {stop : Nat} {fault : Fault}

theorem read_of_length_lt (hd : dropTerminator slice = (body, stop))
    (hn : body.length < command.arguments.length) :
    read command slice = .error (.argumentCount command.name command.arguments.length body.length
      stop) := by
  unfold read
  simp only [hd, hn, if_true]

/-- Where the arguments are not too few, what is wrong with the clauses is reported, and if nothing
is, the first value at fault. -/
theorem report_or_isFirstMisfit (hd : dropTerminator slice = (body, stop))
    (hn : command.arguments.length ≤ body.length) (h : read command slice = .error fault) :
    let clauses := Clauses.read command stop [] (body.drop command.arguments.length)
    clauses.report command = some fault ∨ clauses.report command = none ∧
      IsFirstMisfit ((body.take command.arguments.length).zip command.arguments ++
        clauses.clauses.filterMap Clause.demand) fault := by
  intro clauses
  unfold read at h
  simp only [hd, Nat.not_lt.2 hn, if_false] at h
  cases hr : clauses.report command with
  | some other =>
    rw [hr] at h
    exact .inl (congrArg some (Except.error.inj h))
  | none =>
    rw [hr] at h
    refine .inr ⟨rfl, ?_⟩
    cases hv : ((body.take command.arguments.length).zip command.arguments).mapM
        fun pair => Argument.read pair.1 pair.2 with
    | error other =>
      rw [hv] at h
      obtain rfl := Except.error.inj h
      obtain ⟨before, pair, after, he, hb, hr⟩ := mapM_eq_error_iff.1 hv
      rw [he]
      exact (IsFirstMisfit.split hb hr).append_right
    | ok values =>
      cases ho : clauses.clauses.mapM Clause.read with
      | error other =>
        rw [hv, ho] at h
        obtain rfl := Except.error.inj h
        exact (IsFirstMisfit.of_mapM ho).append_left (exists_of_mapM_eq_ok hv)
      | ok options =>
        rw [hv, ho] at h
        cases h

/-- Arguments that cannot be read are too few, or their clauses break off, or a token is not of the
kind called for. -/
theorem fault_of_read (hd : dropTerminator slice = (body, stop))
    (hp : body.Pairwise (·.position < ·.position))
    (hl : ∀ token ∈ body, token.position < stop) (h : read command slice = .error fault) :
    body.length < command.arguments.length ∧
        fault = .argumentCount command.name command.arguments.length body.length stop ∨
      command.arguments.length ≤ body.length ∧
        command.BreaksOff stop [] (body.drop command.arguments.length) fault ∨
      ∃ token ∈ body, ∃ (kind : ArgumentKind) (message : String),
        fault = .argumentType token.position kind.describe token.lexeme message := by
  rcases Nat.lt_or_ge body.length command.arguments.length with hn | hn
  · rw [read_of_length_lt hd hn] at h
    exact .inl ⟨hn, (Except.error.inj h).symm⟩
  rcases report_or_isFirstMisfit hd hn h with
    hr | ⟨_, before, token, kind, after, message, he, _, _, hf⟩
  · refine .inr (.inl ⟨hn, Clauses.breaksOff_of_report ?_ ?_ hr⟩)
    · exact hp.sublist (List.drop_sublist ..)
    · exact fun token hm => hl token (List.mem_of_mem_drop hm)
  refine .inr (.inr ⟨token, ?_, kind, message, hf⟩)
  have hm : (token, kind) ∈ before ++ (token, kind) :: after := by simp
  rw [← he] at hm
  rcases List.mem_append.1 hm with hm | hm
  · exact List.mem_of_mem_take (List.of_mem_zip hm).1
  · obtain ⟨clause, hc, hv⟩ := List.mem_filterMap.1 hm
    exact List.mem_of_mem_drop (Clauses.mem_of_mem_read hc (Clause.value_of_demand hv))

end Arguments

end SqlDispatch
