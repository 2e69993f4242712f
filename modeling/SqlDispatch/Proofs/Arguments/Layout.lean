import SqlDispatch.Arguments
import SqlDispatch.Proofs.Token.Layout

set_option autoImplicit false

/-!
Arguments and layout. Tokens that resemble one another, in other places but in the same order, are
read as the same arguments or fail with the same fault, which may be in another place
(`read_eqUnplaced`). The order matters, since of two faults the one that comes first is reported.
-/

namespace SqlDispatch

open Text

def Fault.unplaced : Fault → Fault
  | .lexical message _ => .lexical message 0
  | .unknownToken lexeme _ => .unknownToken lexeme 0
  | .argumentCount command expected actual _ => .argumentCount command expected actual 0
  | .argumentType _ expected lexeme message => .argumentType 0 expected lexeme message
  | .duplicateOption option _ => .duplicateOption option 0
  | .handler command causes => .handler command causes
  | .engine error => .engine error

/-- The same result, or the same fault in maybe another place. -/
def EqUnplaced {α : Type} (x y : Except Fault α) : Prop :=
  x.mapError Fault.unplaced = y.mapError Fault.unplaced

namespace EqUnplaced

variable {α β : Type}

theorem error {a b : Fault} (h : a.unplaced = b.unplaced) :
    EqUnplaced (.error a : Except Fault α) (.error b) := congrArg Except.error h

theorem eq_ok {a : α} {y : Except Fault α} (h : EqUnplaced (.ok a) y) : y = .ok a := by
  cases y with
  | error => cases h
  | ok b => exact congrArg Except.ok (Except.ok.inj h).symm

theorem exists_error {fault : Fault} {y : Except Fault α} (h : EqUnplaced (.error fault) y) :
    ∃ other, y = .error other ∧ fault.unplaced = other.unplaced := by
  cases y with
  | error other => exact ⟨other, rfl, Except.error.inj h⟩
  | ok => cases h

theorem map {x y : Except Fault α} (h : EqUnplaced x y) (f : α → β) :
    EqUnplaced (x.map f) (y.map f) := by
  cases x <;> cases y <;> simp_all [EqUnplaced, Except.mapError, Except.map]

theorem bind {x y : Except Fault α} {f g : α → Except Fault β} (h : EqUnplaced x y)
    (hf : ∀ a, EqUnplaced (f a) (g a)) : EqUnplaced (x >>= f) (y >>= g) := by
  cases x <;> cases y <;> simp_all [EqUnplaced, Except.mapError, Bind.bind, Except.bind]

theorem mapM {γ δ : Type} {f : γ → Except Fault α} {g : δ → Except Fault α} {xs : List γ}
    {ys : List δ} (h : List.Forall₂ (fun a b => EqUnplaced (f a) (g b)) xs ys) :
    EqUnplaced (xs.mapM f) (ys.mapM g) := by
  induction h with
  | nil => rfl
  | cons hab _ ih =>
    rw [List.mapM_cons, List.mapM_cons]
    exact hab.bind fun _ => ih.bind fun _ => rfl

end EqUnplaced

namespace Token.Resembles

variable {token other : Token}

theorem isWord_eq (h : token.Resembles other) : other.isWord = token.isWord := by
  rcases h.2 with hk | ⟨hp, hk⟩
  · rw [isWord, isWord, hk]
  · rw [isWord, isWord, hk, (isLonePoint_iff.1 hp).1]
    rfl

theorem spells_eq (h : token.Resembles other) (word : String) :
    token.spells word = other.spells word := by
  rw [spells, spells, h.isWord_eq, h.1]

theorem isFinish_eq (h : token.Resembles other) : other.isFinish = token.isFinish := by
  rcases h.2 with hk | ⟨hp, hk⟩
  · rw [isFinish, isFinish, hk]
  · rw [isFinish, isFinish, hk, (isLonePoint_iff.1 hp).1]
    rfl

theorem isSymbol_eq (h : token.Resembles other) {symbol : String} (hs : symbol ≠ ".") :
    other.isSymbol symbol = token.isSymbol symbol := by
  rcases h.2 with hk | ⟨hp, hk⟩
  · rw [isSymbol, isSymbol, hk, h.1]
  · have he : ("." == symbol) = false := by simpa using hs.symm
    simp [isSymbol, h.1, (isLonePoint_iff.1 hp).2, he]

end Token.Resembles

namespace Argument

variable {token other : Token}

theorem unplaced_unexpected (h : token.Resembles other) (kind : ArgumentKind)
    (vocabulary : String) : (unexpected token kind vocabulary).unplaced =
      (unexpected other kind vocabulary).unplaced := by
  simp only [unexpected, Fault.unplaced, h.1, h.isFinish_eq]

theorem unplaced_outOfRange (h : token.Resembles other) (least greatest : Int) :
    (outOfRange token least greatest).unplaced = (outOfRange other least greatest).unplaced := by
  simp only [outOfRange, Fault.unplaced, h.1]

theorem readBoolean_eqUnplaced (h : token.Resembles other) :
    EqUnplaced (readBoolean token) (readBoolean other) := by
  have hu := unplaced_unexpected h .boolean "ON, OFF, 1 or 0"
  simp only [readBoolean, h.1]
  split
  · rfl
  split
  · rfl
  · exact .error hu

theorem readInteger_eqUnplaced (h : token.Resembles other) (least greatest : Int) :
    EqUnplaced (readInteger token least greatest) (readInteger other least greatest) := by
  have hu := unplaced_unexpected h (.integer least greatest) "integer"
  have ho := unplaced_outOfRange h least greatest
  have hc : token.kind ≠ .number ∨ isFractional token.lexeme = true ↔
      other.kind ≠ .number ∨ isFractional other.lexeme = true := by
    rcases h.2 with hk | ⟨hp, hk⟩
    · rw [h.1, hk]
    · have hf : isFractional "." = true := by decide
      simp [h.1, (Token.isLonePoint_iff.1 hp).2, hf]
  simp only [readInteger, hc, h.1]
  split
  · exact .error hu
  split
  · split
    · rfl
    · exact .error ho
  · exact .error ho

theorem readIdentifier_eqUnplaced (h : token.Resembles other) :
    EqUnplaced (readIdentifier token) (readIdentifier other) := by
  have hu := unplaced_unexpected h .identifier "identifier"
  rcases h.2 with hk | ⟨hp, hk⟩
  · have hc : other.content = token.content := by rw [Token.content, Token.content, hk, h.1]
    simp only [readIdentifier, hk, hc, h.1]
    cases token.kind <;> cases token.content <;> first | rfl | exact .error hu
  · simp only [readIdentifier, hk, (Token.isLonePoint_iff.1 hp).1]
    exact .error hu

theorem readString_eqUnplaced (h : token.Resembles other) :
    EqUnplaced (readString token) (readString other) := by
  have hu := unplaced_unexpected h .stringLiteral "string literal"
  rcases h.2 with hk | ⟨hp, hk⟩
  · have hc : other.content = token.content := by rw [Token.content, Token.content, hk, h.1]
    simp only [readString, hk, hc]
    cases token.kind <;> cases token.content <;> first | rfl | exact .error hu
  · simp only [readString, hk, (Token.isLonePoint_iff.1 hp).1]
    exact .error hu

theorem read_eqUnplaced (h : token.Resembles other) (kind : ArgumentKind) :
    EqUnplaced (read token kind) (read other kind) := by
  cases kind with
  | boolean => exact (readBoolean_eqUnplaced h).map _
  | integer least greatest => exact (readInteger_eqUnplaced h least greatest).map _
  | identifier => exact (readIdentifier_eqUnplaced h).map _
  | stringLiteral => exact (readString_eqUnplaced h).map _

end Argument

def SameOrder (S : Nat → Nat → Prop) : Prop :=
  ∀ a b a' b', S a a' → S b b' → (a < b ↔ a' < b')

variable {S : Nat → Nat → Prop} {command : Command}

def Token.Corresponds (S : Nat → Nat → Prop) (token other : Token) : Prop :=
  token.Resembles other ∧ S token.position other.position

/-- Faults that differ at most in their places, and these go together. -/
def Fault.Corresponds (S : Nat → Nat → Prop) (fault other : Fault) : Prop :=
  fault.unplaced = other.unplaced ∧ Option.Rel S fault.position other.position

def Clause.Resembles (clause other : Clause) : Prop :=
  other.option = clause.option ∧ Option.Rel Token.Resembles clause.value other.value

theorem Clause.read_eqUnplaced {clause other : Clause} (h : clause.Resembles other) :
    EqUnplaced clause.read other.read := by
  obtain ⟨ho, hv⟩ := h
  unfold read
  rw [ho]
  generalize clause.value = given at hv
  generalize other.value = taken at hv
  cases clause.option.value with
  | none => rfl
  | some kind =>
    cases hv with
    | none => rfl
    | some hv => exact (Argument.read_eqUnplaced hv kind).map _

namespace Clauses

structure Corresponds (S : Nat → Nat → Prop) (read other : Clauses) : Prop where
  clauses : List.Forall₂ Clause.Resembles read.clauses other.clauses
  surplus : List.Forall₂ (Token.Corresponds S) read.surplus other.surplus
  fault : Option.Rel (Fault.Corresponds S) read.fault other.fault

theorem optionNamed_eq {token other : Token} (h : token.Resembles other) (command : Command) :
    command.optionNamed token = command.optionNamed other := by
  simp only [Command.optionNamed, h.spells_eq]

theorem corresponds_stop {fault fault' : Fault} (hf : fault.Corresponds S fault')
    {tokens others : List Token} (h : List.Forall₂ (Token.Corresponds S) tokens others) :
    (stop command fault tokens).Corresponds S (stop command fault' others) := by
  refine ⟨.nil, ?_, .some hf⟩
  refine List.rel_filter (fun token other ht => ?_) h
  simp only [optionNamed_eq ht.1]

theorem corresponds_read (command : Command) {finish finish' : Nat} (hs : S finish finish')
    (used : List Capitals) {tokens others : List Token}
    (h : List.Forall₂ (Token.Corresponds S) tokens others) :
    (read command finish used tokens).Corresponds S (read command finish' used others) := by
  fun_induction read command finish used tokens generalizing others with
  | case1 used =>
    cases h
    exact ⟨.nil, .nil, .none⟩
  | case2 used token rest hn =>
    rename_i ih
    cases h with
    | @cons _ other _ others ht hr =>
    have hr := ih hr
    rw [optionNamed_eq ht.1] at hn
    simp only [read, hn]
    exact ⟨hr.clauses, .cons ht hr.surplus, hr.fault⟩
  | case3 used token rest option hn hu =>
    cases h with
    | @cons _ other _ others ht hr =>
    rw [optionNamed_eq ht.1] at hn
    simp only [read, hn, hu, if_true]
    have hf : Fault.Corresponds S (.duplicateOption option.name.text token.position)
        (.duplicateOption option.name.text other.position) := ⟨rfl, .some ht.2⟩
    exact corresponds_stop hf hr
  | case4 used token rest option hn hu hv =>
    rename_i ih
    cases h with
    | @cons _ other _ others ht hr =>
    have hr := ih hr
    rw [optionNamed_eq ht.1] at hn
    simp only [read, hn, hu, hv, if_false]
    exact ⟨.cons ⟨rfl, .none⟩ hr.clauses, hr.surplus, hr.fault⟩
  | case5 used token option hn hu kind hv =>
    cases h with
    | @cons _ other _ others ht hr =>
    cases hr
    rw [optionNamed_eq ht.1] at hn
    simp only [read, hn, hu, hv, if_false]
    have hf : (Clause.missing option kind finish).Corresponds S
        (Clause.missing option kind finish') := ⟨rfl, .some hs⟩
    exact corresponds_stop hf .nil
  | case6 used token option hn hu kind hv value rest =>
    rename_i ih
    cases h with
    | @cons _ other _ others ht hr =>
    cases hr with
    | @cons _ value' _ others hval hr =>
    have hr := ih hr
    rw [optionNamed_eq ht.1] at hn
    simp only [read, hn, hu, hv, if_false]
    exact ⟨.cons ⟨rfl, .some hval.1⟩ hr.clauses, hr.surplus, hr.fault⟩

theorem report_unplaced (command : Command) (hS : SameOrder S) {read other : Clauses}
    (h : read.Corresponds S other) :
    (read.report command).map Fault.unplaced = (other.report command).map Fault.unplaced := by
  obtain ⟨_, hs, hf⟩ := h
  unfold report
  generalize read.surplus = surplus at hs
  generalize other.surplus = surplus' at hs
  generalize read.fault = fault at hf
  generalize other.fault = fault' at hf
  cases hs with
  | nil =>
    cases hf with
    | none => rfl
    | some hf => exact congrArg some hf.1
  | @cons first first' rest rest' ht hr =>
    have hm : (Fault.argumentCount command.name command.arguments.length
        (command.arguments.length + (first :: rest).length) first.position).unplaced =
        (Fault.argumentCount command.name command.arguments.length
        (command.arguments.length + (first' :: rest').length) first'.position).unplaced := by
      simp only [Fault.unplaced, List.length_cons, hr.length_eq]
    cases hf with
    | none => exact congrArg some hm
    | @some fault fault' hf =>
      obtain ⟨hu, hp⟩ := hf
      -- of the two faults the one that comes first is told: only the order of the places counts
      simp only [Option.bind_some]
      generalize fault.position = position at hp
      generalize fault'.position = position' at hp
      cases hp with
      | none => exact congrArg some hm
      | some hp =>
        simp only [hS _ _ _ _ ht.2 hp]
        split
        · exact congrArg some hm
        · exact congrArg some hu

end Clauses

variable {tokens others : List Token}

theorem rel_getLast? {α β : Type} {R : α → β → Prop} {xs : List α} {ys : List β}
    (h : List.Forall₂ R xs ys) : Option.Rel R xs.getLast? ys.getLast? := by
  rw [List.getLast?_eq_head?_reverse, List.getLast?_eq_head?_reverse]
  have hr := List.rel_reverse h
  generalize xs.reverse = as at hr
  generalize ys.reverse = bs at hr
  cases hr with
  | nil => exact .none
  | cons hab => exact .some hab

theorem forall₂_dropLast {α β : Type} {R : α → β → Prop} {xs : List α} {ys : List β}
    (h : List.Forall₂ R xs ys) : List.Forall₂ R xs.dropLast ys.dropLast := by
  rw [List.dropLast_eq_take, List.dropLast_eq_take, h.length_eq]
  exact List.forall₂_take _ h

theorem corresponds_dropFinish (h : List.Forall₂ (Token.Corresponds S) tokens others)
    (hne : tokens ≠ []) :
    List.Forall₂ (Token.Corresponds S) (dropFinish tokens).1 (dropFinish others).1 ∧
      S (dropFinish tokens).2 (dropFinish others).2 := by
  have hl := rel_getLast? h
  have hd := forall₂_dropLast h
  have hne : tokens.getLast? ≠ none := by simpa using hne
  unfold dropFinish
  generalize tokens.getLast? = last at hl hne
  generalize others.getLast? = last' at hl
  cases hl with
  | none => exact absurd rfl hne
  | @some last last' hl =>
    simp only [hl.1.isFinish_eq]
    refine ⟨?_, hl.2⟩
    split
    · exact hd
    · exact h

theorem corresponds_dropTerminator (h : List.Forall₂ (Token.Corresponds S) tokens others)
    (hne : tokens ≠ []) :
    List.Forall₂ (Token.Corresponds S) (dropTerminator tokens).1 (dropTerminator others).1 ∧
      S (dropTerminator tokens).2 (dropTerminator others).2 := by
  obtain ⟨hb, hp⟩ := corresponds_dropFinish h hne
  have hl := rel_getLast? hb
  have hd := forall₂_dropLast hb
  simp only [dropTerminator]
  generalize (dropFinish tokens).1.getLast? = last at hl
  generalize (dropFinish others).1.getLast? = last' at hl
  cases hl with
  | none => exact ⟨hb, hp⟩
  | @some last last' hl =>
    simp only [hl.1.isSymbol_eq (show ";" ≠ "." by decide)]
    split
    · exact ⟨hd, hl.2⟩
    · exact ⟨hb, hp⟩

namespace Arguments

/-- Corresponding tokens in the same order are the same arguments, or have the same fault. -/
theorem read_eqUnplaced (hS : SameOrder S) (command : Command)
    (h : List.Forall₂ (Token.Corresponds S) tokens others) (hne : tokens ≠ []) :
    EqUnplaced (read command tokens) (read command others) := by
  obtain ⟨hb, hp⟩ := corresponds_dropTerminator h hne
  unfold read
  generalize dropTerminator tokens = given at hb hp
  generalize dropTerminator others = given' at hb hp
  simp only [hb.length_eq]
  split
  · exact .error (by simp only [Fault.unplaced])
  have hc := Clauses.corresponds_read command hp []
    (List.forall₂_drop command.arguments.length hb)
  have hr := Clauses.report_unplaced command hS hc
  generalize (Clauses.read command given.2 [] (given.1.drop command.arguments.length)) = clauses
    at hc hr
  generalize (Clauses.read command given'.2 [] (given'.1.drop command.arguments.length)) = clauses'
    at hc hr
  cases hx : clauses.report command with
  | some fault =>
    rw [hx] at hr
    obtain ⟨fault', hy, hu⟩ := Option.map_eq_some_iff.1 hr.symm
    rw [hy]
    exact .error hu.symm
  | none =>
    rw [hx] at hr
    rw [Option.map_eq_none_iff.1 hr.symm]
    refine EqUnplaced.bind (.mapM ?_) fun positional => EqUnplaced.bind (.mapM ?_) fun _ => rfl
    · have ht := List.forall₂_take command.arguments.length hb
      generalize given.1.take command.arguments.length = values at ht
      generalize given'.1.take command.arguments.length = values' at ht
      generalize command.arguments = kinds
      induction ht generalizing kinds with
      | nil => exact .nil
      | cons ht _ ih =>
        cases kinds with
        | nil => exact .nil
        | cons kind kinds => exact .cons (Argument.read_eqUnplaced ht.1 kind) (ih kinds)
    · exact hc.clauses.imp fun _ _ h => Clause.read_eqUnplaced h

end Arguments

theorem position_lt_iff (h : tokens.Pairwise fun a b => a.position < b.position) {i j : Nat}
    {a b : Token} (ha : tokens[i]? = some a) (hb : tokens[j]? = some b) :
    a.position < b.position ↔ i < j := by
  obtain ⟨hi, rfl⟩ := List.getElem?_eq_some_iff.1 ha
  obtain ⟨hj, rfl⟩ := List.getElem?_eq_some_iff.1 hb
  have hp := List.pairwise_iff_getElem.1 h
  rcases Nat.lt_trichotomy i j with hij | rfl | hij
  · exact iff_of_true (hp i j hi hj hij) hij
  · simp
  · have hl := hp j i hj hi hij
    omega

theorem exists_sameOrder (ht : tokens.Pairwise fun a b => a.position < b.position)
    (ho : others.Pairwise fun a b => a.position < b.position)
    (h : List.Forall₂ Token.Resembles tokens others) :
    ∃ S, SameOrder S ∧ List.Forall₂ (Token.Corresponds S) tokens others := by
  let S (a b : Nat) : Prop := ∃ (i : Nat) (token other : Token), tokens[i]? = some token ∧
    others[i]? = some other ∧ token.position = a ∧ other.position = b
  refine ⟨S, ?_, ?_⟩
  · rintro _ _ _ _ ⟨i, a, a', ha, ha', rfl, rfl⟩ ⟨j, b, b', hb, hb', rfl, rfl⟩
    rw [position_lt_iff ht ha hb, position_lt_iff ho ha' hb']
  · rw [List.forall₂_iff_get] at h ⊢
    refine ⟨h.1, fun i hi hj => ⟨h.2 i hi hj, i, _, _, ?_, ?_, rfl, rfl⟩⟩
    · exact List.getElem?_eq_getElem hi
    · exact List.getElem?_eq_getElem hj

end SqlDispatch
