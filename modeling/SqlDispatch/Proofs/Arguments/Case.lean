import SqlDispatch.Arguments
import SqlDispatch.Proofs.Token.Case

set_option autoImplicit false

/-!
Arguments and case. Tokens in small letters are read as the same booleans and whole numbers and as
the same names and texts in small letters, or have the same fault, which quotes the token as it
stands (`read_lowered`). Which tokens belong to which clause, and which fault comes first, does not
depend on case at all.
-/

namespace SqlDispatch

open Text

def Fault.lowered : Fault → Fault
  | .argumentType position expected lexeme message =>
    .argumentType position expected (lower lexeme) (lower message)
  | fault => fault

theorem lower_append (a b : String) : lower (a ++ b) = lower a ++ lower b := by
  simp [← String.toList_inj]

def Argument.lowered : Argument → Argument
  | .identifier value => .identifier (lower value)
  | .stringLiteral value => .stringLiteral (lower value)
  | argument => argument

namespace Arguments

def loweredOption (option : Capitals × Option Argument) : Capitals × Option Argument :=
  (option.1, option.2.map Argument.lowered)

def lowered (arguments : Arguments) : Arguments where
  positional := arguments.positional.map Argument.lowered
  options := arguments.options.map loweredOption

end Arguments

/-- Both fail, and the faults are the same but for case, or both give values that `f` makes the
same. -/
inductive EqLowered {α : Type} (f : α → α) : Except Fault α → Except Fault α → Prop where
  | error {a b : Fault} : a.lowered = b.lowered → EqLowered f (.error a) (.error b)
  | ok {a b : α} : f a = f b → EqLowered f (.ok a) (.ok b)

namespace EqLowered

variable {α β : Type} {f : α → α} {g : β → β} {x y z : Except Fault α}

theorem refl (f : α → α) (x : Except Fault α) : EqLowered f x x := by
  cases x with
  | error fault => exact .error rfl
  | ok value => exact .ok rfl

theorem symm (h : EqLowered f x y) : EqLowered f y x := by
  cases h with
  | error h => exact .error h.symm
  | ok h => exact .ok h.symm

theorem trans (h : EqLowered f x y) (hz : EqLowered f y z) : EqLowered f x z := by
  cases h with
  | error h =>
    cases hz with
    | error hz => exact .error (h.trans hz)
  | ok h =>
    cases hz with
    | ok hz => exact .ok (h.trans hz)

theorem map (h : EqLowered f x y) {k : α → β} (hk : ∀ a b, f a = f b → g (k a) = g (k b)) :
    EqLowered g (x.map k) (y.map k) := by
  cases h with
  | error h => exact .error h
  | ok h => exact .ok (hk _ _ h)

theorem bind (h : EqLowered f x y) {k l : α → Except Fault β}
    (hk : ∀ a b, f a = f b → EqLowered g (k a) (l b)) : EqLowered g (x >>= k) (y >>= l) := by
  cases h with
  | error h => exact .error h
  | ok h => exact hk _ _ h

theorem mapM {γ : Type} {k : γ → Except Fault α} {lowered : γ → γ}
    (h : ∀ c, EqLowered f (k c) (k (lowered c))) (cs : List γ) :
    EqLowered (List.map f) (cs.mapM k) ((cs.map lowered).mapM k) := by
  induction cs with
  | nil => exact .ok rfl
  | cons c cs ih =>
    rw [List.map_cons, List.mapM_cons, List.mapM_cons]
    refine (h c).bind fun a b hab => ih.bind fun as bs has => .ok ?_
    rw [List.map_cons, List.map_cons, hab, has]

end EqLowered

namespace Token

variable (token : Token)

@[simp] theorem isFinish_lowered : token.lowered.isFinish = token.isFinish := rfl

@[simp] theorem isWord_lowered : token.lowered.isWord = token.isWord := rfl

theorem spells_lowered (word : String) : token.lowered.spells word = token.spells word := by
  simp [spells, alike, lower_lower]

theorem isSymbol_lowered (mark : Char) (h : mark.isAlpha = false) :
    token.lowered.isSymbol (.ofList [mark]) = token.isSymbol (.ofList [mark]) := by
  have he : lower token.lexeme = .ofList [mark] ↔ token.lexeme = .ofList [mark] := by
    simp only [← String.toList_inj, toList_lower, String.toList_ofList,
      map_toLower_eq_singleton_iff h]
  rw [Bool.eq_iff_iff]
  simp only [isSymbol, kind_lowered, lexeme_lowered, Bool.and_eq_true, beq_iff_eq, he]

theorem Alike.spells_eq {token other : Token} (h : token.Alike other) (word : String) :
    token.spells word = other.spells word := by
  rw [← spells_lowered, alike_iff_lowered.1 h, spells_lowered]

end Token

namespace Text.Quote

theorem once_map_toLower (q : Quote) (cs : List Char) :
    q.once (cs.map Char.toLower) = (q.once cs).map Char.toLower := by
  have hq := q.isAlpha_mark
  fun_induction once q cs <;> simp_all [once, toLower_eq_iff]

theorem decode_lower (q : Quote) (text : String) :
    q.decode (lower text) = (q.decode text).map lower := by
  unfold decode
  rw [toList_lower]
  cases text.toList with
  | nil => rfl
  | cons c cs =>
    simp only [List.map_cons, toLower_eq_iff q.isAlpha_mark, List.getLast?_map,
      map_toLower_eq_some_iff q.isAlpha_mark, ← List.map_dropLast, once_map_toLower]
    split
    · rw [Option.map_some, lower_ofList]
    · rfl

end Text.Quote

theorem Token.content_lowered (token : Token) :
    token.lowered.content = token.content.map lower := by
  unfold content
  rw [kind_lowered, lexeme_lowered]
  cases token.kind.quote with
  | none => rfl
  | some q => exact q.decode_lower token.lexeme

namespace Text

theorem natural_map_toLower (cs : List Char) : natural (cs.map Char.toLower) = natural cs := by
  by_cases h : cs.all Char.isDigit
  · have hs : cs.map Char.toLower = cs := by
      have hd : ∀ c ∈ cs, c.toLower = id c := fun c hc =>
        have hc := List.all_eq_true.1 h c hc
        Start.toLower_of_not_isWordStart (Start.isWordStart_of_isDigit hc)
      rw [List.map_congr_left hd, List.map_id]
    rw [hs]
  · have hl : ¬ (cs.map Char.toLower).all Char.isDigit := by
      simpa [List.all_map, Function.comp_def] using h
    simp [natural, h, hl]

theorem integer_lower (text : String) : integer (lower text) = integer text := by
  unfold integer
  rw [toList_lower]
  cases text.toList with
  | nil => rfl
  | cons c cs =>
    have hn := natural_map_toLower
    by_cases hm : c = '-'
    · have hl : Char.toLower '-' = '-' := rfl
      simp [hm, hl, hn]
    by_cases hp : c = '+'
    · have hl : Char.toLower '+' = '+' := rfl
      simp [hp, hl, hn]
    · have hm' : c.toLower ≠ '-' := mt (toLower_eq_iff (by decide)).1 hm
      have hp' : c.toLower ≠ '+' := mt (toLower_eq_iff (by decide)).1 hp
      simp [hm, hp, hm', hp', ← hn (c :: cs)]

end Text

namespace Argument

theorem lowered_unexpected (token : Token) (kind : ArgumentKind) (vocabulary : String) :
    (unexpected token.lowered kind vocabulary).lowered =
      (unexpected token kind vocabulary).lowered := by
  cases hf : token.isFinish <;>
    simp [unexpected, Fault.lowered, hf, lower_append, lower_lower]

theorem lowered_outOfRange (token : Token) (least greatest : Int) :
    (outOfRange token.lowered least greatest).lowered =
      (outOfRange token least greatest).lowered := by
  simp only [outOfRange, Fault.lowered, Token.lexeme_lowered, Token.position_lowered, lower_append,
    lower_lower]

theorem readBoolean_lowered (token : Token) :
    EqLowered id (readBoolean token) (readBoolean token.lowered) := by
  simp only [readBoolean, Token.lexeme_lowered, lower_lower]
  split
  · exact .ok rfl
  split
  · exact .ok rfl
  · exact .error (lowered_unexpected token ..).symm

theorem isFractional_lower (lexeme : String) :
    isFractional (lower lexeme) = isFractional lexeme := by
  have h (c : Char) : (c.toLower == '.' || c.toLower == 'e' || c.toLower == 'E') =
      (c == '.' || c == 'e' || c == 'E') :=
    apply_toLower (f := fun c => c == '.' || c == 'e' || c == 'E') (by decide) c
  simp only [isFractional, toList_lower, List.any_map, Function.comp_def, h]

theorem readInteger_lowered (token : Token) (least greatest : Int) :
    EqLowered id (readInteger token least greatest) (readInteger token.lowered least greatest) := by
  have hu := (lowered_unexpected token (.integer least greatest) "integer").symm
  have ho := (lowered_outOfRange token least greatest).symm
  simp only [readInteger, Token.kind_lowered, Token.lexeme_lowered, isFractional_lower,
    integer_lower]
  split
  · exact .error hu
  split
  · split
    · exact .ok rfl
    · exact .error ho
  · exact .error ho

theorem readIdentifier_lowered (token : Token) :
    EqLowered lower (readIdentifier token) (readIdentifier token.lowered) := by
  have hu := (lowered_unexpected token .identifier "identifier").symm
  simp only [readIdentifier, Token.kind_lowered, Token.lexeme_lowered, Token.content_lowered]
  cases token.kind with
  | identifier | keyword => exact .ok (lower_lower _).symm
  | quotedIdentifier =>
    cases token.content with
    | none => exact .error hu
    | some text => exact .ok (lower_lower text).symm
  | _ => exact .error hu

theorem readString_lowered (token : Token) :
    EqLowered lower (readString token) (readString token.lowered) := by
  have hu := (lowered_unexpected token .stringLiteral "string literal").symm
  simp only [readString, Token.kind_lowered, Token.content_lowered]
  cases token.kind with
  | stringLiteral =>
    cases token.content with
    | none => exact .error hu
    | some text => exact .ok (lower_lower text).symm
  | _ => exact .error hu

theorem read_lowered (token : Token) (kind : ArgumentKind) :
    EqLowered lowered (read token kind) (read token.lowered kind) := by
  cases kind with
  | boolean => exact (readBoolean_lowered token).map fun _ _ h => congrArg boolean h
  | integer least greatest =>
    exact (readInteger_lowered token least greatest).map fun _ _ h => congrArg integer h
  | identifier => exact (readIdentifier_lowered token).map fun _ _ h => congrArg identifier h
  | stringLiteral => exact (readString_lowered token).map fun _ _ h => congrArg stringLiteral h

end Argument

theorem Command.optionNamed_lowered (command : Command) (token : Token) :
    command.optionNamed token.lowered = command.optionNamed token := by
  simp only [optionNamed, Token.spells_lowered]

namespace Clause

def lowered (clause : Clause) : Clause := { clause with value := clause.value.map Token.lowered }

theorem read_lowered (clause : Clause) :
    EqLowered Arguments.loweredOption clause.read clause.lowered.read := by
  unfold read lowered
  cases clause.option.value with
  | none => exact .refl ..
  | some kind =>
    cases clause.value with
    | none => exact .refl ..
    | some token =>
      refine (Argument.read_lowered token kind).map fun a b h => ?_
      rw [Arguments.loweredOption, Arguments.loweredOption, Option.map_some, Option.map_some, h]

end Clause

namespace Clauses

/-- The clauses and the surplus in small letters. What is wrong with a clause is told by the name of
its option, not by the token. -/
def lowered (clauses : Clauses) : Clauses :=
  { clauses with
    clauses := clauses.clauses.map Clause.lowered
    surplus := clauses.surplus.map Token.lowered }

theorem stop_map_lowered (command : Command) (fault : Fault) (rest : List Token) :
    stop command fault (rest.map Token.lowered) = (stop command fault rest).lowered := by
  simp [stop, lowered, List.filter_map, Function.comp_def, command.optionNamed_lowered]

theorem read_map_lowered (command : Command) (finish : Nat) (used : List Capitals)
    (tokens : List Token) :
    read command finish used (tokens.map Token.lowered) =
      (read command finish used tokens).lowered := by
  induction used, tokens using read.induct command finish with
  | case1 used => rfl
  | case2 used token rest hn ih =>
    have hl := (command.optionNamed_lowered token).trans hn
    simp only [List.map_cons, read, hl, hn, ih]
    rfl
  | case3 used token rest option hn hu =>
    have hl := (command.optionNamed_lowered token).trans hn
    simp only [List.map_cons, read, hl, hn, hu, if_true, stop_map_lowered, Token.position_lowered]
  | case4 used token rest option hn hu hv ih =>
    have hl := (command.optionNamed_lowered token).trans hn
    simp only [List.map_cons, read, hl, hn, hu, hv, if_false, ih]
    rfl
  | case5 used token option hn hu kind hv =>
    have hl := (command.optionNamed_lowered token).trans hn
    simp only [List.map_cons, List.map_nil, read, hl, hn, hu, hv, if_false]
    rfl
  | case6 used token option hn hu kind hv value rest ih =>
    have hl := (command.optionNamed_lowered token).trans hn
    simp only [List.map_cons, read, hl, hn, hu, hv, if_false, ih]
    rfl

theorem report_lowered (command : Command) (clauses : Clauses) :
    clauses.lowered.report command = clauses.report command := by
  unfold report lowered
  cases clauses.surplus <;> simp

end Clauses

theorem dropFinish_map_lowered (tokens : List Token) :
    dropFinish (tokens.map Token.lowered) =
      ((dropFinish tokens).1.map Token.lowered, (dropFinish tokens).2) := by
  unfold dropFinish
  rw [List.getLast?_map, ← List.map_dropLast]
  cases tokens.getLast? with
  | none => rfl
  | some last =>
    simp only [Option.map_some, Token.isFinish_lowered, Token.position_lowered,
      apply_ite (List.map Token.lowered)]
    rfl

theorem dropTerminator_map_lowered (tokens : List Token) :
    dropTerminator (tokens.map Token.lowered) =
      ((dropTerminator tokens).1.map Token.lowered, (dropTerminator tokens).2) := by
  have hs (token : Token) : token.lowered.isSymbol ";" = token.isSymbol ";" :=
    token.isSymbol_lowered ';' (by decide)
  simp only [dropTerminator, dropFinish_map_lowered, List.getLast?_map, ← List.map_dropLast]
  cases (dropFinish tokens).1.getLast? with
  | none => rfl
  | some last =>
    simp only [Option.map_some, hs, Token.position_lowered]
    split <;> rfl

namespace Arguments

/-- In small letters the tokens are the same arguments in small letters, or have the same fault. -/
theorem read_lowered (command : Command) (tokens : List Token) :
    EqLowered lowered (read command tokens) (read command (tokens.map Token.lowered)) := by
  unfold read
  simp only [dropTerminator_map_lowered, List.length_map, ← List.map_drop, ← List.map_take,
    Clauses.read_map_lowered, Clauses.report_lowered]
  generalize dropTerminator tokens = given
  split
  · exact .refl ..
  split
  · exact .refl ..
  · let small (pair : Token × ArgumentKind) := (pair.1.lowered, pair.2)
    have hz : ((given.1.take command.arguments.length).map Token.lowered).zip command.arguments =
        ((given.1.take command.arguments.length).zip command.arguments).map small :=
      List.zip_map_left
    have hp (pair : Token × ArgumentKind) :
        EqLowered Argument.lowered (Argument.read pair.1 pair.2)
          (Argument.read (small pair).1 (small pair).2) := Argument.read_lowered pair.1 pair.2
    rw [hz]
    refine EqLowered.bind (.mapM hp _) fun values values' hv => ?_
    refine EqLowered.bind (.mapM Clause.read_lowered _) fun options options' ho => .ok ?_
    rw [lowered, lowered, hv, ho]

theorem read_of_alike (command : Command) {tokens others : List Token}
    (h : List.Forall₂ Token.Alike tokens others) :
    EqLowered lowered (read command tokens) (read command others) := by
  have hl := read_lowered command others
  rw [← Token.forall₂_alike_iff.1 h] at hl
  exact (read_lowered command tokens).trans hl.symm

end Arguments

end SqlDispatch
