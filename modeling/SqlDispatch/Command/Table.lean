import SqlDispatch.Command.Basic
import SqlDispatch.Statement

set_option autoImplicit false

/-!
Tables of commands and the classification of statements. In a table every command has a name and no
two have the same one, so of the commands whose words stand at the start of a statement exactly one
has the most words. That command is the statement's; a statement without one goes to the engine.
-/

namespace SqlDispatch

open Text

inductive TableFault where
  | unnamed (index : Nat)
  | repeated (name : String)
  deriving DecidableEq, Repr

def TableFault.message : TableFault → String
  | .unnamed index => "command at index " ++ decimal index ++ " has an empty name"
  | .repeated name => "command '" ++ name ++ "' is registered more than once"

structure CommandTable where
  commands : List Command
  named : ∀ command ∈ commands, command.words ≠ []
  distinct : commands.Pairwise (·.words ≠ ·.words)

namespace CommandTable

def firstFault (earlier : List Command) : List Command → Option TableFault
  | [] => none
  | command :: rest =>
    if command.words = [] then some (.unnamed earlier.length)
    else if ∃ other ∈ earlier, other.words = command.words then some (.repeated command.name)
    else firstFault (earlier ++ [command]) rest

theorem firstFault_eq_none_iff (earlier commands : List Command) :
    firstFault earlier commands = none ↔
      (∀ command ∈ commands, command.words ≠ []) ∧ commands.Pairwise (·.words ≠ ·.words) ∧
        ∀ other ∈ earlier, ∀ command ∈ commands, other.words ≠ command.words := by
  induction commands generalizing earlier with
  | nil => simp [firstFault]
  | cons command rest ih =>
    unfold firstFault
    split
    · rename_i h
      simp [h]
    · rename_i h
      split
      · rename_i he
        obtain ⟨other, hm, hw⟩ := he
        simp only [reduceCtorEq, false_iff]
        exact fun g => g.2.2 other hm command (by simp) hw
      · rename_i he
        rw [ih]
        constructor
        · rintro ⟨hn, hp, hd⟩
          refine ⟨?_, List.pairwise_cons.2 ⟨fun c hc => hd command (by simp) c hc, hp⟩, ?_⟩
          · intro c hc
            rcases List.mem_cons.1 hc with rfl | hc
            · exact h
            · exact hn c hc
          · intro other ho c hc
            rcases List.mem_cons.1 hc with rfl | hc
            · exact fun e => he ⟨other, ho, e⟩
            · exact hd other (by simp [ho]) c hc
        · rintro ⟨hn, hp, hd⟩
          obtain ⟨hc, hp⟩ := List.pairwise_cons.1 hp
          refine ⟨fun c hm => hn c (by simp [hm]), hp, fun other ho c hm => ?_⟩
          rcases List.mem_append.1 ho with ho | ho
          · exact hd other ho c (by simp [hm])
          · rw [List.mem_singleton.1 ho]
            exact hc c hm

def ofCommands (commands : List Command) : Except TableFault CommandTable :=
  match h : firstFault [] commands with
  | some fault => .error fault
  | none =>
    have h' := (firstFault_eq_none_iff [] commands).1 h
    .ok ⟨commands, h'.1, h'.2.1⟩

def get? (table : CommandTable) (name : String) : Option Command :=
  table.commands.find? fun command => command.words = Command.nameWords name

end CommandTable

def opens : List Capitals → List Token → Bool
  | [], _ => true
  | _ :: _, [] => false
  | word :: words, token :: tokens => token.spells word.text && opens words tokens

/-- The command, or the one before it if that has as many words. -/
def longer (best : Option Command) (command : Command) : Option Command :=
  match best with
  | none => some command
  | some current =>
    if current.words.length < command.words.length then some command else some current

inductive Classification where
  | internal (command : Command) (arguments : List Token)
  | forward (text : String)
  deriving DecidableEq

namespace CommandTable

/-- The first of the commands with the most words among those that open the tokens. -/
def match? (table : CommandTable) (tokens : List Token) : Option Command :=
  (table.commands.filter fun command => opens command.words tokens).foldl longer none

def classify (table : CommandTable) (statement : Statement) : Classification :=
  match table.match? statement.tokens with
  | some command => .internal command (statement.tokens.drop command.words.length)
  | none => .forward statement.text

end CommandTable

/-- Words that differ in nothing but case open the same statements, so two commands of one length
that open a statement are one. -/
theorem words_eq_of_opens {a b : List Capitals} {tokens : List Token}
    (ha : opens a tokens = true) (hb : opens b tokens = true) (hl : a.length = b.length) :
    a = b := by
  induction a generalizing b tokens with
  | nil => exact (List.length_eq_zero_iff.1 hl.symm).symm
  | cons x a ih =>
    cases b with
    | nil => simp at hl
    | cons y b =>
      cases tokens with
      | nil => simp [opens] at ha
      | cons token tokens =>
        simp only [opens, Bool.and_eq_true] at ha hb
        have hx := Capitals.alike_text_iff.1 (Token.alike_of_spells ha.1)
        have hy := Capitals.alike_text_iff.1 (Token.alike_of_spells hb.1)
        rw [ih ha.2 hb.2 (by simpa using hl), ← hx, ← hy]

end SqlDispatch
