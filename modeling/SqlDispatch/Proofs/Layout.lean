import SqlDispatch.Proofs.Arguments.Layout
import SqlDispatch.Proofs.Classification
import SqlDispatch.Router

set_option autoImplicit false

/-!
What the layout of a statement matters. Blanks and comments go unseen: with other gaps a statement
is the same command or is for the engine as before, has the same arguments or the same fault, and
leaves the same session. What changes is where tokens and faults are, and the kind of a lone point
that a gap parts from the number behind it, which no command can tell.
-/

namespace SqlDispatch

open Text Grammar

def Prepared.directive : Prepared → Option (Command × Arguments)
  | .internal command arguments => some (command, arguments)
  | .forward _ => none

namespace Router

variable {router : Router} {text other : String} {statement : Statement} {tokens : List Token}

theorem pairwise_position_of_read (h : Statement.read text = .ok statement) :
    statement.tokens.Pairwise fun a b => a.position < b.position :=
  (pairwise_of_tiles (Statement.tiles_of_read h)).imp And.left

theorem prepare_eqUnplaced (h : Statement.read text = .ok statement)
    (ho : Statement.read other = .ok ⟨other, tokens⟩) (hl : Relaid statement.tokens tokens) :
    EqUnplaced ((router.prepare text).map Prepared.directive)
      ((router.prepare other).map Prepared.directive) := by
  obtain ⟨S, hS, hc⟩ := exists_sameOrder (pairwise_position_of_read h)
    (pairwise_position_of_read ho) hl.forall₂
  have hc : (router.table.classify statement).Corresponds (Token.Corresponds S)
      (router.table.classify ⟨other, tokens⟩) :=
    router.table.corresponds_classify (fun _ _ h => h.1.spells_eq) hc
  simp only [prepare, h, ho]
  generalize hx : router.table.classify statement = x at hc
  generalize router.table.classify ⟨other, tokens⟩ = y at hc
  cases hc with
  | forward => rfl
  | @internal command slice slice' hf =>
    obtain ⟨front, rfl⟩ := exists_append_finish_of_classify h hx
    have ha := Arguments.read_eqUnplaced hS command hf (by simp)
    cases hr : Arguments.read command (front ++ [.finish text.utf8ByteSize]) <;>
      cases hr' : Arguments.read command slice' <;>
      simp_all [EqUnplaced, Except.mapError, Except.map, Prepared.directive]

theorem execute_of_internal {command : Command} {slice : List Token}
    (h : Statement.read text = .ok statement)
    (hc : router.table.classify statement = .internal command slice)
    (hp : EqUnplaced ((router.prepare text).map Prepared.directive)
      ((router.prepare other).map Prepared.directive))
    {State : Type} (engine : Engine State) (context : Context) (session : Session)
    (state : State) :
    let before := router.execute engine context text session state
    let after := router.execute engine context other session state
    EqUnplaced before.result after.result ∧ after.session = before.session ∧
      after.engine = before.engine ∧ after.call = before.call ∧ after.events = before.events := by
  have hn (kept : Statement) : router.prepare text ≠ .ok (.forward kept) := by
    simp only [prepare, h, hc]
    split <;> simp
  intro before after
  cases hx : router.prepare text with
  | error fault =>
    rw [hx] at hp
    obtain ⟨fault', hy, hu⟩ := hp.exists_error
    have hy : router.prepare other = .error fault' := by
      cases hz : router.prepare other with
      | error => simpa [hz, Except.map] using hy
      | ok => simp [hz, Except.map] at hy
    simp only [before, after, execute, hx, hy, and_self, and_true]
    exact .error hu
  | ok prepared =>
    cases prepared with
    | forward kept => exact absurd hx (hn kept)
    | internal command arguments =>
      rw [hx] at hp
      obtain ⟨prepared, hy, hd⟩ := Argument.exists_of_map_eq_ok hp.eq_ok
      cases prepared with
      | forward => cases hd
      | internal command' arguments' =>
        cases hd
        simp only [before, after, execute, hx, hy, and_self, and_true]
        rfl

theorem respaced_double_point {b : Char} {gap : List Char} (hb : isBlank b = true)
    (hg : IsGapBefore ['.', '5'] (b :: gap)) :
    Respaced 0 "..5".toList [⟨".", .number, 0⟩, ⟨".5", .number, 1⟩, .finish 3]
      ('.' :: b :: gap ++ ['.', '5']) := by
  have hr : Replaces (['.', '5'] ++ []) [] (b :: gap) := .inr ⟨⟨b, gap, hb, rfl⟩, hg⟩
  have hn := @Respaced.token 1 [] _ ['.', '5'] [] [] .number _ .nil (by simp) hr
    (.finish .nil (.inl rfl))
  have hp := @Respaced.token 0 [] _ ['.'] ['.', '5'] _ .number _ .nil (by simp) (.inl rfl) hn
  exact hp

/-- A statement can be laid out in any way. It is read into tokens of the same lexemes, and of the
same kinds unless a lone point is parted from the number behind it; the same command or the engine
is in charge of it, it is prepared alike, and as a command it is executed alike. -/
theorem execute_respaced (h : Statement.read text = .ok statement) :
    Respaced 0 text.toList statement.tokens text.toList ∧
    ∀ other : String, Respaced 0 text.toList statement.tokens other.toList →
      ∃ tokens, Statement.read other = .ok ⟨other, tokens⟩ ∧
        tokens.map Token.lexeme = statement.tokens.map Token.lexeme ∧
        (tokens.map Token.kind = statement.tokens.map Token.kind ↔
          ¬ PartsPoint statement.tokens tokens) ∧
        ∀ router : Router,
          (router.table.classify statement).Corresponds Token.Resembles
            (router.table.classify ⟨other, tokens⟩) ∧
          EqUnplaced ((router.prepare text).map Prepared.directive)
            ((router.prepare other).map Prepared.directive) ∧
          ∀ command slice, router.table.classify statement = .internal command slice →
            ∀ (State : Type) (engine : Engine State) (context : Context) (session : Session)
              (state : State),
              let before := router.execute engine context text session state
              let after := router.execute engine context other session state
              EqUnplaced before.result after.result ∧ after.session = before.session ∧
                after.engine = before.engine ∧ after.call = before.call ∧
                after.events = before.events := by
  refine ⟨respaced_self (Statement.tiles_of_read h), fun other hr => ?_⟩
  obtain ⟨tokens, ho, hl⟩ := Statement.exists_read_of_respaced h hr
  refine ⟨tokens, ho, hl.lexemes_eq, hl.kinds_eq_iff, fun router => ?_⟩
  have hp : EqUnplaced ((router.prepare text).map Prepared.directive)
    ((router.prepare other).map Prepared.directive) := prepare_eqUnplaced h ho hl
  refine ⟨?_, hp, fun command slice hc State engine context session state => ?_⟩
  · exact router.table.corresponds_classify (fun _ _ h => h.spells_eq) hl.forall₂
  · exact execute_of_internal h hc hp engine context session state

/-- A line comment between the two points, and the engine or a command takes them as before. -/
theorem execute_respaced_line_comment :
    let tokens : List Token := [⟨".", .number, 0⟩, ⟨".5", .number, 1⟩, .finish 3]
    Statement.read "..5" = .ok ⟨"..5", tokens⟩ ∧
      Respaced 0 "..5".toList tokens ". --\n.5".toList ∧
      ∃ others, Statement.read ". --\n.5" = .ok ⟨". --\n.5", others⟩ ∧
        others.map Token.lexeme = [".", ".5", ""] ∧
        ∀ router : Router, EqUnplaced ((router.prepare "..5").map Prepared.directive)
          ((router.prepare ". --\n.5").map Prepared.directive) := by
  intro tokens
  have h : Statement.read "..5" = .ok ⟨"..5", tokens⟩ := by decide +kernel
  have hg : IsGapBefore ['.', '5'] [' ', '-', '-', '\n'] := by
    have hl : IsLineComment ['-', '-'] := ⟨[], rfl, by simp⟩
    exact .cons (.blank (by decide)) (.cons (.line hl (.inr rfl)) (.cons (.blank (by decide)) .nil))
  have hr : Respaced 0 "..5".toList tokens ". --\n.5".toList := respaced_double_point (by decide) hg
  obtain ⟨_, ho⟩ := execute_respaced h
  obtain ⟨others, hread, hl, _, hx⟩ := ho _ hr
  exact ⟨h, hr, others, hread, hl, fun router => (hx router).2.1⟩

/-- A blank between the two points, and the first is no number any more. -/
theorem kind_of_parted_point :
    let tokens : List Token := [⟨".", .number, 0⟩, ⟨".5", .number, 1⟩, .finish 3]
    let others : List Token := [⟨".", .punctuation, 0⟩, ⟨".5", .number, 2⟩, .finish 4]
    Statement.read "..5" = .ok ⟨"..5", tokens⟩ ∧
      Respaced 0 "..5".toList tokens ". .5".toList ∧
      Statement.read ". .5" = .ok ⟨". .5", others⟩ ∧
      others.map Token.kind ≠ tokens.map Token.kind := by
  intro tokens others
  have hg : IsGapBefore ['.', '5'] [' '] := .cons (.blank (by decide)) .nil
  refine ⟨by decide +kernel, respaced_double_point (by decide) hg, by decide +kernel, by decide⟩

end Router

end SqlDispatch
