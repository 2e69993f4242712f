import SqlDispatch.Proofs.Arguments.Grammar
import SqlDispatch.Router

set_option autoImplicit false

/-!
Texts prepared as directives. A text is one if it can be read, its longest name is that of a
command, and the tokens behind the name are of the grammar of that command.
-/

namespace SqlDispatch

namespace Router

variable {router : Router} {text : String} {command : Command} {arguments : Arguments}

theorem prepare_eq_internal_iff :
    router.prepare text = .ok (.internal command arguments) ↔
      ∃ statement tokens, Statement.read text = .ok statement ∧
        router.table.classify statement =
          .internal command (tokens ++ [.finish text.utf8ByteSize]) ∧
        command.Accepts tokens arguments := by
  simp only [prepare]
  constructor
  · intro h
    cases hr : Statement.read text with
    | error fault => simp [hr] at h
    | ok statement =>
      cases hc : router.table.classify statement with
      | forward raw => simp [hr, hc] at h
      | internal named slice =>
        cases ha : Arguments.read named slice with
        | error fault => simp [hr, hc, ha] at h
        | ok given =>
          obtain ⟨rfl, rfl⟩ : named = command ∧ given = arguments := by
            simpa [hr, hc, ha] using h
          obtain ⟨tokens, rfl⟩ := exists_append_finish_of_classify hr hc
          exact ⟨statement, tokens, rfl, hc,
            (Arguments.read_append_finish_eq_ok_iff named tokens _ given).1 ha⟩
  · intro h
    obtain ⟨statement, tokens, hr, hc, ha⟩ := h
    rw [← Arguments.read_append_finish_eq_ok_iff command tokens text.utf8ByteSize] at ha
    simp [hr, hc, ha]

end Router

end SqlDispatch
