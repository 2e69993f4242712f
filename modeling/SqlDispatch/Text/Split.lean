set_option autoImplicit false

/-!
Lists cut at a mark. The parts around the first of a mark are the list, and the first part does not
hold the mark (`splitAtFirst_eq_some_iff`).
-/

namespace SqlDispatch.Text

variable {α : Type}

def splitAtFirst [DecidableEq α] (mark : α) : List α → Option (List α × List α)
  | [] => none
  | c :: cs =>
    if c = mark then some ([], cs)
    else (splitAtFirst mark cs).map fun parts => (c :: parts.1, parts.2)

theorem splitAtFirst_eq_some_iff [DecidableEq α] {mark : α} {cs front back : List α} :
    splitAtFirst mark cs = some (front, back) ↔ cs = front ++ mark :: back ∧ mark ∉ front := by
  induction cs generalizing front with
  | nil => simp [splitAtFirst]
  | cons c cs ih =>
    by_cases hc : c = mark
    · cases front with
      | nil => simp [splitAtFirst, hc]
      | cons f front => simp [splitAtFirst, hc]; grind
    · cases front with
      | nil => simp [splitAtFirst, hc]
      | cons f front =>
        simp only [splitAtFirst, hc, if_false, Option.map_eq_some_iff, Prod.mk.injEq,
          List.cons.injEq, Prod.exists, List.cons_append, List.mem_cons, not_or]
        constructor
        · rintro ⟨a, b, h, ⟨rfl, rfl⟩, rfl⟩
          obtain ⟨rfl, hm⟩ := ih.1 h
          exact ⟨⟨rfl, rfl⟩, Ne.symm hc, hm⟩
        · rintro ⟨⟨rfl, rfl⟩, _, hm⟩
          exact ⟨front, back, ih.2 ⟨rfl, hm⟩, ⟨rfl, rfl⟩, rfl⟩

end SqlDispatch.Text
