import SqlDispatch.Token.Grammar

set_option autoImplicit false

/-!
How far the extents reach, against the languages of words, numbers, quoted texts and comments. An
extent never passes the end of the text, what it covers is in the language, and every text of the
language that starts at the same place is covered by it.
-/

namespace SqlDispatch.Extent

open Text Grammar

theorem run_append {p : Char → Bool} {front : List Char} (h : ∀ c ∈ front, p c = true)
    (rest : List Char) : run p (front ++ rest) = front.length + run p rest := by
  simp [run, List.takeWhile_append_of_pos h]

theorem run_eq_zero {p : Char → Bool} {cs : List Char} (h : ∀ c ∈ cs.head?, p c = false) :
    run p cs = 0 := by
  cases cs with
  | nil => rfl
  | cons c cs => simp [run, h c rfl]

theorem all_take_run (p : Char → Bool) (cs : List Char) :
    ∀ c ∈ cs.take (run p cs), p c = true := by
  rw [take_run]
  exact List.all_eq_true.1 List.all_takeWhile

theorem head_drop_run (p : Char → Bool) (cs : List Char) :
    ∀ c ∈ (cs.drop (run p cs)).head?, p c = false := by
  intro c hc
  have h := List.head?_dropWhile_not p cs
  rw [drop_run] at hc
  rw [Option.mem_def.1 hc] at h
  exact h

/-! ### Words -/

theorem length_le_run_of_isWord {c : Char} {text : List Char} (h : IsWord (c :: text))
    (rest : List Char) : text.length ≤ run isWordPart (text ++ rest) := by
  obtain ⟨_, _, he, _, hp⟩ := h
  obtain ⟨rfl, rfl⟩ := List.cons.inj he
  rw [run_append hp]
  omega

/-! ### Numbers -/

theorem startsWithDigit_append {part : List Char} (hn : part ≠ []) (hd : AreDigits part)
    (rest : List Char) : startsWithDigit (part ++ rest) = true := by
  cases part with
  | nil => exact absurd rfl hn
  | cons c part => exact hd c (by simp)

theorem take_run_ne_nil {cs : List Char} (h : startsWithDigit cs = true) :
    cs.take (run Char.isDigit cs) ≠ [] := by
  cases cs with
  | nil => simp [startsWithDigit] at h
  | cons c cs => simp [run, show c.isDigit = true from h]

theorem exponent_le (cs : List Char) : exponent cs ≤ cs.length := by
  unfold exponent
  split
  · exact Nat.le_refl 0
  · rename_i c cs
    split
    · have hr := run_le Char.isDigit (cs.drop (sign cs))
      have hs : sign cs ≤ cs.length := by unfold sign; split <;> simp
      simp only [List.length_drop, List.length_cons] at *
      omega
    · omega

theorem fraction_le (cs : List Char) : fraction cs ≤ cs.length := by
  unfold fraction
  split
  · rename_i cs
    have hr := run_le Char.isDigit cs
    simp only [List.length_cons]
    omega
  · omega

theorem number_le (cs : List Char) : number cs ≤ cs.length := by
  have hw := run_le Char.isDigit cs
  have hf := fraction_le (cs.drop (run Char.isDigit cs))
  have he := exponent_le (cs.drop (run Char.isDigit cs + fraction (cs.drop (run Char.isDigit cs))))
  simp only [number, List.length_drop] at *
  omega

theorem number_append {whole rest : List Char} (hw : AreDigits whole)
    (hr : ∀ c ∈ rest.head?, c.isDigit = false) :
    number (whole ++ rest) =
      whole.length + (fraction rest + exponent (rest.drop (fraction rest))) := by
  have h : run Char.isDigit (whole ++ rest) = whole.length := by
    rw [run_append hw, run_eq_zero hr]
    rfl
  simp [number, h, Nat.add_assoc]

theorem isExponent_take {cs : List Char} (h : exponent cs ≠ 0) :
    IsExponent (cs.take (exponent cs)) := by
  cases cs with
  | nil => exact absurd rfl h
  | cons c cs =>
    cases hc : (c == 'e' || c == 'E') && startsWithDigit (cs.drop (sign cs)) with
    | false => simp [exponent, hc] at h
    | true =>
      simp only [exponent, hc, if_true]
      simp only [Bool.and_eq_true, Bool.or_eq_true, beq_iff_eq] at hc
      have hs : cs.take (sign cs) ∈ [[], ['+'], ['-']] := by unfold sign; split <;> simp
      refine ⟨c, cs.take (sign cs), (cs.drop (sign cs)).take (run Char.isDigit (cs.drop (sign cs))),
        ?_, by simpa using hc.1, hs, take_run_ne_nil hc.2, all_take_run _ _⟩
      rw [Nat.add_assoc, Nat.add_comm 1, List.take_succ_cons, List.take_add, List.cons_append]

theorem length_le_exponent {text : List Char} (h : IsExponent text) (rest : List Char) :
    text.length ≤ exponent (text ++ rest) := by
  obtain ⟨letter, mark, part, rfl, hl, hs, hn, hd⟩ := h
  have hg : sign (mark ++ (part ++ rest)) = mark.length := by
    simp only [List.mem_cons, List.not_mem_nil, or_false] at hs
    rcases hs with rfl | rfl | rfl
    · cases part with
      | nil => exact absurd rfl hn
      | cons c part =>
        have hc : c.isDigit = true := hd c (by simp)
        simp only [List.nil_append, List.cons_append, List.length_nil, sign]
        split
        · rename_i h
          rw [(List.cons.inj h).1] at hc
          exact absurd hc (by decide)
        · rename_i h
          rw [(List.cons.inj h).1] at hc
          exact absurd hc (by decide)
        · rfl
    · rfl
    · rfl
  have hq : (letter == 'e' || letter == 'E') = true := by simpa using hl
  have hr := run_append hd rest
  simp only [List.cons_append, List.append_assoc, exponent, hg, List.drop_left, hq,
    startsWithDigit_append hn hd rest, Bool.true_and, if_true, List.length_cons,
    List.length_append, hr]
  omega

theorem head_exponent {text : List Char} (h : IsExponent text) :
    ∃ letter rest, text = letter :: rest ∧ letter.isDigit = false ∧ letter ≠ '.' := by
  obtain ⟨letter, mark, part, rfl, hl, _⟩ := h
  refine ⟨letter, mark ++ part, rfl, ?_⟩
  simp only [List.mem_cons, List.not_mem_nil, or_false] at hl
  rcases hl with rfl | rfl <;> decide

theorem fraction_eq_zero {cs : List Char} (h : cs.head? ≠ some '.') : fraction cs = 0 := by
  unfold fraction
  split
  · simp at h
  · rfl

theorem startsNumber_iff {cs : List Char} :
    startsNumber cs = true ↔ startsWithDigit cs = true ∨
      ∃ rest, cs = '.' :: rest ∧ startsWithDigit rest = true := by
  constructor
  · intro h
    unfold startsNumber at h
    split at h
    · exact .inr ⟨_, rfl, h⟩
    · exact .inl h
  · intro h
    rcases h with h | ⟨rest, rfl, h⟩
    · unfold startsNumber
      split
      · exact absurd h (by simp [startsWithDigit])
      · exact h
    · exact h

theorem isNumber_take {cs : List Char} (h : startsNumber cs = true) :
    IsNumber (cs.take (number cs)) := by
  have hw := all_take_run Char.isDigit cs
  have hr := head_drop_run Char.isDigit cs
  have hcs := List.take_append_drop (run Char.isDigit cs) cs
  have hne : startsWithDigit cs = true → _ := take_run_ne_nil
  generalize cs.take (run Char.isDigit cs) = whole at hw hcs hne
  generalize cs.drop (run Char.isDigit cs) = rest at hr hcs
  subst hcs
  rw [number_append hw hr, List.take_length_add_append, List.take_add, ← List.append_assoc]
  refine ⟨_, _, rfl, ?_, ?_⟩
  · rcases startsNumber_iff.1 h with hd | ⟨more, he, hd⟩
    · cases hf : rest.head? == some '.' with
      | false =>
        rw [fraction_eq_zero (by simpa using hf), List.take_zero, List.append_nil]
        exact .inl ⟨hne hd, hw⟩
      | true =>
        obtain ⟨more, rfl⟩ := List.head?_eq_some_iff.1 (by simpa using hf)
        refine .inr ⟨whole, more.take (run Char.isDigit more), ?_, hw, all_take_run _ _,
          .inl (hne hd)⟩
        simp [fraction, Nat.add_comm 1]
    · cases whole with
      | cons c whole =>
        have hc : c.isDigit = true := hw c (by simp)
        rw [(List.cons.inj he).1] at hc
        exact absurd hc (by decide)
      | nil =>
        obtain rfl : rest = '.' :: more := he
        refine .inr ⟨[], more.take (run Char.isDigit more), ?_, hw, all_take_run _ _,
          .inr (take_run_ne_nil hd)⟩
        simp [fraction, Nat.add_comm 1]
  · cases he : exponent (rest.drop (fraction rest)) with
    | zero => exact .inl (by simp)
    | succ n => exact .inr (he ▸ isExponent_take (by omega))

theorem length_le_number {text : List Char} (h : IsNumber text) (rest : List Char) :
    text.length ≤ number (text ++ rest) := by
  obtain ⟨mantissa, power, rfl, hm, hp⟩ := h
  -- what follows the mantissa ends its digits, unless nothing of the number follows
  rcases hp with rfl | hp
  · rw [List.append_nil]
    rcases hm with ⟨_, hd⟩ | ⟨whole, part, rfl, hw, hd, _⟩
    · have hr := run_append hd rest
      simp only [number]
      omega
    · have hf := run_append hd rest
      rw [List.append_assoc, number_append hw (by simp)]
      simp only [List.cons_append, fraction, List.length_append, List.length_cons]
      omega
  · have he := length_le_exponent hp rest
    obtain ⟨letter, more, hl, hn, hne⟩ := head_exponent hp
    have hstop : ∀ c ∈ (power ++ rest).head?, c.isDigit = false := by
      simpa [hl] using hn
    have hz : fraction (power ++ rest) = 0 := fraction_eq_zero (by simpa [hl] using hne)
    rcases hm with ⟨_, hd⟩ | ⟨whole, part, rfl, hw, hd, _⟩
    · rw [List.append_assoc, number_append hd hstop, hz, List.drop_zero, List.length_append]
      omega
    · have hf : fraction ('.' :: (part ++ (power ++ rest))) = 1 + part.length := by
        rw [fraction, run_append hd, run_eq_zero hstop, Nat.add_zero]
      have ht : whole ++ '.' :: part ++ power ++ rest =
          whole ++ '.' :: (part ++ (power ++ rest)) := by simp
      rw [ht, number_append hw (by simp), hf, Nat.add_comm 1, List.drop_succ_cons, List.drop_left]
      simp only [List.length_append, List.length_cons]
      omega

theorem startsNumber_of_isNumber {text : List Char} (h : IsNumber text) (rest : List Char) :
    startsNumber (text ++ rest) = true := by
  obtain ⟨mantissa, power, rfl, hm, _⟩ := h
  rw [List.append_assoc]
  rcases hm with ⟨hn, hd⟩ | ⟨whole, part, rfl, hw, hd, hne⟩
  · exact startsNumber_iff.2 (.inl (startsWithDigit_append hn hd _))
  · rw [List.append_assoc]
    cases whole with
    | cons c whole => exact startsNumber_iff.2 (.inl (startsWithDigit_append (by simp) hw _))
    | nil =>
      have hp : part ≠ [] := hne.resolve_left (by simp)
      exact startsNumber_iff.2 (.inr ⟨_, rfl, startsWithDigit_append hp hd _⟩)

/-! ### Comments -/

theorem lineComment_eq {text rest : List Char} (h : '\n' ∉ text)
    (hr : rest = [] ∨ rest.head? = some '\n') : lineComment (text ++ rest) = text.length := by
  have ht : ∀ c ∈ text, (c != '\n') = true := by
    intro c hc
    simpa using fun e : c = '\n' => h (e ▸ hc)
  rw [lineComment, run_append ht, run_eq_zero, Nat.add_zero]
  rcases hr with rfl | hr <;> simp [*]

theorem not_mem_take_lineComment (cs : List Char) : '\n' ∉ cs.take (lineComment cs) := by
  intro hm
  simpa using all_take_run (· != '\n') cs _ hm

theorem drop_lineComment (cs : List Char) :
    cs.drop (lineComment cs) = [] ∨ (cs.drop (lineComment cs)).head? = some '\n' := by
  have h := head_drop_run (· != '\n') cs
  unfold lineComment
  cases hd : cs.drop (run (· != '\n') cs) with
  | nil => exact .inl rfl
  | cons c rest =>
    have hc := h c (by simp [hd])
    exact .inr (by simpa using hc)

/-- The marks close `depth` comments and one more, and do so at their end for the first time. -/
def Closes (depth : Nat) (ms : List Mark) : Prop :=
  ms.count .closing = ms.count .opening + depth + 1 ∧
    ∀ front, front <+: ms → front.count .closing = front.count .opening + depth + 1 → front = ms

theorem not_closes_nil (depth : Nat) : ¬ Closes depth [] := by simp [Closes]

theorem closes_cons (depth : Nat) (m : Mark) (ms : List Mark) :
    Closes depth (m :: ms) ↔
      (m :: ms).count .closing = (m :: ms).count .opening + depth + 1 ∧
        ∀ front, front <+: ms →
          (m :: front).count .closing = (m :: front).count .opening + depth + 1 → front = ms := by
  constructor
  · intro h
    refine ⟨h.1, fun front hp hc => ?_⟩
    exact (List.cons.inj (h.2 (m :: front) (List.cons_prefix_cons.2 ⟨rfl, hp⟩) hc)).2
  · intro h
    refine ⟨h.1, fun front hp hc => ?_⟩
    cases front with
    | nil => simp at hc
    | cons n front =>
      obtain ⟨rfl, hf⟩ := List.cons_prefix_cons.1 hp
      rw [h.2 front hf hc]

theorem closes_zero_closing (ms : List Mark) : Closes 0 (.closing :: ms) ↔ ms = [] := by
  rw [closes_cons]
  constructor
  · intro h
    exact (h.2 [] List.nil_prefix (by simp)).symm
  · intro h
    subst h
    exact ⟨by simp, fun front hp _ => List.prefix_nil.1 hp⟩

theorem closes_succ_closing (depth : Nat) (ms : List Mark) :
    Closes (depth + 1) (.closing :: ms) ↔ Closes depth ms := by
  rw [closes_cons]
  simp [Closes, ← Nat.add_assoc]

theorem closes_opening (depth : Nat) (ms : List Mark) :
    Closes depth (.opening :: ms) ↔ Closes (depth + 1) ms := by
  rw [closes_cons]
  simp [Closes, Nat.add_right_comm, ← Nat.add_assoc]

theorem closes_other (depth : Nat) (c : Char) (ms : List Mark) :
    Closes depth (.other c :: ms) ↔ Closes depth ms := by
  rw [closes_cons]
  simp [Closes]

theorem marks_eq_nil_iff {cs : List Char} : marks cs = [] ↔ cs = [] := by
  constructor
  · intro h
    unfold marks at h
    split at h <;> simp at h ⊢
  · intro h
    rw [h, marks]

theorem exists_of_closes_pair {depth : Nat} {a b : Char} {cs body rest : List Char}
    (he : a :: b :: cs = body ++ rest) (hc : Closes depth (marks body)) :
    ∃ more, body = a :: b :: more ∧ cs = more ++ rest := by
  match body with
  | [] => exact absurd hc (not_closes_nil depth)
  | [c] =>
    have hm : marks [c] = [.other c] := by simp [marks]
    rw [hm, closes_other] at hc
    exact absurd hc (not_closes_nil depth)
  | c :: d :: more =>
    simp only [List.cons_append, List.cons.injEq] at he
    obtain ⟨rfl, rfl, hr⟩ := he
    exact ⟨more, rfl, hr⟩

theorem blockComment_eq_some_iff (depth : Nat) (cs : List Char) (n : Nat) :
    blockComment depth cs = some n ↔
      ∃ body rest, cs = body ++ rest ∧ n = body.length ∧ Closes depth (marks body) := by
  fun_induction blockComment depth cs generalizing n with
  | case1 cs =>
    constructor
    · intro h
      exact ⟨['*', '/'], cs, rfl, (Option.some.inj h).symm, (closes_zero_closing _).2 rfl⟩
    · intro h
      obtain ⟨body, rest, he, rfl, hc⟩ := h
      obtain ⟨more, rfl, _⟩ := exists_of_closes_pair he hc
      rw [marks, closes_zero_closing, marks_eq_nil_iff] at hc
      rw [hc]
      rfl
  | case2 cs depth ih =>
    rw [Option.map_eq_some_iff]
    constructor
    · intro h
      obtain ⟨m, hm, rfl⟩ := h
      obtain ⟨body, rest, rfl, rfl, hc⟩ := (ih m).1 hm
      exact ⟨'*' :: '/' :: body, rest, rfl, rfl, (closes_succ_closing ..).2 hc⟩
    · intro h
      obtain ⟨body, rest, he, rfl, hc⟩ := h
      obtain ⟨more, rfl, hr⟩ := exists_of_closes_pair he hc
      rw [marks, closes_succ_closing] at hc
      exact ⟨more.length, (ih _).2 ⟨more, rest, hr, rfl, hc⟩, rfl⟩
  | case3 depth cs ih =>
    rw [Option.map_eq_some_iff]
    constructor
    · intro h
      obtain ⟨m, hm, rfl⟩ := h
      obtain ⟨body, rest, rfl, rfl, hc⟩ := (ih m).1 hm
      exact ⟨'/' :: '*' :: body, rest, rfl, rfl, (closes_opening ..).2 hc⟩
    · intro h
      obtain ⟨body, rest, he, rfl, hc⟩ := h
      obtain ⟨more, rfl, hr⟩ := exists_of_closes_pair he hc
      rw [marks, closes_opening] at hc
      exact ⟨more.length, (ih _).2 ⟨more, rest, hr, rfl, hc⟩, rfl⟩
  | case4 depth c cs h₁ h₂ ih =>
    -- no mark of two characters starts here, in the text or in a part of it
    have hm (body rest : List Char) (hb : cs = body ++ rest) :
        marks (c :: body) = .other c :: marks body := by
      rw [marks]
      · intro r hc hr
        exact h₂ (r ++ rest) hc (by rw [hb, hr]; rfl)
      · intro r hc hr
        exact h₁ (r ++ rest) hc (by rw [hb, hr]; rfl)
    rw [Option.map_eq_some_iff]
    constructor
    · intro h
      obtain ⟨m, hn, rfl⟩ := h
      obtain ⟨body, rest, hb, rfl, hc⟩ := (ih m).1 hn
      refine ⟨c :: body, rest, by rw [hb]; rfl, rfl, ?_⟩
      rw [hm body rest hb, closes_other]
      exact hc
    · intro h
      obtain ⟨body, rest, he, rfl, hc⟩ := h
      cases body with
      | nil => exact absurd hc (not_closes_nil depth)
      | cons d body =>
        simp only [List.cons_append, List.cons.injEq] at he
        obtain ⟨rfl, hb⟩ := he
        rw [hm body rest hb, closes_other] at hc
        exact ⟨body.length, (ih _).2 ⟨body, rest, hb, rfl, hc⟩, rfl⟩
  | case5 depth =>
    simp only [reduceCtorEq, false_iff]
    intro h
    obtain ⟨body, rest, he, _, hc⟩ := h
    rw [(List.append_eq_nil_iff.1 he.symm).1] at hc
    exact not_closes_nil depth hc

theorem isBlockComment_iff {cs : List Char} :
    IsBlockComment cs ↔ ∃ body, cs = '/' :: '*' :: body ∧ Closes 0 (marks body) := by
  constructor
  · intro h
    obtain ⟨-, hh, hb, hf⟩ := h
    unfold marks at hh hb hf
    split at hh
    · rename_i body
      refine ⟨body, rfl, ?_, fun front hp hc => ?_⟩
      · simp only [IsBalanced, List.count_cons, beq_self_eq_true, if_true] at hb
        simpa using hb.symm
      · have he := hf (.opening :: front) (by simp) (List.cons_prefix_cons.2 ⟨rfl, hp⟩)
          (by simpa [IsBalanced] using hc.symm)
        exact (List.cons.inj he).2
    · simp at hh
    · simp at hh
    · simp at hh
  · intro h
    obtain ⟨body, rfl, hb, hf⟩ := h
    refine ⟨by simp [marks], by simp [marks], by simpa [IsBalanced, marks] using hb.symm, ?_⟩
    intro front hn hp hc
    rw [marks] at hp ⊢
    cases front with
    | nil => exact absurd rfl hn
    | cons m front =>
      obtain ⟨rfl, hq⟩ := List.cons_prefix_cons.1 hp
      rw [hf front hq (by simpa [IsBalanced] using hc.symm)]

end SqlDispatch.Extent
