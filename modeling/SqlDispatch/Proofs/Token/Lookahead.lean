import SqlDispatch.Proofs.Token.Longest

set_option autoImplicit false

/-!
How far a lexeme looks ahead. Behind its last character it looks at no more than the next one and
the characters of a number. `StopsAlso` relates two texts that show it no more than the same, and
`read_of_stopsAlso` says that a lexeme read in front of the first is read in front of the second, if
it is not the point before a number. Texts that are the same up to a blank or to a quotation mark
are related so (`Agrees`), and texts that are the same up to a character with which no lexeme goes
on.
-/

namespace SqlDispatch

open Text Grammar

/-- The second text goes on as the first does up to a blank in the second, or to a quotation mark in
both. -/
inductive Agrees : List Char → List Char → Prop where
  | refl (cs : List Char) : Agrees cs cs
  | blank {b : Char} (cs : List Char) {ds : List Char} : isBlank b = true → Agrees cs (b :: ds)
  | mark (q : Quote) (cs ds : List Char) : Agrees (q.mark :: cs) (q.mark :: ds)
  | cons {c : Char} {cs ds : List Char} : Agrees cs ds → Agrees (c :: cs) (c :: ds)

def IsInner (c : Char) : Prop := isBlank c = false ∧ ∀ q : Quote, c ≠ q.mark

def IsNumeral (c : Char) : Prop := c.isDigit = true ∨ c ∈ ['.', 'e', 'E', '+', '-']

/-- What a lexeme looks for in the second text stands in the first as well: the characters of a
number and the first character, unless that is a blank. -/
structure StopsAlso (cs ds : List Char) : Prop where
  numeral {front : List Char} : (∀ c ∈ front, IsNumeral c) → front <+: ds → front <+: cs
  head : ∀ d ∈ ds.head?, isBlank d = true ∨ d ∈ cs.head?

theorem Agrees.append {cs ds : List Char} (h : Agrees cs ds) (front : List Char) :
    Agrees (front ++ cs) (front ++ ds) := by
  induction front with
  | nil => exact h
  | cons c front ih => exact .cons ih

theorem isInner_of_isWordPart {c : Char} (h : Extent.isWordPart c = true) : IsInner c := by
  refine ⟨?_, fun q hq => ?_⟩
  · simp only [Extent.isWordPart, Bool.or_eq_true, beq_iff_eq] at h
    rcases h with (h | h) | rfl
    · exact Start.isBlank_of_isWordStart h
    · exact Start.isBlank_of_isDigit h
    · decide
  · rw [hq] at h
    cases q <;> exact absurd h (by decide)

theorem isInner_of_isDigit {c : Char} (h : c.isDigit = true) : IsInner c :=
  isInner_of_isWordPart (by simp [Extent.isWordPart, h])

theorem isInner_of_isNumeral {c : Char} (h : IsNumeral c) : IsInner c := by
  rcases h with h | h
  · exact isInner_of_isDigit h
  · simp only [List.mem_cons, List.not_mem_nil, or_false] at h
    rcases h with rfl | rfl | rfl | rfl | rfl <;>
      exact ⟨by decide, fun q => by cases q <;> decide⟩

theorem isNumeral_of_isNumber {text : List Char} (h : IsNumber text) :
    ∀ c ∈ text, IsNumeral c := by
  have hd {part : List Char} (hp : AreDigits part) : ∀ c ∈ part, IsNumeral c :=
    fun c hc => .inl (hp c hc)
  obtain ⟨mantissa, power, rfl, hm, hp⟩ := h
  have hm : ∀ c ∈ mantissa, IsNumeral c := by
    rcases hm with ⟨_, hm⟩ | ⟨whole, part, rfl, hw, hr, _⟩
    · exact hd hm
    · simpa [or_imp, forall_and] using ⟨hd hw, .inr (by decide), hd hr⟩
  have hp : ∀ c ∈ power, IsNumeral c := by
    rcases hp with rfl | ⟨letter, sign, part, rfl, hl, hs, _, hr⟩
    · simp
    · have hl : IsNumeral letter := .inr ((by decide : ['e', 'E'] ⊆ ['.', 'e', 'E', '+', '-']) hl)
      have hs : ∀ c ∈ sign, IsNumeral c := by
        have hall : ∀ sign ∈ [[], ['+'], ['-']], sign ⊆ ['.', 'e', 'E', '+', '-'] := by decide
        exact fun c hc => .inr (hall sign hs hc)
      simpa [or_imp, forall_and] using ⟨hl, hs, hd hr⟩
  simpa [or_imp, forall_and] using ⟨hm, hp⟩

namespace StopsAlso

variable {cs ds : List Char}

theorem of_head (hn : ∀ d ∈ ds.head?, ¬ IsNumeral d)
    (hh : ∀ d ∈ ds.head?, isBlank d = true ∨ d ∈ cs.head?) : StopsAlso cs ds := by
  refine ⟨fun {front} hf hp => ?_, hh⟩
  cases front with
  | nil => exact List.nil_prefix
  | cons d front =>
    obtain ⟨rest, rfl⟩ := hp
    exact absurd (hf d List.mem_cons_self) (hn d rfl)

theorem cons (h : StopsAlso cs ds) (c : Char) : StopsAlso (c :: cs) (c :: ds) := by
  refine ⟨fun {front} hn hf => ?_, fun d hd => .inr hd⟩
  cases front with
  | nil => exact List.nil_prefix
  | cons d front =>
    obtain ⟨rfl, hr⟩ := List.cons_prefix_cons.1 hf
    exact List.cons_prefix_cons.2 ⟨rfl, h.numeral (List.forall_mem_cons.1 hn).2 hr⟩

theorem append (h : StopsAlso cs ds) (front : List Char) :
    StopsAlso (front ++ cs) (front ++ ds) := by
  induction front with
  | nil => exact h
  | cons c front ih => exact ih.cons c

theorem of_agrees (h : Agrees cs ds) : StopsAlso cs ds := by
  induction h with
  | refl => exact ⟨fun _ hf => hf, fun d hd => .inr hd⟩
  | @blank b _ _ hb =>
    have hn : ¬ IsNumeral b := fun hn => by simp [(isInner_of_isNumeral hn).1] at hb
    exact .of_head (by simpa using hn) (by simp [hb])
  | mark q =>
    have hn : ¬ IsNumeral q.mark := fun hn => (isInner_of_isNumeral hn).2 q rfl
    exact .of_head (by simpa using hn) fun d hd => .inr hd
  | cons _ ih => exact ih.cons _

theorem head_eq_false (h : StopsAlso cs ds) {p : Char → Bool}
    (hp : ∀ c, isBlank c = true → p c = false) (hc : ∀ c ∈ cs.head?, p c = false) :
    ∀ d ∈ ds.head?, p d = false :=
  fun d hd => (h.head d hd).elim (hp d) (hc d)

theorem startsWithDigit (h : StopsAlso cs ds) (hd : Extent.startsWithDigit ds = true) :
    Extent.startsWithDigit cs = true := by
  cases ds with
  | nil => cases hd
  | cons d ds =>
    have hi : ∀ c ∈ [d], IsNumeral c := by simpa using .inl hd
    obtain ⟨rest, rfl⟩ := h.numeral hi ⟨ds, rfl⟩
    exact hd

theorem startsNumber (h : StopsAlso cs ds) (hn : Extent.startsNumber ds = true) :
    Extent.startsNumber cs = true := by
  have ht := Extent.isNumber_take hn
  obtain ⟨rest, rfl⟩ := h.numeral (isNumeral_of_isNumber ht) (List.take_prefix ..)
  exact Extent.startsNumber_of_isNumber ht rest

theorem number_le (h : StopsAlso cs ds) (hn : Extent.startsNumber ds = true) :
    Extent.number ds ≤ Extent.number cs := by
  have ht := Extent.isNumber_take hn
  obtain ⟨rest, rfl⟩ := h.numeral (isNumeral_of_isNumber ht) (List.take_prefix ..)
  have hl := Extent.length_le_number ht rest
  rwa [List.length_take, Nat.min_eq_left (Extent.number_le ds)] at hl

theorem number_append {text : List Char} (ht : IsNumber text) (h : StopsAlso cs ds)
    (hn : Extent.number (text ++ cs) = text.length) :
    Extent.number (text ++ ds) = text.length := by
  have hu := (h.append text).number_le (Extent.startsNumber_of_isNumber ht ds)
  have hl := Extent.length_le_number ht ds
  omega

theorem pointBeforeNumber (h : StopsAlso cs ds) (hp : PointBeforeNumber ds) :
    PointBeforeNumber cs := by
  obtain ⟨d, rest, rfl, hd⟩ := hp
  have hi : ∀ c ∈ ['.', '.', d], IsNumeral c := by
    simpa using ⟨.inr (by decide), .inl hd⟩
  obtain ⟨more, rfl⟩ := h.numeral hi ⟨rest, rfl⟩
  exact ⟨d, more, rfl, hd⟩

end StopsAlso

/-- What may stand before a text depends on nothing but the first character of the text, and may
stand at the end. -/
theorem isGapPiece_of_head {piece cs ds : List Char} (h : IsGapPiece piece cs)
    (hh : ∀ d ∈ ds.head?, d ∈ cs.head?) : IsGapPiece piece ds := by
  cases h with
  | blank hb => exact .blank hb
  | line hl hr =>
    refine .line hl ?_
    cases ds with
    | nil => exact .inl rfl
    | cons d ds =>
      obtain ⟨rest, rfl⟩ := List.head?_eq_some_iff.1 (hh d rfl)
      exact .inr (hr.resolve_left (by simp))
  | block hb => exact .block hb

theorem isGapPiece_of_head_eq {piece cs ds : List Char} (h : IsGapPiece piece cs)
    (hh : cs.head? = ds.head?) : IsGapPiece piece ds :=
  isGapPiece_of_head h fun _ hd => hh ▸ hd

namespace Start

variable {signed : Bool} {c : Char} {text rest other : List Char} {kind : TokenKind}

theorem isWordPart_of_isBlank {b : Char} (h : isBlank b = true) : Extent.isWordPart b = false := by
  cases hw : Extent.isWordPart b with
  | false => rfl
  | true =>
    rw [(isInner_of_isWordPart hw).1] at h
    cases h

theorem head_ne_of_stopsAlso (ha : StopsAlso rest other) {d : Char} (hd : isBlank d = false)
    (h : rest.head? ≠ some d) : other.head? ≠ some d := by
  have hb (b : Char) (hb : isBlank b = true) : (b == d) = false := by
    simpa using fun e : b = d => by simp [e, hd] at hb
  have hr : ∀ e ∈ rest.head?, (e == d) = false := by
    intro e he
    simpa using fun hd : e = d => h (hd ▸ he)
  intro ho
  simpa using ha.head_eq_false hb hr d ho

theorem not_opensComment_of_stopsAlso (ha : StopsAlso rest other) (h : ¬ OpensComment (c :: rest)) :
    ¬ OpensComment (c :: other) := by
  rw [opensComment_cons, not_or, not_and, not_and] at h ⊢
  exact ⟨fun hc => head_ne_of_stopsAlso ha (by decide) (h.1 hc),
    fun hc => head_ne_of_stopsAlso ha (by decide) (h.2 hc)⟩

theorem run_of_stopsAlso (ha : StopsAlso rest other)
    (h : Extent.run Extent.isWordPart (text ++ rest) = text.length) :
    Extent.run Extent.isWordPart (text ++ other) = text.length := by
  have hall := Extent.all_take_run Extent.isWordPart (text ++ rest)
  have hend := Extent.head_drop_run Extent.isWordPart (text ++ rest)
  rw [h, List.take_left] at hall
  rw [h, List.drop_left] at hend
  have hz := Extent.run_eq_zero (ha.head_eq_false (fun _ => isWordPart_of_isBlank) hend)
  rw [Extent.run_append hall, hz, Nat.add_zero]

theorem pair_of_stopsAlso (ha : StopsAlso rest other)
    (h : Extent.pair c (text ++ rest) = text.length) :
    Extent.pair c (text ++ other) = text.length := by
  cases text with
  | cons d text => exact h
  | nil =>
    cases other with
    | nil => rfl
    | cons d other =>
      -- no mark of two characters has a blank in it
      have hb (b : Char) (hb : isBlank b = true) : decide ((c, b) ∈ Extent.pairs) = false := by
        have hall : ∀ pair ∈ Extent.pairs, isBlank pair.2 = false := by decide
        simpa using fun h => by simp [hall _ h] at hb
      have hr (e : Char) (he : e ∈ rest.head?) : decide ((c, e) ∈ Extent.pairs) = false := by
        obtain ⟨rest, rfl⟩ := List.head?_eq_some_iff.1 he
        simpa [Extent.pair] using h
      simpa [Extent.pair] using ha.head_eq_false hb hr d rfl

/-- A lexeme read in front of the first text is read in front of the second, unless it is the point
before a number and that number is not there any more. -/
theorem read_of_stopsAlso (ha : StopsAlso rest other)
    (hp : PointBeforeNumber (c :: (text ++ rest)) → PointBeforeNumber (c :: (text ++ other)))
    (h : read signed c (text ++ rest) = .lexeme kind text.length) :
    read signed c (text ++ other) = .lexeme kind text.length := by
  have hf := ha.append text
  by_cases hb : PointBeforeNumber (c :: (text ++ rest))
  · rw [read_of_pointBeforeNumber hb] at h
    rw [read_of_pointBeforeNumber (hp hb), h]
  rw [read_eq_iff] at h ⊢
  generalize hn : text.length = n at h
  cases h with
  | @quoted _ q _ hk hc hq =>
    obtain ⟨body, back, he, hr, rfl⟩ := (quoted_eq_some_iff q _ _).1 hq
    rw [← List.singleton_append, ← List.append_assoc] at he
    obtain ⟨rfl, rfl⟩ := List.append_inj he (by simp [hn])
    refine .quoted hk hc ((quoted_eq_some_iff q _ _).2 ⟨body, other, by simp, ?_, rfl⟩)
    exact head_ne_of_stopsAlso ha (by cases q <;> decide) hr
  | word hw =>
    have hr : Reading signed c (text ++ other) _ := .word hw
    rw [run_of_stopsAlso ha hn.symm, List.take_left] at hr
    rw [← hn, List.take_left]
    exact hr
  | number hs =>
    have hst : Extent.startsNumber (c :: (text ++ rest)) = true := by
      rcases hs with hd | ⟨rfl, hs⟩
      · exact Extent.startsNumber_iff.2 (.inl hd)
      · exact Extent.startsNumber_iff.2
          (.inr ⟨_, rfl, (startsNumber_iff_of_point.1 hs).resolve_right hb⟩)
    have hnum : Extent.number (c :: text ++ rest) = (c :: text).length := by
      have hpos := number_pos hst
      rw [List.cons_append, List.length_cons]
      omega
    have ht := Extent.isNumber_take hst
    rw [← List.cons_append, hnum, List.take_left] at ht
    have hnum := ha.number_append ht hnum
    have hr : c.isDigit = true ∨ c = '.' ∧ Extent.startsNumber (text ++ other) = true := by
      rcases Extent.startsNumber_iff.1 (Extent.startsNumber_of_isNumber ht other) with
        hd | ⟨_, he, hd⟩
      · exact .inl hd
      · obtain ⟨rfl, rfl⟩ := List.cons.inj he
        exact .inr ⟨rfl, Extent.startsNumber_iff.2 (.inl hd)⟩
    have hr : Reading signed c (text ++ other) _ := .number hr
    rw [← List.cons_append, hnum] at hr
    rw [← hn]
    exact hr
  | signedNumber hc hs hg =>
    have ht := Extent.isNumber_take hg
    rw [← hn, List.take_left] at ht
    have hr : Reading signed c (text ++ other) _ :=
      .signedNumber hc hs (Extent.startsNumber_of_isNumber ht other)
    rw [ha.number_append ht hn.symm] at hr
    rw [← hn]
    exact hr
  | symbol hm ho hd hs =>
    have hr : Reading signed c (text ++ other)
        (.lexeme .punctuation (Extent.pair c (text ++ other))) := by
      refine .symbol hm ?_ (fun h => hd ⟨h.1, hf.startsNumber h.2⟩)
        fun h => hs ⟨h.1, h.2.1, hf.startsNumber h.2.2⟩
      exact not_opensComment_of_stopsAlso hf ho
    rw [pair_of_stopsAlso ha hn.symm] at hr
    rw [← hn]
    exact hr

end Start

end SqlDispatch
