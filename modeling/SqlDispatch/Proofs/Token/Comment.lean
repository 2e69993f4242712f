import Mathlib.Logic.Relation
import SqlDispatch.Proofs.Token.Step

set_option autoImplicit false

/-!
Comments inside comments. A comment is gone through mark by mark with a number that says how many
comments are open inside the outermost. The number is counted up and down as a whole number, and
never falls below zero, because every part of the comment from the front opens more than it closes
(`Covers.of_next?`); so the comment ends where its marks are balanced for the first time. The extent
of a comment goes through the same places (`stop_of_next?`).
-/

namespace SqlDispatch

open Text

namespace Grammar

def Mark.text : Mark → List Char
  | .opening => ['/', '*']
  | .closing => ['*', '/']
  | .other c => [c]

def spelling (ms : List Mark) : List Char := ms.flatMap Mark.text

theorem spelling_append (front back : List Mark) :
    spelling (front ++ back) = spelling front ++ spelling back := List.flatMap_append

theorem spelling_marks (cs : List Char) : spelling (marks cs) = cs := by
  fun_induction marks cs with
  | case1 cs ih => exact congrArg ('/' :: '*' :: ·) ih
  | case2 cs ih => exact congrArg ('*' :: '/' :: ·) ih
  | case3 c cs _ _ ih => exact congrArg (c :: ·) ih
  | case4 => rfl

example : marks "/*/**/*".toList = [.opening, .opening, .closing, .other '*'] := by decide +kernel

/-- Every part from the front, but for nothing at all, opens more comments than it closes. -/
def IsOpen (ms : List Mark) : Prop :=
  ∀ front, front ≠ [] → front <+: ms → front.count .closing < front.count .opening

theorem IsOpen.concat {ms : List Mark} {m : Mark} (h : IsOpen ms)
    (hm : (ms ++ [m]).count .closing < (ms ++ [m]).count .opening) : IsOpen (ms ++ [m]) := by
  intro front hn hp
  rcases List.prefix_concat_iff.1 hp with rfl | hp
  · exact hm
  · exact h front hn hp

/-- The shortest part from the front, but for nothing at all, that closes as many comments as it
opens. -/
structure IsFirstBalance (front ms : List Mark) : Prop where
  ne_nil : front ≠ []
  isPrefix : front <+: ms
  isBalanced : IsBalanced front
  shortest : ∀ other, other ≠ [] → other <+: ms → IsBalanced other → front.length ≤ other.length

end Grammar

open Grammar

/-- A comment that is gone through: the marks behind, how many comments are open inside the
outermost, and the characters ahead. -/
structure CommentScan where
  behind : List Mark
  nesting : Int
  ahead : List Char
  deriving DecidableEq, Repr

namespace CommentScan

def start (rest : List Char) : CommentScan := ⟨[.opening], 0, rest⟩

def next? (scan : CommentScan) : Option CommentScan :=
  match scan.ahead with
  | '*' :: '/' :: ahead =>
    if scan.nesting = 0 then none
    else some ⟨scan.behind ++ [.closing], scan.nesting - 1, ahead⟩
  | '/' :: '*' :: ahead => some ⟨scan.behind ++ [.opening], scan.nesting + 1, ahead⟩
  | c :: ahead => some ⟨scan.behind ++ [.other c], scan.nesting, ahead⟩
  | [] => none

def Reaches : CommentScan → CommentScan → Prop :=
  Relation.ReflTransGen fun scan next => scan.next? = some next

theorem exists_mark_of_next? {scan next : CommentScan} (h : scan.next? = some next) :
    ∃ m, next.behind = scan.behind ++ [m] ∧ marks scan.ahead = m :: marks next.ahead ∧
      (m = .closing ∧ scan.nesting ≠ 0 ∧ next.nesting = scan.nesting - 1 ∨
        m = .opening ∧ next.nesting = scan.nesting + 1 ∨
        (∃ c, m = .other c) ∧ next.nesting = scan.nesting) := by
  obtain ⟨behind, nesting, ahead⟩ := scan
  unfold next? at h
  dsimp only at h ⊢
  split at h
  · split at h
    · cases h
    · rename_i hn
      cases h
      exact ⟨.closing, rfl, by rw [marks], .inl ⟨rfl, hn, rfl⟩⟩
  · cases h
    exact ⟨.opening, rfl, by rw [marks], .inr (.inl ⟨rfl, rfl⟩)⟩
  · rename_i c ahead hc ho
    cases h
    refine ⟨.other c, rfl, ?_, .inr (.inr ⟨⟨c, rfl⟩, rfl⟩)⟩
    rw [marks]
    · exact fun rest he hr => ho rest he hr
    · exact fun rest he hr => hc rest he hr
  · cases h

/-- The scan has come so far in the text: its number is how many comments are open inside the
outermost, and the outermost was open all the way. -/
structure Covers (scan : CommentScan) (text : List Char) : Prop where
  ne_nil : scan.behind ≠ []
  marks_eq : marks text = scan.behind ++ marks scan.ahead
  nesting_eq : scan.nesting + 1 = scan.behind.count .opening - scan.behind.count .closing
  isOpen : IsOpen scan.behind

theorem covers_start (rest : List Char) : (start rest).Covers ('/' :: '*' :: rest) := by
  refine ⟨List.cons_ne_nil _ _, by rw [marks]; rfl, by simp [start], fun front hn hp => ?_⟩
  rcases List.prefix_concat_iff.1 (show front <+: [] ++ [.opening] from hp) with rfl | hp
  · simp
  · exact absurd (List.prefix_nil.1 hp) hn

variable {scan next : CommentScan} {text : List Char}

theorem Covers.spelling_eq (h : scan.Covers text) : spelling scan.behind ++ scan.ahead = text := by
  have hm := congrArg spelling h.marks_eq
  rw [spelling_append, spelling_marks, spelling_marks] at hm
  exact hm.symm

theorem Covers.nonneg (h : scan.Covers text) : 0 ≤ scan.nesting := by
  have ho := h.isOpen scan.behind h.ne_nil List.prefix_rfl
  have hn := h.nesting_eq
  omega

theorem Covers.of_next? (h : scan.Covers text) (hs : scan.next? = some next) :
    next.Covers text := by
  obtain ⟨m, hm, ha, hc⟩ := exists_mark_of_next? hs
  have hz := h.nonneg
  have hn := h.nesting_eq
  have hn' : next.nesting + 1 = next.behind.count .opening - next.behind.count .closing := by
    rw [hm, List.count_append, List.count_append]
    rcases hc with ⟨rfl, _, he⟩ | ⟨rfl, he⟩ | ⟨⟨c, rfl⟩, he⟩ <;> simp <;> omega
  refine ⟨by simp [hm], ?_, hn', ?_⟩
  · rw [h.marks_eq, hm, ha, List.append_assoc, List.singleton_append]
  · have hp : 0 ≤ next.nesting := by omega
    rw [hm] at hn' ⊢
    exact h.isOpen.concat (by omega)

theorem Covers.of_reaches (h : scan.Covers text) (hr : scan.Reaches next) : next.Covers text := by
  induction hr with
  | refl => exact h
  | tail _ hs ih => exact ih.of_next? hs

theorem covers_of_reaches {rest : List Char} (h : (start rest).Reaches scan) :
    scan.Covers ('/' :: '*' :: rest) := (covers_start rest).of_reaches h

theorem Covers.isFirstBalance (h : scan.Covers text) (hn : scan.nesting = 0) {back : List Char}
    (ha : scan.ahead = '*' :: '/' :: back) :
    IsFirstBalance (scan.behind ++ [.closing]) (marks text) := by
  have hm : marks text = scan.behind ++ [.closing] ++ marks back := by
    rw [h.marks_eq, ha, marks, List.append_assoc, List.singleton_append]
  refine ⟨by simp, ⟨_, hm.symm⟩, ?_, fun other ho hp hb => ?_⟩
  · have he := h.nesting_eq
    simp only [IsBalanced, List.count_append, List.count_singleton]
    simp
    omega
  · refine Nat.not_lt.1 fun hl => ?_
    rw [hm] at hp
    have hf : other <+: scan.behind ++ [.closing] :=
      List.prefix_of_prefix_length_le hp ⟨_, rfl⟩ (by omega)
    rcases List.prefix_concat_iff.1 hf with rfl | hf
    · exact Nat.lt_irrefl _ hl
    · have hlt := h.isOpen other ho hf
      rw [IsBalanced] at hb
      omega

theorem Covers.not_isBalanced (h : scan.Covers text) (ha : scan.ahead = []) {front : List Mark}
    (hn : front ≠ []) (hp : front <+: marks text) : ¬ IsBalanced front := by
  rw [h.marks_eq, ha, marks, List.append_nil] at hp
  have hlt := h.isOpen front hn hp
  rw [IsBalanced]
  omega

theorem next?_eq_none_iff : scan.next? = none ↔
    scan.ahead = [] ∨ scan.nesting = 0 ∧ ∃ back, scan.ahead = '*' :: '/' :: back := by
  unfold next?
  split <;> rename_i ha
  · split <;> simp_all
  · simp [ha]
  · rename_i hc _ _
    simp_all
  · simp [ha]

def stop (scan : CommentScan) : Option Nat :=
  (Extent.blockComment scan.nesting.toNat scan.ahead).map ((spelling scan.behind).length + ·)

theorem stop_eq {m : Mark} (hm : next.behind = scan.behind ++ [m])
    (hb : Extent.blockComment scan.nesting.toNat scan.ahead =
      (Extent.blockComment next.nesting.toNat next.ahead).map (· + m.text.length)) :
    next.stop = scan.stop := by
  have hl : (spelling next.behind).length = (spelling scan.behind).length + m.text.length := by
    rw [hm, spelling_append, List.length_append]
    simp [spelling]
  rw [stop, stop, hb, hl, Option.map_map]
  refine congrArg (Option.map · _) (funext fun n => ?_)
  simp only [Function.comp_apply]
  omega

theorem stop_of_next? (hz : 0 ≤ scan.nesting) (hs : scan.next? = some next) :
    next.stop = scan.stop := by
  obtain ⟨behind, nesting, ahead⟩ := scan
  obtain ⟨depth, rfl⟩ := Int.eq_ofNat_of_zero_le hz
  unfold next? at hs
  dsimp only at hs
  split at hs
  · split at hs
    · cases hs
    · cases hs
      cases depth with
      | zero => contradiction
      | succ depth =>
        have hd : ((depth + 1 : Nat) : Int) - 1 = depth := by omega
        rw [hd]
        exact stop_eq (m := .closing) rfl rfl
  · cases hs
    exact stop_eq (m := .opening) rfl rfl
  · rename_i c ahead hc ho
    cases hs
    refine stop_eq (m := .other c) rfl ?_
    dsimp only
    rw [Int.toNat_natCast, Extent.blockComment]
    · rfl
    · exact fun rest he hr => hc rest he hr
    · exact fun rest he hr => ho rest he hr
  · cases hs

theorem exists_reaches_last (scan : CommentScan) :
    ∃ last, scan.Reaches last ∧ last.next? = none := by
  generalize hm : marks scan.ahead = ms
  induction ms generalizing scan with
  | nil =>
    have ha : scan.ahead = [] := by rw [← spelling_marks scan.ahead, hm]; rfl
    exact ⟨scan, .refl, next?_eq_none_iff.2 (.inl ha)⟩
  | cons m ms ih =>
    cases hs : scan.next? with
    | none => exact ⟨scan, .refl, hs⟩
    | some next =>
      obtain ⟨_, _, ha, _⟩ := exists_mark_of_next? hs
      obtain ⟨last, hr, hl⟩ := ih next (List.cons.inj (ha.symm.trans hm)).2
      exact ⟨last, .head hs hr, hl⟩

theorem stop_of_reaches (h : scan.Covers text) (hr : scan.Reaches next) :
    next.stop = scan.stop := by
  induction hr with
  | refl => rfl
  | tail hr hs ih => rw [stop_of_next? (h.of_reaches hr).nonneg hs, ih]

theorem stop_start (rest : List Char) :
    (start rest).stop = (Extent.blockComment 0 rest).map (2 + ·) := rfl

theorem stop_of_closed (hn : scan.nesting = 0) {back : List Char}
    (ha : scan.ahead = '*' :: '/' :: back) :
    scan.stop = some (spelling (scan.behind ++ [.closing])).length := by
  rw [stop, hn, ha, spelling_append, List.length_append]
  rfl

theorem stop_of_end (ha : scan.ahead = []) : scan.stop = none := by
  rw [stop, ha]
  rfl

end CommentScan

theorem Cut.outcome_of_comment {rest comment back : List Char}
    (he : '/' :: '*' :: rest = comment ++ back) {n : Nat}
    (hb : Extent.blockComment 0 rest = some n) (hn : comment.length = 2 + n) (signed : Bool)
    (position : Nat) :
    (cut signed ('/' :: '*' :: rest)).outcome position =
      (cut signed back).outcome (position + byteLength comment) := by
  have hr : Start.read signed '/' ('*' :: rest) = .gap (n + 1) :=
    Start.read_of_reading (.block rfl rfl hb)
  have ht : '/' :: ('*' :: rest).take (n + 1) = comment := by
    rw [← List.take_succ_cons, he, List.take_left' (by omega)]
  have hd : ('*' :: rest).drop (n + 1) = back := by
    rw [← List.drop_succ_cons, he, List.drop_left' (by omega)]
  rw [outcome_of_gap hr, ht, hd]

theorem Cut.outcome_of_unclosed {rest : List Char} (hb : Extent.blockComment 0 rest = none)
    (signed : Bool) (position : Nat) :
    (cut signed ('/' :: '*' :: rest)).outcome position =
      .error (.lexical "Unterminated block comment" position) :=
  outcome_of_obstacle (Start.read_of_reading (.unclosedComment rfl rfl hb)) position

namespace CommentScan

/-- A comment ends with the shortest part of the text that closes as many comments as it opens, and
reading goes on behind it; if no part does, the scan goes to the end of the text, and the text is at
fault where the outermost comment is opened. The number of open comments never falls below zero. -/
theorem comment_ends_at_first_balance (rest : List Char) :
    let text := '/' :: '*' :: rest
    ((∃ n, Extent.blockComment 0 rest = some n) ↔
      ∃ front, front ≠ [] ∧ front <+: marks text ∧ IsBalanced front) ∧
    (∀ n, Extent.blockComment 0 rest = some n →
      ∃ front back, IsFirstBalance front (marks text) ∧ text = spelling front ++ back ∧
        (spelling front).length = 2 + n ∧
        (∃ last, (start rest).Reaches last ∧ last.behind ++ [.closing] = front ∧
          last.nesting = 0 ∧ last.ahead = '*' :: '/' :: back) ∧
        ∀ signed position, (cut signed text).outcome position =
          (cut signed back).outcome (position + byteLength (spelling front))) ∧
    (Extent.blockComment 0 rest = none →
      (∃ last, (start rest).Reaches last ∧ spelling last.behind = text ∧ last.ahead = []) ∧
        ∀ signed position, (cut signed text).outcome position =
          .error (.lexical "Unterminated block comment" position)) ∧
    ∀ scan, (start rest).Reaches scan →
      0 ≤ scan.nesting ∧ spelling scan.behind ++ scan.ahead = text ∧
        (Extent.blockComment scan.nesting.toNat scan.ahead).map
          ((spelling scan.behind).length + ·) = (Extent.blockComment 0 rest).map (2 + ·) := by
  intro text
  obtain ⟨last, hr, hl⟩ := exists_reaches_last (start rest)
  have hc : last.Covers text := covers_of_reaches hr
  have ht := hc.spelling_eq
  have hs := stop_of_reaches (covers_start rest) hr
  rw [stop_start, eq_comm] at hs
  have hall (scan : CommentScan) (h : (start rest).Reaches scan) :
      0 ≤ scan.nesting ∧ spelling scan.behind ++ scan.ahead = text ∧
        scan.stop = (start rest).stop :=
    ⟨(covers_of_reaches h).nonneg, (covers_of_reaches h).spelling_eq,
      stop_of_reaches (covers_start rest) h⟩
  rcases next?_eq_none_iff.1 hl with ha | ⟨hz, back, ha⟩
  · have hb := Option.map_eq_none_iff.1 (hs.trans (stop_of_end ha))
    rw [ha, List.append_nil] at ht
    refine ⟨iff_of_false ?_ ?_, fun n hn => ?_, fun _ => ⟨⟨last, hr, ht, ha⟩, ?_⟩, hall⟩
    · rintro ⟨n, hn⟩
      rw [hb] at hn
      cases hn
    · rintro ⟨front, hn, hp, hf⟩
      exact hc.not_isBalanced ha hn hp hf
    · rw [hb] at hn
      cases hn
    · exact Cut.outcome_of_unclosed hb
  · obtain ⟨n, hb, hn⟩ := Option.map_eq_some_iff.1 (hs.trans (stop_of_closed hz ha))
    have hf := hc.isFirstBalance hz ha
    have he : text = spelling (last.behind ++ [.closing]) ++ back := by
      rw [← ht, ha, spelling_append, List.append_assoc]
      rfl
    refine ⟨iff_of_true ⟨n, hb⟩ ⟨_, hf.ne_nil, hf.isPrefix, hf.isBalanced⟩, fun k hk => ?_,
      fun h => ?_, hall⟩
    · obtain rfl := Option.some.inj (hb.symm.trans hk)
      exact ⟨_, back, hf, he, hn.symm, ⟨last, hr, rfl, hz, ha⟩,
        Cut.outcome_of_comment he hb hn.symm⟩
    · rw [hb] at h
      cases h

end CommentScan

end SqlDispatch
