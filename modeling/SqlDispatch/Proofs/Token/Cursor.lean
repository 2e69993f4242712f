import SqlDispatch.Proofs.Token.Partition
import SqlDispatch.Token.Cursor

set_option autoImplicit false

/-!
How far the programs of a cursor go. `Goes` says of a program that in front of certain characters it
ends, over how many of them it has gone by then and what it has come to; two programs one after the
other go as far as both (`Goes.bind`). Every extent is what its program goes over: the loops are
unrolled along the extents, and as a turn either is the last or goes over a character, they have
turns enough for all of the text if they have more than it has characters (`goes_loop`).
-/

namespace SqlDispatch

open Text

namespace Extent

theorem sign_eq_ite (cs : List Char) :
    sign cs = if cs.head? ∈ [some '+', some '-'] then 1 else 0 := by
  cases cs with
  | nil => rfl
  | cons c cs =>
    unfold sign
    split
    · rename_i h
      rw [(List.cons.inj h).1]
      rfl
    · rename_i h
      rw [(List.cons.inj h).1]
      rfl
    · rename_i hp hm
      rw [if_neg]
      simp only [List.head?_cons, List.mem_cons, List.not_mem_nil, or_false, Option.some.injEq]
      rintro (rfl | rfl)
      · exact hp cs rfl
      · exact hm cs rfl

theorem startsWithDigit_eq_any (cs : List Char) :
    startsWithDigit cs = cs.head?.any Char.isDigit := by
  cases cs <;> rfl

end Extent

namespace Cursor

theorem slice?_eq_some_iff {text slice : String} {start stop : Nat} :
    slice? text start stop = some slice ↔ start ≤ stop ∧ IsSlice text start stop slice := by
  unfold slice?
  split
  · rename_i h
    rw [Option.some.injEq, ← String.toByteArray_inj]
    exact ⟨fun hs => ⟨h.1, h.2.1, h.2.2, hs⟩, fun hs => hs.2.bytes⟩
  · rename_i h
    simp only [reduceCtorEq, false_iff]
    exact fun hs => h ⟨hs.1, hs.2.start_valid, hs.2.stop_valid⟩

theorem slice?_append (front slice back : String) :
    slice? (front ++ slice ++ back) front.utf8ByteSize (front ++ slice).utf8ByteSize =
      some slice := by
  rw [slice?_eq_some_iff, String.utf8ByteSize_append]
  exact ⟨Nat.le_add_right .., isSlice_append front slice back⟩

variable {text : String} {turns : Nat} {α β : Type}

section Run

variable {ε : Type}

theorem run_bind (program : ExceptT ε (StateT Nat Option) α)
    (next : α → ExceptT ε (StateT Nat Option) β) (position : Nat) :
    (program >>= next).run.run position =
      (program.run.run position).bind fun last =>
        match last.1 with
        | .ok a => (next a).run.run last.2
        | .error reason => some (.error reason, last.2) := by
  rw [ExceptT.run_bind, StateT.run_bind]
  refine congrArg (Option.bind _) (funext fun last => ?_)
  obtain ⟨_ | _, _⟩ := last <;> rfl

theorem run_get (position : Nat) :
    (get : ExceptT ε (StateT Nat Option) Nat).run.run position = some (.ok position, position) :=
  rfl

theorem run_lift (answer : Option α) (position : Nat) :
    (liftM answer : Cursor α).run.run position = answer.map (.ok ·, position) := by
  cases answer <;> rfl

end Run

/-- In front of the characters `cs` the program goes over the first `n` of them and comes to this
result. -/
def Goes (text : String) (program : Cursor α) (cs : List Char) (n : Nat)
    (result : Except Obstacle α) : Prop :=
  ∀ front : String, text = front ++ .ofList cs →
    program.run.run front.utf8ByteSize =
      some (result, (front ++ .ofList (cs.take n)).utf8ByteSize)

theorem goes_pure (a : α) (cs : List Char) : Goes text (pure a) cs 0 (.ok a) := by
  intro front _
  rw [List.take_zero, String.ofList_nil, String.append_empty]
  rfl

theorem goes_throw (reason : Obstacle) (cs : List Char) :
    Goes (α := α) text (throw reason) cs 0 (.error reason) := by
  intro front _
  rw [List.take_zero, String.ofList_nil, String.append_empty]
  rfl

theorem Goes.bind {program : Cursor α} {next : α → Cursor β} {cs : List Char} {n k : Nat} {a : α}
    {result : Except Obstacle β} (hp : Goes text program cs n (.ok a))
    (hn : Goes text (next a) (cs.drop n) k result) :
    Goes text (program >>= next) cs (n + k) result := by
  intro front ht
  have hs : text = front ++ .ofList (cs.take n) ++ .ofList (cs.drop n) := by
    rw [String.append_assoc, ← String.ofList_append, List.take_append_drop, ht]
  have hk := hn _ hs
  rw [String.append_assoc, ← String.ofList_append, ← List.take_add] at hk
  rw [run_bind, hp front ht]
  exact hk

theorem Goes.look {program : Cursor α} {next : α → Cursor β} {cs : List Char} {n : Nat} {a : α}
    {result : Except Obstacle β} (hp : Goes text program cs 0 (.ok a))
    (hn : Goes text (next a) cs n result) : Goes text (program >>= next) cs n result := by
  have hb := hp.bind hn
  rwa [Nat.zero_add] at hb

theorem Goes.step {program : Cursor α} {next : α → Cursor β} {c : Char} {cs : List Char} {n : Nat}
    {a : α} {result : Except Obstacle β} (hp : Goes text program (c :: cs) 1 (.ok a))
    (hn : Goes text (next a) cs n result) :
    Goes text (program >>= next) (c :: cs) (n + 1) result := by
  have hb := hp.bind hn
  rwa [Nat.add_comm] at hb

theorem Goes.bind_error {program : Cursor α} {next : α → Cursor β} {cs : List Char} {n : Nat}
    {reason : Obstacle} (hp : Goes text program cs n (.error reason)) :
    Goes text (program >>= next) cs n (.error reason) := by
  intro front ht
  rw [run_bind, hp front ht]
  rfl

theorem Goes.map {program : Cursor α} {cs : List Char} {n : Nat} {a : α}
    (hp : Goes text program cs n (.ok a)) (f : α → β) :
    Goes text (program >>= fun a => pure (f a)) cs n (.ok (f a)) :=
  hp.bind (k := 0) (goes_pure (f a) _)

theorem goes_discard {program : Cursor α} {cs : List Char} {n : Nat} {a : α}
    (hp : Goes text program cs n (.ok a)) : Goes text (discard program) cs n (.ok ()) := by
  rw [discard, map_const, Function.comp_apply, ← bind_pure_comp]
  exact hp.map fun _ => ()

/-- A loop that needs one turn for each character in front of it and one more. -/
theorem goes_loop (loop : Nat → Cursor α) {cs : List Char} {n : Nat}
    {result : Except Obstacle α}
    (h : ∀ turns, cs.length ≤ turns → Goes text (loop (turns + 1)) cs n result)
    (enough : text.length < turns) : Goes text (loop turns) cs n result := by
  intro front hf
  have hl : text.length = front.length + cs.length := by
    rw [hf, String.length_append, String.length_ofList]
  obtain ⟨turns, rfl⟩ := Nat.exists_eq_add_one.2 (Nat.zero_lt_of_lt enough)
  exact h turns (by omega) front hf

theorem goes_ahead (cs : List Char) : Goes text (ahead text) cs 0 (.ok cs) := by
  intro front ht
  have hs := slice?_append front (.ofList cs) ""
  rw [String.append_empty, ← ht] at hs
  simp only [ahead, run_bind, run_get, run_lift, hs, Option.bind_some, Option.map_some,
    String.toList_ofList]
  exact goes_pure cs cs front ht

theorem goes_peek (n : Nat) (cs : List Char) : Goes text (peek text n) cs 0 (.ok cs[n]?) :=
  (goes_ahead cs).look (goes_pure _ cs)

theorem goes_modify (c : Char) (cs : List Char) :
    Goes text (modify (· + c.utf8Size)) (c :: cs) 1 (.ok ()) := by
  intro front _
  rw [List.take_succ_cons, List.take_zero, String.utf8ByteSize_append, ← byteLength_eq]
  rfl

theorem goes_advance (c : Char) (cs : List Char) :
    Goes text (advance text) (c :: cs) 1 (.ok (some c)) := by
  refine (goes_peek 0 _).look ?_
  exact (goes_modify c cs).map fun _ => some c

theorem goes_advance_nil : Goes text (advance text) [] 0 (.ok none) :=
  (goes_peek 0 _).look (goes_pure _ _)

theorem goes_accept (c : Char) (cs : List Char) :
    Goes text (accept text c) (c :: cs) 1 (.ok true) := by
  refine (goes_peek 0 _).look ?_
  rw [if_pos List.getElem?_cons_zero]
  exact (goes_modify c cs).map fun _ => true

theorem goes_accept_of_ne {c : Char} {cs : List Char} (h : cs.head? ≠ some c) :
    Goes text (accept text c) cs 0 (.ok false) := by
  refine (goes_peek 0 _).look ?_
  rw [List.head?_eq_getElem?] at h
  rw [if_neg h]
  exact goes_pure _ _

theorem goes_skip_of_le (p : Char → Bool) {cs : List Char} (h : cs.length ≤ turns) :
    Goes text (skip text (turns + 1) p) cs (Extent.run p cs) (.ok ()) := by
  induction cs generalizing turns with
  | nil => exact (goes_peek 0 _).look (goes_pure _ _)
  | cons c cs ih =>
    obtain ⟨turns, rfl⟩ := Nat.exists_eq_add_of_le' h
    refine (goes_peek 0 _).look ?_
    dsimp only [List.getElem?_cons_zero]
    cases hc : p c with
    | true =>
      have hn : Extent.run p (c :: cs) = 1 + Extent.run p cs := by
        simp [Extent.run, hc, Nat.add_comm]
      rw [hn]
      exact (goes_modify c cs).bind (ih (Nat.le_add_left ..))
    | false =>
      have hn : Extent.run p (c :: cs) = 0 := by simp [Extent.run, hc]
      rw [hn]
      exact goes_pure _ _

theorem goes_reading {program : Cursor α} {cs : List Char} {n : Nat} {a : α}
    (h : Goes text program cs n (.ok a)) :
    Goes text (reading text program) cs n (.ok (a, .ofList (cs.take n))) := by
  intro front ht
  have hs := slice?_append front (.ofList (cs.take n)) (.ofList (cs.drop n))
  rw [String.append_assoc, ← String.ofList_append, List.take_append_drop, ← ht] at hs
  simp only [reading, run_bind, run_get, run_lift, h front ht, hs, Option.bind_some,
    Option.map_some]
  rfl

theorem goes_reading_error {program : Cursor α} {cs : List Char} {n : Nat} {reason : Obstacle}
    (h : Goes text program cs n (.error reason)) :
    Goes text (reading text program) cs n (.error reason) := by
  intro front ht
  simp only [reading, run_bind, run_get, h front ht, Option.bind_some]

def closing (enclosure : Enclosure) : Option Nat → Except Obstacle Unit
  | some _ => .ok ()
  | none => .error (.unclosed enclosure)

theorem closing_map (enclosure : Enclosure) (found : Option Nat) (f : Nat → Nat) :
    closing enclosure (found.map f) = closing enclosure found := by
  cases found <;> rfl

theorem getD_map_add (found : Option Nat) (k l : Nat) :
    (found.map (· + k)).getD (l + k) = found.getD l + k := by
  cases found <;> rfl

theorem goes_closeQuote_of_le (enclosure : Enclosure) (mark : Char) {cs : List Char}
    (h : cs.length ≤ turns) :
    Goes text (closeQuote text (turns + 1) enclosure mark) cs
      ((Extent.quoted mark cs).getD cs.length) (closing enclosure (Extent.quoted mark cs)) := by
  fun_induction Extent.quoted mark cs generalizing turns with
  | case1 => exact goes_advance_nil.look (goes_throw _ _)
  | case2 =>
    refine (goes_advance _ _).step ?_
    dsimp only
    rw [if_pos rfl]
    exact (goes_accept_of_ne (by simp)).look (goes_pure _ _)
  | case3 c hc =>
    obtain ⟨turns, rfl⟩ := Nat.exists_eq_add_of_le' h
    refine (goes_advance _ _).step ?_
    dsimp only
    rw [if_neg hc]
    exact goes_advance_nil.look (goes_throw _ _)
  | case4 cs ih =>
    obtain ⟨turns, rfl⟩ := Nat.exists_eq_add_of_le' h
    rw [closing_map, List.length_cons, List.length_cons, getD_map_add]
    refine (goes_advance _ _).step ?_
    dsimp only
    rw [if_pos rfl]
    exact (goes_accept _ _).step (ih (by simp; omega))
  | case5 d cs hd =>
    refine (goes_advance _ _).step ?_
    dsimp only
    rw [if_pos rfl]
    exact (goes_accept_of_ne (by simpa using hd)).look (goes_pure _ _)
  | case6 c d cs hc ih =>
    obtain ⟨turns, rfl⟩ := Nat.exists_eq_add_of_le' h
    rw [closing_map, List.length_cons, getD_map_add]
    refine (goes_advance _ _).step ?_
    dsimp only
    rw [if_neg hc]
    exact ih (Nat.le_add_left ..)

theorem goes_closeComment_of_le (depth : Nat) {cs : List Char} (h : cs.length ≤ turns) :
    Goes text (closeComment text (turns + 1) depth) cs
      ((Extent.blockComment depth cs).getD cs.length)
      (closing .blockComment (Extent.blockComment depth cs)) := by
  fun_induction Extent.blockComment depth cs generalizing turns with
  | case1 cs =>
    refine (goes_advance _ _).step ?_
    dsimp only
    rw [if_pos rfl]
    exact (goes_accept _ _).step (goes_pure _ _)
  | case2 cs depth ih =>
    obtain ⟨turns, rfl⟩ := Nat.exists_eq_add_of_le' h
    rw [closing_map, List.length_cons, List.length_cons, getD_map_add]
    refine (goes_advance _ _).step ?_
    dsimp only
    rw [if_pos rfl]
    exact (goes_accept _ _).step (ih (by simp; omega))
  | case3 depth cs ih =>
    obtain ⟨turns, rfl⟩ := Nat.exists_eq_add_of_le' h
    rw [closing_map, List.length_cons, List.length_cons, getD_map_add]
    refine (goes_advance _ _).step ?_
    dsimp only
    rw [if_neg (show '/' ≠ '*' by decide), if_pos rfl]
    exact (goes_accept _ _).step (ih (by simp; omega))
  | case4 depth c cs hc ho ih =>
    obtain ⟨turns, rfl⟩ := Nat.exists_eq_add_of_le' h
    have hn := ih (Nat.le_add_left cs.length turns)
    rw [closing_map, List.length_cons, getD_map_add]
    refine (goes_advance _ _).step ?_
    dsimp only
    by_cases hs : c = '*'
    · subst hs
      rw [if_pos rfl]
      refine (goes_accept_of_ne fun hh => ?_).look hn
      obtain ⟨rest, rfl⟩ := List.head?_eq_some_iff.1 hh
      exact hc rest rfl rfl
    · rw [if_neg hs]
      by_cases hs : c = '/'
      · subst hs
        rw [if_pos rfl]
        refine (goes_accept_of_ne fun hh => ?_).look hn
        obtain ⟨rest, rfl⟩ := List.head?_eq_some_iff.1 hh
        exact ho rest rfl rfl
      · rw [if_neg hs]
        exact hn
  | case5 => exact goes_advance_nil.look (goes_throw _ _)

theorem goes_punctuation (c : Char) (cs : List Char) :
    Goes text (punctuation text) (c :: cs) (Extent.pair c cs + 1) (.ok ()) := by
  refine (goes_advance c cs).step ((goes_peek 0 cs).look ?_)
  cases cs with
  | nil => exact goes_pure _ _
  | cons d cs =>
    dsimp only [List.getElem?_cons_zero, Extent.pair]
    by_cases hp : (c, d) ∈ Extent.pairs
    · rw [if_pos hp, if_pos (List.contains_iff_mem.2 hp)]
      exact goes_discard (goes_advance d cs)
    · rw [if_neg hp, if_neg (mt List.contains_iff_mem.1 hp)]
      exact goes_pure _ _

section Turns

variable (enough : text.length < turns)

include enough

theorem goes_takeWhile (p : Char → Bool) (cs : List Char) :
    Goes text (takeWhile text turns p) cs (Extent.run p cs) (.ok (.ofList (cs.takeWhile p))) := by
  rw [← Extent.take_run]
  have hs : Goes text (skip text turns p) cs _ _ :=
    goes_loop (skip text · p) (fun _ => goes_skip_of_le p) enough
  exact (goes_reading hs).map Prod.snd

theorem goes_closeQuote (enclosure : Enclosure) (mark : Char) (cs : List Char) :
    Goes text (closeQuote text turns enclosure mark) cs ((Extent.quoted mark cs).getD cs.length)
      (closing enclosure (Extent.quoted mark cs)) :=
  goes_loop (closeQuote text · enclosure mark)
    (fun _ => goes_closeQuote_of_le enclosure mark) enough

theorem goes_closeComment (depth : Nat) (cs : List Char) :
    Goes text (closeComment text turns depth) cs ((Extent.blockComment depth cs).getD cs.length)
      (closing .blockComment (Extent.blockComment depth cs)) :=
  goes_loop (closeComment text · depth) (fun _ => goes_closeComment_of_le depth) enough

theorem goes_quoted (enclosure : Enclosure) (mark c : Char) (cs : List Char) :
    Goes text (quoted text turns enclosure mark) (c :: cs)
      ((Extent.quoted mark cs).getD cs.length + 1) (closing enclosure (Extent.quoted mark cs)) :=
  (goes_discard (goes_advance c cs)).step (goes_closeQuote enough enclosure mark cs)

theorem goes_blockComment (c d : Char) (cs : List Char) :
    Goes text (blockComment text turns) (c :: d :: cs)
      ((Extent.blockComment 0 cs).getD cs.length + 1 + 1)
      (closing .blockComment (Extent.blockComment 0 cs)) :=
  (goes_discard (goes_advance c _)).step
    ((goes_discard (goes_advance d cs)).step (goes_closeComment enough 0 cs))

theorem goes_digits (cs : List Char) :
    Goes text (digits text turns) cs (Extent.run Char.isDigit cs) (.ok ()) :=
  goes_discard (goes_takeWhile enough _ cs)

theorem goes_fraction (cs : List Char) :
    Goes text (fraction text turns) cs (Extent.fraction cs) (.ok ()) := by
  unfold Extent.fraction
  split
  · rename_i cs
    exact (goes_accept '.' cs).bind (goes_digits enough cs)
  · rename_i hc
    refine (goes_accept_of_ne fun hh => ?_).look (goes_pure _ _)
    obtain ⟨rest, rfl⟩ := List.head?_eq_some_iff.1 hh
    exact hc rest rfl

theorem goes_signedDigits (cs : List Char) :
    Goes text (do
        if cs.head? ∈ [some '+', some '-'] then
          discard (advance text)
        digits text turns) cs
      (Extent.sign cs + Extent.run Char.isDigit (cs.drop (Extent.sign cs))) (.ok ()) := by
  rw [Extent.sign_eq_ite]
  split
  · rename_i hs
    cases cs with
    | nil => exact absurd hs (by simp)
    | cons d cs =>
      rw [Nat.add_comm]
      exact (goes_discard (goes_advance d cs)).step (goes_digits enough cs)
  · rw [Nat.zero_add]
    exact goes_digits enough cs

theorem goes_exponent (cs : List Char) :
    Goes text (exponent text turns) cs (Extent.exponent cs) (.ok ()) := by
  refine (goes_peek 0 cs).look ?_
  cases cs with
  | nil => exact goes_pure _ _
  | cons c cs =>
    have hl : some c ∈ [some 'e', some 'E'] ↔ (c == 'e' || c == 'E') = true := by simp
    have hi : (if cs.head? ∈ [some '+', some '-'] then 2 else 1) = Extent.sign cs + 1 := by
      rw [Extent.sign_eq_ite]
      split <;> rfl
    have hd : (c :: cs)[Extent.sign cs + 1]?.any Char.isDigit =
        Extent.startsWithDigit (cs.drop (Extent.sign cs)) := by
      rw [Extent.startsWithDigit_eq_any, List.head?_drop, List.getElem?_cons_succ]
    rw [List.getElem?_cons_zero, Extent.exponent]
    cases hc : c == 'e' || c == 'E' with
    | false =>
      rw [if_neg (by simp [hl, hc]), Bool.false_and]
      exact goes_pure _ _
    | true =>
      rw [if_pos (hl.2 hc), Bool.true_and]
      refine (goes_peek 1 _).look ?_
      rw [List.getElem?_cons_succ, ← List.head?_eq_getElem?]
      dsimp only
      rw [hi]
      refine (goes_peek _ _).look ?_
      rw [hd]
      split
      · rw [Nat.add_assoc, Nat.add_comm 1]
        exact (goes_discard (goes_advance c cs)).step (goes_signedDigits enough cs)
      · exact goes_pure _ _

theorem goes_number (cs : List Char) :
    Goes text (number text turns) cs (Extent.number cs) (.ok ()) := by
  have hf (rest : List Char) : Goes text (do fraction text turns; exponent text turns) rest _ _ :=
    (goes_fraction enough rest).bind (goes_exponent enough _)
  have hn : Goes text (number text turns) cs _ _ := (goes_digits enough cs).bind (hf _)
  rwa [List.drop_drop, ← Nat.add_assoc] at hn

theorem goes_word (cs : List Char) :
    Goes text (word text turns) cs (Extent.run Extent.isWordPart cs)
      (.ok (Start.word (cs.takeWhile Extent.isWordPart))) := by
  refine (goes_takeWhile enough _ cs).bind (k := 0) ?_
  unfold Start.word
  split
  · exact goes_pure _ _
  · exact goes_pure _ _

end Turns

end Cursor

end SqlDispatch
