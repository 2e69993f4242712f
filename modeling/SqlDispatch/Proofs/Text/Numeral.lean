import Mathlib.Data.Nat.Digits.Defs
import SqlDispatch.Text.Numeral
import SqlDispatch.Token.Grammar

set_option autoImplicit false

/-!
The value of numerals. Said without reading, a numeral denotes the number that its digits make by
their places, and `integer` reads that number however long the numeral is (`integer_eq_some_iff`).
A word of 64 bits that is filled digit by digit overflows just where the whole number does not fit
it (`accumulate_eq`), so reading in words loses nothing that a word can hold (`word_eq`).
-/

namespace SqlDispatch

namespace Text

open Grammar

/-- The number that digits make by their places, the last of them counting ones. -/
def placeValue (cs : List Char) : Nat :=
  Nat.ofDigits 10 (cs.reverse.map fun c => c.toNat - '0'.toNat)

/-- The characters are one or more digits, after a sign or not, and stand for this number. -/
inductive Denotes : List Char → Int → Prop where
  | unsigned {cs : List Char} : cs ≠ [] → AreDigits cs → Denotes cs (placeValue cs)
  | plus {cs : List Char} : cs ≠ [] → AreDigits cs → Denotes ('+' :: cs) (placeValue cs)
  | minus {cs : List Char} : cs ≠ [] → AreDigits cs → Denotes ('-' :: cs) (-placeValue cs)

theorem placeValue_cons (c : Char) (cs : List Char) :
    placeValue (c :: cs) = placeValue cs + 10 ^ cs.length * (c.toNat - '0'.toNat) := by
  have h := Nat.ofDigits_reverse_cons (b := 10) (cs.map fun c => c.toNat - '0'.toNat)
    (c.toNat - '0'.toNat)
  simpa [placeValue, List.map_reverse] using h

theorem ofDigitChars_eq_placeValue (cs : List Char) :
    Nat.ofDigitChars 10 cs 0 = placeValue cs := by
  induction cs with
  | nil => rfl
  | cons c cs ih =>
    rw [Nat.ofDigitChars_cons, Nat.ofDigitChars_eq_ofDigitChars_zero, ih, placeValue_cons,
      Nat.mul_zero, Nat.zero_add, Nat.add_comm]

theorem natural_eq_some_placeValue {cs : List Char} (hn : cs ≠ []) (hd : AreDigits cs) :
    natural cs = some (placeValue cs) :=
  natural_eq_some_iff.2 ⟨hn, hd, (ofDigitChars_eq_placeValue cs).symm⟩

theorem eq_placeValue_of_natural {cs : List Char} {n : Nat} (h : natural cs = some n) :
    cs ≠ [] ∧ AreDigits cs ∧ n = placeValue cs := by
  obtain ⟨hn, hd, hv⟩ := natural_eq_some_iff.1 h
  exact ⟨hn, hd, hv.trans (ofDigitChars_eq_placeValue cs)⟩

def signed (negative : Bool) (n : Nat) : Int := if negative then -n else n

def splitSign : List Char → Bool × List Char
  | '-' :: cs => (true, cs)
  | '+' :: cs => (false, cs)
  | cs => (false, cs)

theorem splitSign_cases (cs : List Char) :
    cs = '-' :: (splitSign cs).2 ∧ (splitSign cs).1 = true ∨
      cs = '+' :: (splitSign cs).2 ∧ (splitSign cs).1 = false ∨ splitSign cs = (false, cs) := by
  unfold splitSign
  split
  · exact .inl ⟨rfl, rfl⟩
  · exact .inr (.inl ⟨rfl, rfl⟩)
  · exact .inr (.inr rfl)

theorem splitSign_of_areDigits {cs : List Char} (h : AreDigits cs) :
    splitSign cs = (false, cs) := by
  rcases splitSign_cases cs with ⟨hc, _⟩ | ⟨hc, _⟩ | hs
  · exact absurd (h '-' (hc ▸ List.mem_cons_self)) (by decide)
  · exact absurd (h '+' (hc ▸ List.mem_cons_self)) (by decide)
  · exact hs

theorem integer_eq_splitSign (text : String) :
    integer text =
      (natural (splitSign text.toList).2).map (signed (splitSign text.toList).1) := by
  unfold integer
  generalize text.toList = cs
  split
  · rw [splitSign]
    cases natural _ <;> rfl
  · rfl
  · rename_i hm hp
    rw [splitSign]
    · rfl
    · exact hm
    · exact hp

theorem denotes_iff {cs : List Char} {value : Int} :
    Denotes cs value ↔ (splitSign cs).2 ≠ [] ∧ AreDigits (splitSign cs).2 ∧
      value = signed (splitSign cs).1 (placeValue (splitSign cs).2) := by
  constructor
  · intro h
    cases h with
    | unsigned hn hd =>
      rw [splitSign_of_areDigits hd]
      exact ⟨hn, hd, rfl⟩
    | plus hn hd => exact ⟨hn, hd, rfl⟩
    | minus hn hd => exact ⟨hn, hd, rfl⟩
  · rintro ⟨hn, hd, rfl⟩
    rcases splitSign_cases cs with ⟨hc, hs⟩ | ⟨hc, hs⟩ | hs
    · rw [hs, hc]
      exact .minus hn hd
    · rw [hs, hc]
      exact .plus hn hd
    · rw [hs] at hn hd ⊢
      exact .unsigned hn hd

theorem integer_eq_some_iff {text : String} {value : Int} :
    integer text = some value ↔ Denotes text.toList value := by
  rw [integer_eq_splitSign, denotes_iff, Option.map_eq_some_iff]
  constructor
  · intro h
    obtain ⟨n, hn, rfl⟩ := h
    obtain ⟨hne, hd, rfl⟩ := eq_placeValue_of_natural hn
    exact ⟨hne, hd, rfl⟩
  · intro h
    obtain ⟨hne, hd, rfl⟩ := h
    exact ⟨_, natural_eq_some_placeValue hne hd, rfl⟩

theorem Denotes.functional {cs : List Char} {a b : Int} (ha : Denotes cs a) (hb : Denotes cs b) :
    a = b := by
  rw [← String.toList_ofList (l := cs), ← integer_eq_some_iff] at ha hb
  exact Option.some.inj (ha.symm.trans hb)

def wordOf (value : Int) : Option Int64 :=
  if Int64.minValue.toInt ≤ value ∧ value ≤ Int64.maxValue.toInt then some (.ofInt value) else none

/-- A word filled with digits one after another, each added to ten times what there is, or taken
away from it below zero. There is none if it overflows on the way. -/
def accumulate (negative : Bool) : Int64 → List Char → Option Int64
  | word, [] => some word
  | word, c :: cs =>
    (wordOf (word.toInt * 10)).bind fun tenfold =>
      (wordOf (tenfold.toInt + signed negative (c.toNat - '0'.toNat))).bind fun next =>
        accumulate negative next cs

def wordOfDigits (negative : Bool) (cs : List Char) : Option Int64 :=
  if cs ≠ [] ∧ cs.all Char.isDigit then accumulate negative 0 cs else none

def word (text : String) : Option Int64 :=
  wordOfDigits (splitSign text.toList).1 (splitSign text.toList).2

theorem wordOf_eq_some_iff {value : Int} {word : Int64} :
    wordOf value = some word ↔ word.toInt = value := by
  unfold wordOf
  constructor
  · intro h
    split at h
    · rename_i hv
      obtain rfl := Option.some.inj h
      rw [Int64.toInt_minValue, Int64.toInt_maxValue] at hv
      exact Int64.toInt_ofInt_of_le hv.1 (by omega)
    · cases h
  · rintro rfl
    rw [if_pos ⟨word.minValue_le_toInt, word.toInt_le⟩, Int64.ofInt_toInt]

theorem wordOf_toInt (word : Int64) : wordOf word.toInt = some word := wordOf_eq_some_iff.2 rfl

theorem wordOf_signed_eq_none {negative : Bool} {m n : Nat} (hl : m ≤ n)
    (h : wordOf (signed negative m) = none) : wordOf (signed negative n) = none := by
  unfold wordOf at h ⊢
  rw [Int64.toInt_minValue, Int64.toInt_maxValue] at h ⊢
  rw [ite_eq_right_iff] at h ⊢
  intro hn
  refine absurd (h ?_) (by simp)
  cases negative <;> simp only [signed, Bool.false_eq_true, if_false, if_true] at hn ⊢ <;> omega

theorem le_ofDigitChars (cs : List Char) (n : Nat) : n ≤ Nat.ofDigitChars 10 cs n := by
  rw [Nat.ofDigitChars_eq_ofDigitChars_zero]
  have hp : 0 < 10 ^ cs.length := Nat.pow_pos (by decide)
  exact Nat.le_add_right_of_le (Nat.le_mul_of_pos_left n hp)

/-- A word overflows on the way just if it cannot hold the number at the end of it. -/
theorem accumulate_eq {negative : Bool} {word : Int64} {n : Nat}
    (h : word.toInt = signed negative n) (cs : List Char) :
    accumulate negative word cs = wordOf (signed negative (Nat.ofDigitChars 10 cs n)) := by
  induction cs generalizing word n with
  | nil => exact (wordOf_eq_some_iff.2 h).symm
  | cons c cs ih =>
    have ht : word.toInt * 10 = signed negative (10 * n) := by
      rw [h]
      cases negative <;> simp only [signed, Bool.false_eq_true, if_false, if_true] <;> omega
    have hd : signed negative (10 * n) + signed negative (c.toNat - '0'.toNat) =
        signed negative (10 * n + (c.toNat - '0'.toNat)) := by
      cases negative <;> simp only [signed, Bool.false_eq_true, if_false, if_true] <;> omega
    have hle := le_ofDigitChars cs (10 * n + (c.toNat - '0'.toNat))
    rw [accumulate, ht, Nat.ofDigitChars_cons]
    -- whatever does not fit on the way is no closer to zero in the end
    cases htenfold : wordOf (signed negative (10 * n)) with
    | none => exact (wordOf_signed_eq_none (by omega) htenfold).symm
    | some tenfold =>
      rw [Option.bind_some, wordOf_eq_some_iff.1 htenfold, hd]
      cases hnext : wordOf (signed negative (10 * n + (c.toNat - '0'.toNat))) with
      | none => exact (wordOf_signed_eq_none hle hnext).symm
      | some next => exact ih (wordOf_eq_some_iff.1 hnext)

theorem wordOfDigits_eq (negative : Bool) (cs : List Char) :
    wordOfDigits negative cs = (natural cs).bind fun n => wordOf (signed negative n) := by
  unfold wordOfDigits natural
  have h : (0 : Int64).toInt = signed negative 0 := by cases negative <;> rfl
  split
  · rw [Option.bind_some, accumulate_eq h]
  · rfl

theorem word_eq (text : String) : word text = (integer text).bind wordOf := by
  rw [word, wordOfDigits_eq, integer_eq_splitSign, Option.bind_map]
  rfl

theorem word_eq_some_iff {text : String} {w : Int64} :
    word text = some w ↔ Denotes text.toList w.toInt := by
  rw [word_eq, Option.bind_eq_some_iff]
  constructor
  · intro h
    obtain ⟨value, hv, hw⟩ := h
    rw [wordOf_eq_some_iff.1 hw]
    exact integer_eq_some_iff.1 hv
  · intro h
    exact ⟨w.toInt, integer_eq_some_iff.2 h, wordOf_toInt w⟩

example : (word "-9223372036854775808", word "+0009223372036854775807", word "9223372036854775808",
    word "-9223372036854775809", word "-0") =
      (some Int64.minValue, some Int64.maxValue, none, none, some 0) := by
  decide +kernel

end Text

end SqlDispatch
