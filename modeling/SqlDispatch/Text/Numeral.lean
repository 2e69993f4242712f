set_option autoImplicit false

/-!
Whole numbers as text. A numeral is an optional sign and one or more decimal digits, and stands
for its exact value however long it is: a bound is the business of whoever accepts the value.
-/

namespace SqlDispatch.Text

def natural (cs : List Char) : Option Nat :=
  if cs ≠ [] ∧ cs.all Char.isDigit then some (Nat.ofDigitChars 10 cs 0) else none

/-- The digits of a number, the first of them zero for zero alone. -/
def digits (n : Nat) : List Char := Nat.toDigits 10 n

theorem natural_digits (n : Nat) : natural (digits n) = some n := by
  have hd : (digits n).all Char.isDigit = true :=
    List.all_eq_true.2 fun c hc => Nat.isDigit_of_mem_toDigits (by decide) (by decide) hc
  have hn : digits n ≠ [] := Nat.toDigits_ne_nil
  simp only [natural, hn, hd, ne_eq, not_false_eq_true, and_self, if_true, Option.some.injEq]
  exact Nat.ofDigitChars_toDigits (by decide) (by decide)

theorem natural_eq_some_iff {cs : List Char} {n : Nat} :
    natural cs = some n ↔
      cs ≠ [] ∧ (∀ c ∈ cs, c.isDigit = true) ∧ n = Nat.ofDigitChars 10 cs 0 := by
  unfold natural
  split
  · rename_i h
    simp only [List.all_eq_true] at h
    exact ⟨fun e => ⟨h.1, h.2, (Option.some.inj e).symm⟩, fun g => congrArg some g.2.2.symm⟩
  · rename_i h
    simp only [List.all_eq_true] at h
    simp only [reduceCtorEq, false_iff]
    exact fun g => h ⟨g.1, g.2.1⟩

def integer (text : String) : Option Int :=
  match text.toList with
  | '-' :: cs => (natural cs).map fun n => -(n : Int)
  | '+' :: cs => (natural cs).map Int.ofNat
  | cs => (natural cs).map Int.ofNat

/-- Reads a numeral that is not negative; a plus sign may stand before it. -/
def unsigned (text : String) : Option Nat :=
  match text.toList with
  | '+' :: cs => natural cs
  | cs => natural cs

def decimal (value : Int) : String :=
  match value with
  | .ofNat n => .ofList (digits n)
  | .negSucc n => .ofList ('-' :: digits (n + 1))

theorem head_digits_isDigit {n : Nat} {c : Char} {cs : List Char} (h : digits n = c :: cs) :
    c.isDigit = true :=
  Nat.isDigit_of_mem_toDigits (b := 10) (n := n) (by decide) (by decide)
    (by have : c ∈ digits n := by simp [h]
        exact this)

theorem integer_decimal (value : Int) : integer (decimal value) = some value := by
  cases value with
  | ofNat n =>
    unfold integer decimal
    simp only [String.toList_ofList]
    split
    · rename_i cs h
      exact absurd (head_digits_isDigit h) (by decide)
    · rename_i cs h
      exact absurd (head_digits_isDigit h) (by decide)
    · simp [natural_digits]
  | negSucc n =>
    simp [integer, decimal, natural_digits, Int.negSucc_eq]

end SqlDispatch.Text
