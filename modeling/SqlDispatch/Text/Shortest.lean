set_option autoImplicit false

/-!
Decimals for binary numbers. The reals that round to a binary number lie between the two points half
way to its neighbours, and these points belong to them if the significand is even. Of the decimals
among them the shortest is taken, of several such the nearest to the number, and of two equally near
the even one.
-/

namespace SqlDispatch.Text

/-- The number `significand * 2 ^ exponent`. -/
structure Binary where
  significand : Nat
  exponent : Int
  /-- The number below is half as far away as the number above. -/
  narrowBelow : Bool
  deriving DecidableEq, Repr

/-- The number `digits * 10 ^ exponent`. -/
structure Decimal where
  digits : Nat
  exponent : Int
  deriving DecidableEq, Repr

def Decimal.next (decimal : Decimal) : Decimal := { decimal with digits := decimal.digits + 1 }

/-- What a number is multiplied by to bring it from one unit to another, as a quotient. -/
structure Ratio where
  up : Nat
  down : Nat
  deriving DecidableEq, Repr

namespace Binary

def ratio (number : Binary) (exponent : Int) : Ratio where
  up := Nat.pow 2 (number.exponent - 2).toNat * Nat.pow 10 (-exponent).toNat
  down := Nat.pow 2 (2 - number.exponent).toNat * Nat.pow 10 exponent.toNat

def quarters (number : Binary) : Nat := 4 * number.significand

/-- The least of the reals that round to the number, in quarters. -/
def least (number : Binary) : Nat :=
  number.quarters - if number.narrowBelow then 1 else 2

def greatest (number : Binary) : Nat := number.quarters + 2

def reads (number : Binary) (decimal : Decimal) : Bool :=
  let ratio := number.ratio decimal.exponent
  let value := decimal.digits * ratio.down
  let low := number.least * ratio.up
  let high := number.greatest * ratio.up
  low < value && value < high ||
    number.significand % 2 == 0 && (value == low || value == high)

def below (number : Binary) (exponent : Int) : Decimal :=
  let ratio := number.ratio exponent
  ⟨number.quarters * ratio.up / ratio.down, exponent⟩

def nearer (number : Binary) (decimal : Decimal) : Decimal :=
  let ratio := number.ratio decimal.exponent
  match compare (2 * number.quarters * ratio.up) ((2 * decimal.digits + 1) * ratio.down) with
  | .lt => decimal
  | .gt => decimal.next
  | .eq => if decimal.digits % 2 = 0 then decimal else decimal.next

/-- The decimal with this exponent that is nearest to the number among those that round to it. -/
def nearest? (number : Binary) (exponent : Int) : Option Decimal :=
  let low := number.below exponent
  let high := low.next
  match number.reads low, number.reads high with
  | true, true => some (number.nearer low)
  | true, false => some low
  | false, true => some high
  | false, false => none

def exact (number : Binary) : Decimal :=
  match number.exponent with
  | .ofNat n => ⟨number.significand * Nat.pow 2 n, 0⟩
  | .negSucc n => ⟨number.significand * Nat.pow 5 (n + 1), .negSucc n⟩

def wholeDigits (number : Binary) : Nat :=
  (Nat.toDigits 10 (number.below 0).digits).length

/-- The exponents at which decimals are tried, from the number of digits before the point down. -/
def exponents (number : Binary) : List Int :=
  let top := number.wholeDigits
  (List.range (top + number.exponent.natAbs + 2)).map fun (n : Nat) => (top : Int) - (n : Int)

def shortest (number : Binary) : Decimal :=
  (number.exponents.findSome? number.nearest?).getD number.exact

end Binary

end SqlDispatch.Text
