import SqlDispatch.Text.Numeral
import SqlDispatch.Text.Shortest

set_option autoImplicit false

/-!
Numbers in 64 bits and their text. A number is written with the shortest digits that stand for it.
There is a point with a digit on either side of it unless the number is very large or very small:
then the point follows the first digit, if there is more than one, and the power of ten comes last.
-/

namespace SqlDispatch.Text

/-- A number by its sign bit, its 11 bits of exponent and its 52 bits of fraction. -/
structure Binary64 where
  bits : UInt64
  deriving DecidableEq, Repr

namespace Binary64

def isNegative (number : Binary64) : Bool := 9223372036854775808 ≤ number.bits.toNat

def biased (number : Binary64) : Nat := number.bits.toNat / 4503599627370496 % 2048

def fraction (number : Binary64) : Nat := number.bits.toNat % 4503599627370496

def isFinite (number : Binary64) : Bool := number.biased != 2047

def magnitude (number : Binary64) : Binary where
  significand := if number.biased = 0 then number.fraction else 4503599627370496 + number.fraction
  exponent := (max number.biased 1 : Nat) - 1075
  narrowBelow := number.fraction = 0 ∧ 1 < number.biased

/-- The least and the greatest power of ten of a first digit that is written without a power. -/
def plainPowers : Int × Int := (-5, 15)

def zeros (n : Nat) : List Char := List.replicate n '0'

/-- Digits with a point before the first of them or after the last or in between, where `whole`
digits, which may be fewer than none, stand before the point. -/
def plain (digits : List Char) (whole : Int) : List Char :=
  match whole with
  | .ofNat 0 => '0' :: '.' :: digits
  | .negSucc n => '0' :: '.' :: zeros (n + 1) ++ digits
  | .ofNat n =>
    let rest := digits.drop n
    digits.take n ++ zeros (n - digits.length) ++ '.' :: if rest = [] then ['0'] else rest

def scientific (digits : List Char) (power : Int) : List Char :=
  digits.take 1 ++ (if digits.length ≤ 1 then [] else '.' :: digits.drop 1) ++
    'e' :: (if power < 0 then '-' else '+') :: Text.digits power.natAbs

def layout (decimal : Decimal) : List Char :=
  let digits := Text.digits decimal.digits
  let power := decimal.exponent + digits.length - 1
  if plainPowers.1 ≤ power ∧ power ≤ plainPowers.2 then plain digits (power + 1)
  else scientific digits power

def chars (number : Binary64) : List Char :=
  let sign := if number.isNegative then ['-'] else []
  sign ++
    if number.magnitude.significand = 0 then "0.0".toList
    else layout number.magnitude.shortest

def text (number : Binary64) : String := .ofList number.chars

example : text ⟨0x3FF8000000000000⟩ = "1.5" := by decide +kernel
example : text ⟨0x8000000000000000⟩ = "-0.0" := by decide +kernel
example : text ⟨0x3FD3333333333334⟩ = "0.30000000000000004" := by decide +kernel
example : text ⟨0x430C6BF526340000⟩ = "1000000000000000.0" := by decide +kernel
example : text ⟨0x4341C37937E08000⟩ = "1e+16" := by decide +kernel
example : text ⟨0x3EE4F8B588E368F1⟩ = "0.00001" := by decide +kernel
example : text ⟨0x3E8421F5F40D8376⟩ = "1.5e-7" := by decide +kernel
example : text ⟨1⟩ = "5e-324" := by decide +kernel

end Binary64

end SqlDispatch.Text
