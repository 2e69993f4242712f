set_option autoImplicit false

/-!
Hexadecimal digits. They are written in small letters and read in either case.
-/

namespace SqlDispatch.Text

def hexDigits : List Char := "0123456789abcdef".toList

def hexDigit (n : Fin 16) : Char := hexDigits.get n

def hexValue (c : Char) : Option (Fin 16) :=
  (hexDigits.finIdxOf? c.toLower).map fun i => i

def lowNibble (n : Nat) : Fin 16 := ⟨n % 16, Nat.mod_lt n (by decide)⟩

theorem hexValue_hexDigit : ∀ n, hexValue (hexDigit n) = some n := by decide

end SqlDispatch.Text
