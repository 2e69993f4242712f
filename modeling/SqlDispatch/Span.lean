set_option autoImplicit false

/-!
Lengths of time, exact to the nanosecond.
-/

namespace SqlDispatch

structure Span where
  nanoseconds : Nat
  deriving DecidableEq, Repr

namespace Span

def ofMilliseconds (n : Nat) : Span := ⟨n * 1000000⟩

def ofSeconds (n : Nat) : Span := ⟨n * 1000000000⟩

def milliseconds (span : Span) : Nat := span.nanoseconds / 1000000

def seconds (span : Span) : Nat := span.nanoseconds / 1000000000

theorem seconds_ofSeconds (n : Nat) : (ofSeconds n).seconds = n :=
  Nat.mul_div_cancel n (by decide)

/-- A limit on time given as a whole number of seconds, where zero is no limit. -/
def limit (seconds : Nat) : Option Span := if seconds = 0 then none else some (ofSeconds seconds)

end Span

end SqlDispatch
