/-!
Hexadecimal digits.
-/

namespace TableStore.Hex

/-- The value of a digit in either case. -/
def value? (c : Char) : Option Nat :=
  if '0' ≤ c ∧ c ≤ '9' then some (c.toNat - '0'.toNat)
  else if 'a' ≤ c ∧ c ≤ 'f' then some (c.toNat - 'a'.toNat + 10)
  else if 'A' ≤ c ∧ c ≤ 'F' then some (c.toNat - 'A'.toNat + 10)
  else none

/-- The lower-case digit of a value below 16. -/
def lower (n : Nat) : Char := (Nat.toDigits 16 n).headD '0'

/-- The upper-case digit of a value below 16. -/
def upper (n : Nat) : Char := (lower n).toUpper

end TableStore.Hex
