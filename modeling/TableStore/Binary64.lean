/-!
Non-negative binary floating-point numbers with 53 significant bits, by exact integer
arithmetic: a quotient is rounded once, to the nearest such number and a tie to the even one.
The exponents that occur are far from the limits of the format, so none is checked.
-/

namespace TableStore

/-- The nearest integer to a quotient, a tie going to the even one. -/
def roundDiv (num den : Nat) : Nat :=
  let q := num / den
  let r := num % den
  if den < 2 * r || (den = 2 * r && q % 2 = 1) then q + 1 else q

/-- The number `mantissa * 2 ^ exponent`. -/
structure Binary64 where
  mantissa : Nat
  exponent : Int

namespace Binary64

/-- The first of the 53 bits of a mantissa. -/
def leadingBit : Nat := 1 <<< 52

/-- A fraction scaled by a power of two, as numerator and denominator. -/
def scaled (num den : Nat) (exponent : Int) : Nat × Nat :=
  (num <<< exponent.toNat, den <<< (-exponent).toNat)

/-- Rounds a fraction in units of `2 ^ exponent`. -/
def roundTo (num den : Nat) (exponent : Int) : Nat :=
  let (n, d) := scaled num den (-exponent)
  roundDiv n d

/-- The number nearest to a fraction, with a mantissa of 53 bits unless it is zero. -/
def ofFraction (num den : Nat) : Binary64 :=
  if num = 0 then ⟨0, 0⟩
  else
    let guess : Int := (num.log2 : Int) - den.log2 - 52
    let (n, d) := scaled num den (-guess)
    let exponent := if n / d < leadingBit then guess - 1 else guess
    let mantissa := roundTo num den exponent
    if mantissa = 2 * leadingBit then ⟨leadingBit, exponent + 1⟩ else ⟨mantissa, exponent⟩

def fraction (x : Binary64) : Nat × Nat := scaled x.mantissa 1 x.exponent

def ofNat (n : Nat) : Binary64 := ofFraction n 1

def div (x y : Binary64) : Binary64 :=
  ofFraction (x.fraction.1 * y.fraction.2) (x.fraction.2 * y.fraction.1)

def mulNat (x : Binary64) (n : Nat) : Binary64 :=
  ofFraction (x.fraction.1 * n) x.fraction.2

/-- The bit pattern: the exponent biased by 1023, then the mantissa without its first bit. -/
def bits (x : Binary64) : Nat :=
  if x.mantissa = 0 then 0
  else (x.exponent + 52 + 1023).toNat * leadingBit + (x.mantissa - leadingBit)

def hex (x : Binary64) : String :=
  let digits := Nat.toDigits 16 x.bits
  String.ofList (List.replicate (16 - digits.length) '0' ++ digits)

/-- The exact value rounded to one decimal, a tie going to the even digit. -/
def oneDecimal (x : Binary64) : String :=
  let tenths := roundDiv (x.fraction.1 * 10) x.fraction.2
  s!"{tenths / 10}.{tenths % 10}"

end Binary64
end TableStore
