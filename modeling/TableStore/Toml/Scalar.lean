import TableStore.Toml.Text

/-!
Numbers, dates and times in TOML. Of these values nothing is kept but that they are well
formed, so each reader returns what stands behind the value.
-/

namespace TableStore.Toml.Scalar

/-- Reads digits with single underscores between them, as they go on behind a digit. -/
def moreDigits (isDigit : Char → Bool) : List Char → List Char × List Char
  | [] => ([], [])
  | [c] => if isDigit c then ([c], []) else ([], [c])
  | c :: d :: rest =>
    if isDigit c then
      let (digits, rest) := moreDigits isDigit (d :: rest)
      (c :: digits, rest)
    else if c = '_' ∧ isDigit d then
      let (digits, rest) := moreDigits isDigit rest
      (d :: digits, rest)
    else ([], c :: d :: rest)

def digits? (isDigit : Char → Bool) : List Char → Option (List Char × List Char)
  | [] => none
  | c :: rest =>
    if isDigit c then
      let (digits, rest) := moreDigits isDigit rest
      some (c :: digits, rest)
    else none

/-- Reads the digits of a decimal integer, which has no needless zero in front. -/
def whole? : List Char → Option (List Char × List Char)
  | '0' :: rest => some (['0'], rest)
  | cs => digits? Char.isDigit cs

/-- Reads an optional sign and tells whether it is a minus. -/
def sign : List Char → Bool × List Char
  | '-' :: rest => (true, rest)
  | '+' :: rest => (false, rest)
  | cs => (false, cs)

def decimal (digits : List Char) : Nat := Nat.ofDigitChars 10 digits 0

/-- The least number that rounds to no finite binary floating-point number. -/
def overflow : Nat := 1 <<< 1024 - 1 <<< 970

/-- Whether `mantissa * 10 ^ exponent` rounds to a finite number. -/
def isFinite (mantissa : Nat) (exponent : Int) : Bool :=
  mantissa = 0 ||
    if 0 ≤ exponent then exponent < 400 && mantissa * Nat.pow 10 exponent.toNat < overflow
    else
      let shift := (-exponent).toNat
      (Nat.toDigits 10 mantissa).length ≤ shift || mantissa < overflow * Nat.pow 10 shift

def exponent? : List Char → Option (Int × List Char)
  | [] => none
  | e :: cs =>
    if e = 'e' ∨ e = 'E' then do
      let (negative, cs) := sign cs
      let (digits, rest) ← digits? Char.isDigit cs
      return (if negative then -(decimal digits : Int) else decimal digits, rest)
    else none

/-- Reads a number with a fraction or an exponent. A positive one that is too large is none. -/
def float? (cs : List Char) : Option (List Char) := do
  let (negative, cs) := sign cs
  let (whole, cs) ← whole? cs
  let (fraction, exponent, rest) ← match cs with
    | '.' :: cs => do
      let (fraction, cs) ← digits? Char.isDigit cs
      match exponent? cs with
      | some (exponent, rest) => some (fraction, exponent, rest)
      | none => some (fraction, 0, cs)
    | cs => (exponent? cs).map fun r => ([], r)
  if negative || isFinite (decimal (whole ++ fraction)) (exponent - fraction.length) then some rest
  else none

/-- Reads `inf` or `nan` with an optional sign. -/
def special? (cs : List Char) : Option (List Char) :=
  match (sign cs).2 with
  | 'i' :: 'n' :: 'f' :: rest => some rest
  | 'n' :: 'a' :: 'n' :: rest => some rest
  | _ => none

/-- The least number that is too large for an integer of 64 bits. -/
def integerBound : Nat := 1 <<< 63

def based? (base : Nat) (cs : List Char) : Option (List Char) := do
  let (digits, rest) ← digits? (fun c => (Hex.value? c).any (· < base)) cs
  let n := digits.foldl (fun n c => n * base + (Hex.value? c).getD 0) 0
  if n < integerBound then some rest else none

def integer? : List Char → Option (List Char)
  | '0' :: 'x' :: rest => based? 16 rest
  | '0' :: 'o' :: rest => based? 8 rest
  | '0' :: 'b' :: rest => based? 2 rest
  | cs => do
    let (negative, cs) := sign cs
    let (digits, rest) ← whole? cs
    if decimal digits < integerBound ∨ (negative ∧ decimal digits = integerBound) then some rest
    else none

/-- Reads a number of exactly so many digits that lies between two bounds. -/
def bounded? (length low high : Nat) (cs : List Char) : Option (Nat × List Char) :=
  let digits := cs.take length
  if digits.length = length ∧ digits.all Char.isDigit ∧
      low ≤ decimal digits ∧ decimal digits ≤ high then
    some (decimal digits, cs.drop length)
  else none

def expect? (accepts : Char → Bool) : List Char → Option (List Char)
  | [] => none
  | c :: rest => if accepts c then some rest else none

def daysInMonth (year month : Nat) : Nat :=
  if month = 2 then
    if year % 4 = 0 ∧ (year % 100 ≠ 0 ∨ year % 400 = 0) then 29 else 28
  else if month = 4 ∨ month = 6 ∨ month = 9 ∨ month = 11 then 30
  else 31

def date? (cs : List Char) : Option (List Char) := do
  let (year, cs) ← bounded? 4 0 9999 cs
  let (month, cs) ← bounded? 2 1 12 (← expect? (· == '-') cs)
  let (_, rest) ← bounded? 2 1 (daysInMonth year month) (← expect? (· == '-') cs)
  return rest

def time? (cs : List Char) : Option (List Char) := do
  let (_, cs) ← bounded? 2 0 23 cs
  let (_, cs) ← bounded? 2 0 59 (← expect? (· == ':') cs)
  let (_, cs) ← bounded? 2 0 60 (← expect? (· == ':') cs)
  match cs with
  | '.' :: fraction =>
    if (fraction.takeWhile Char.isDigit).isEmpty then none
    else some (fraction.dropWhile Char.isDigit)
  | cs => some cs

def offset? : List Char → Option (List Char)
  | [] => none
  | c :: cs =>
    if c = 'Z' ∨ c = 'z' then some cs
    else if c = '+' ∨ c = '-' then do
      let (_, cs) ← bounded? 2 0 23 cs
      let (_, rest) ← bounded? 2 0 59 (← expect? (· == ':') cs)
      return rest
    else none

def moment? (cs : List Char) : Option (List Char) :=
  match date? cs with
  | some rest =>
    match expect? (fun c => c == 'T' || c == 't' || c == ' ') rest >>= time? with
    | some rest => some ((offset? rest).getD rest)
    | none => some rest
  | none => time? cs

def number? (cs : List Char) : Option (List Char) :=
  match float? cs with
  | some rest => some rest
  | none =>
    match special? cs with
    | some rest => some rest
    | none => integer? cs

end TableStore.Toml.Scalar
