import TableStore.Hex

/-!
Strings in TOML. There are four styles: in quotation marks escapes count, in apostrophes the
text stands as it is, and either kind may run over several lines between tripled marks, where
a line break right behind the opening marks does not count.
-/

namespace TableStore.Toml

/-- What may stand in a line of text: everything but the control characters, of which only
the tab may. -/
def isTextChar (c : Char) : Bool := c == '\t' || 0x20 ≤ c.toNat && c.toNat != 0x7F

def isBlank (c : Char) : Bool := c == ' ' || c == '\t'

def dropBreak? : List Char → Option (List Char)
  | '\n' :: rest => some rest
  | '\r' :: '\n' :: rest => some rest
  | _ => none

namespace Text

/-! ### Reading -/

def hexValue? (cs : List Char) : Option Nat :=
  cs.foldlM (fun n c => (Hex.value? c).map (n * 16 + ·)) 0

/-- The character with the code point that the next `digits` characters name. -/
def codePoint? (digits : Nat) (cs : List Char) : Option Char := do
  let n ← hexValue? (cs.take digits)
  if digits ≤ cs.length ∧ n.isValidChar then some (Char.ofNat n) else none

/-- The character that an escape stands for and the number of characters that it takes
behind the backslash. -/
def escape? : List Char → Option (Char × Nat)
  | 'b' :: _ => some ('\x08', 1)
  | 't' :: _ => some ('\t', 1)
  | 'n' :: _ => some ('\n', 1)
  | 'f' :: _ => some ('\x0c', 1)
  | 'r' :: _ => some ('\r', 1)
  | '"' :: _ => some ('"', 1)
  | '\\' :: _ => some ('\\', 1)
  | 'u' :: rest => (codePoint? 4 rest).map (·, 5)
  | 'U' :: rest => (codePoint? 8 rest).map (·, 9)
  | _ => none

def spaceLength : List Char → Nat
  | ' ' :: rest => spaceLength rest + 1
  | '\t' :: rest => spaceLength rest + 1
  | '\n' :: rest => spaceLength rest + 1
  | '\r' :: '\n' :: rest => spaceLength rest + 2
  | _ => 0

/-- The length of an escaped line break behind its backslash: blanks, the line break, and
all blanks and line breaks that follow. -/
def continuation? (cs : List Char) : Option Nat :=
  let blanks := (cs.takeWhile isBlank).length
  if (dropBreak? (cs.drop blanks)).isSome then some (spaceLength cs) else none

/-- Reads the rest of a string in quotation marks on one line, of which `skip` characters
are already understood. The result is the text, and what stands behind the closing mark. -/
def basic? : (skip : Nat) → List Char → Option (List Char × List Char)
  | _, [] => none
  | skip + 1, _ :: rest => basic? skip rest
  | 0, '"' :: rest => some ([], rest)
  | 0, '\\' :: rest => do
    let (c, length) ← escape? rest
    let (content, rest) ← basic? length rest
    return (c :: content, rest)
  | 0, c :: rest =>
    if isTextChar c then (basic? 0 rest).map fun r => (c :: r.1, r.2) else none

/-- Reads the rest of a string in apostrophes on one line. -/
def literal? : List Char → Option (List Char × List Char)
  | [] => none
  | '\'' :: rest => some ([], rest)
  | c :: rest =>
    if isTextChar c then (literal? rest).map fun r => (c :: r.1, r.2) else none

/-- The end of a string between tripled marks, at a mark. Up to five marks may stand here: the
last three close the string, and those before them belong to the text. -/
def closing? (mark : Char) (cs : List Char) : Option (List Char × List Char) :=
  let marks := (cs.takeWhile (· == mark)).length
  if 3 ≤ marks ∧ marks ≤ 5 then some (List.replicate (marks - 3) mark, cs.drop marks) else none

/-- Reads the rest of a string between tripled marks. In quotation marks (`escapes`) a
backslash escapes a character or the end of a line; a line break is read as a line feed. -/
def lines? (mark : Char) (escapes : Bool) : (skip : Nat) → List Char →
    Option (List Char × List Char)
  | _, [] => none
  | skip + 1, _ :: rest => lines? mark escapes skip rest
  | 0, c :: rest =>
    if c = mark then
      if rest.take 2 = [mark, mark] then closing? mark (c :: rest)
      else (lines? mark escapes 0 rest).map fun r => (c :: r.1, r.2)
    else if c = '\\' ∧ escapes then
      match continuation? rest, escape? rest with
      | some length, _ => lines? mark escapes length rest
      | none, some (d, length) => (lines? mark escapes length rest).map fun r => (d :: r.1, r.2)
      | none, none => none
    else if c = '\n' then (lines? mark escapes 0 rest).map fun r => ('\n' :: r.1, r.2)
    else if c = '\r' ∧ rest.head? = some '\n' then lines? mark escapes 0 rest
    else if isTextChar c then (lines? mark escapes 0 rest).map fun r => (c :: r.1, r.2)
    else none

/-- Reads a string on one line, as keys are written too. -/
def readLine? : List Char → Option (List Char × List Char)
  | '"' :: rest => basic? 0 rest
  | '\'' :: rest => literal? rest
  | _ => none

def dropFirstBreak (cs : List Char) : List Char := (dropBreak? cs).getD cs

def read? : List Char → Option (List Char × List Char)
  | '"' :: '"' :: '"' :: rest => lines? '"' true 0 (dropFirstBreak rest)
  | '\'' :: '\'' :: '\'' :: rest => lines? '\'' false 0 (dropFirstBreak rest)
  | cs => readLine? cs

/-! ### Writing -/

inductive Style where
  | basic
  | literal
  | basicLines
  | literalLines
  deriving DecidableEq

/-- The longest run of a mark, given the longest so far and the length of the one at hand. -/
def longestRun (mark : Char) (longest run : Nat) : List Char → Nat
  | [] => longest
  | c :: rest =>
    if c = mark then longestRun mark (max longest (run + 1)) (run + 1) rest
    else longestRun mark longest 0 rest

/-- Whether the character can be written by an escape alone. -/
def needsEscape (c : Char) : Bool := !isTextChar c && c != '\n'

/-- The style of a text: the first that needs no escape, in the order quotation marks,
apostrophes, and the two over several lines; and if all do, quotation marks. -/
def style (cs : List Char) : Style :=
  let quotes := longestRun '"' 0 0 cs
  let apostrophes := longestRun '\'' 0 0 cs
  let plain := !cs.any needsEscape
  let backslash := cs.contains '\\'
  let broken := cs.contains '\n'
  if plain && !backslash && quotes = 0 && !broken then .basic
  else if plain && apostrophes = 0 && !broken then .literal
  else if plain && !backslash && quotes ≤ 2 then .basicLines
  else if plain && apostrophes ≤ 2 then .literalLines
  else if broken then .basicLines
  else .basic

/-- A character in quotation marks; `broken` tells whether line feeds may stand as they are. -/
def escape (broken : Bool) (c : Char) : List Char :=
  match c with
  | '\x08' => ['\\', 'b']
  | '\t' => ['\\', 't']
  | '\n' => if broken then ['\n'] else ['\\', 'n']
  | '\x0c' => ['\\', 'f']
  | '\r' => ['\\', 'r']
  | '\\' => ['\\', '\\']
  | c =>
    if c.toNat < 0x20 ∨ c.toNat = 0x7F then
      ['\\', 'u', '0', '0', Hex.upper (c.toNat / 16), Hex.upper (c.toNat % 16)]
    else [c]

/-- The text in quotation marks; over several lines two marks in a row need no escape. -/
def escapeAll (broken : Bool) : (run : Nat) → List Char → List Char
  | _, [] => []
  | run, c :: rest =>
    if c = '"' then
      if broken ∧ run < 2 then '"' :: escapeAll broken (run + 1) rest
      else '\\' :: '"' :: escapeAll broken 0 rest
    else escape broken c ++ escapeAll broken 0 rest

/-- What stands behind tripled opening marks: a line break, if the text holds one itself. -/
def opening (cs : List Char) : List Char := if cs.contains '\n' then ['\n'] else []

def writeAs (cs : List Char) : Style → List Char
  | .basic => '"' :: escapeAll false 0 cs ++ ['"']
  | .literal => '\'' :: cs ++ ['\'']
  | .basicLines => '"' :: '"' :: '"' :: opening cs ++ escapeAll true 0 cs ++ ['"', '"', '"']
  | .literalLines => '\'' :: '\'' :: '\'' :: opening cs ++ cs ++ ['\'', '\'', '\'']

def write (s : String) : List Char := writeAs s.toList (style s.toList)

end Text
end TableStore.Toml
