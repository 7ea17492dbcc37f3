import TableStore.Json.Tree

/-!
JSON values as text, on one line or indented. The two layouts differ in white space alone.
-/

namespace TableStore.Json

structure Layout where
  /-- What stands before an item, a member or the closing bracket, by the depth of nesting. -/
  lineBreak : Nat → List Char
  afterColon : List Char

namespace Layout

def compact : Layout := ⟨fun _ => [], []⟩

/-- A line per item and member, indented by two spaces per level, and a space after colons. -/
def pretty : Layout := ⟨fun depth => '\n' :: List.replicate (2 * depth) ' ', [' ']⟩

end Layout

/-- A character in a string literal: quotes, backslashes and the characters below U+0020 are
escaped, by a letter where there is one; all others stand as they are. -/
def escape (c : Char) : List Char :=
  match c with
  | '"' => ['\\', '"']
  | '\\' => ['\\', '\\']
  | '\x08' => ['\\', 'b']
  | '\x0c' => ['\\', 'f']
  | '\n' => ['\\', 'n']
  | '\r' => ['\\', 'r']
  | '\t' => ['\\', 't']
  | c =>
    if c.toNat < 0x20 then
      ['\\', 'u', '0', '0', Hex.lower (c.toNat / 16), Hex.lower (c.toNat % 16)]
    else [c]

/-- The literal of a string. One that stands for no text is spelled as a lone half of a pair. -/
def quote : Option String → List Char
  | some s => '"' :: s.toList.flatMap escape ++ ['"']
  | none => ['"', '\\', 'u', 'd', '8', '0', '0', '"']

mutual

/-- Prints a value that stands at a depth of nesting. -/
def print (l : Layout) (depth : Nat) : Json → List Char
  | null => ['n', 'u', 'l', 'l']
  | boolean true => ['t', 'r', 'u', 'e']
  | boolean false => ['f', 'a', 'l', 's', 'e']
  | number n => n.spell
  | text content => quote content
  | array [] => ['[', ']']
  | array (j :: rest) =>
    '[' :: l.lineBreak (depth + 1) ++ print l (depth + 1) j ++ printItems l (depth + 1) rest ++
      l.lineBreak depth ++ [']']
  | object [] => ['{', '}']
  | object ((key, j) :: rest) =>
    '{' :: l.lineBreak (depth + 1) ++ quote key ++ ':' :: l.afterColon ++ print l (depth + 1) j ++
      printMembers l (depth + 1) rest ++ l.lineBreak depth ++ ['}']

def printItems (l : Layout) (depth : Nat) : List Json → List Char
  | [] => []
  | j :: rest => ',' :: l.lineBreak depth ++ print l depth j ++ printItems l depth rest

def printMembers (l : Layout) (depth : Nat) : List (Option String × Json) → List Char
  | [] => []
  | (key, j) :: rest =>
    ',' :: l.lineBreak depth ++ quote key ++ ':' :: l.afterColon ++ print l depth j ++
      printMembers l depth rest

end

def compact (j : Json) : String := String.ofList (print .compact 0 j)

def pretty (j : Json) : String := String.ofList (print .pretty 0 j)

end TableStore.Json
