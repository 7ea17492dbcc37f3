import TableStore.Toml.Scalar
import TableStore.Toml.Table

/-!
TOML documents: lines with keys and values, below headers that say which table they go to.
-/

namespace TableStore.Toml

/-- Values nest less deep than this, and dotted keys have fewer parts. -/
def maxDepth : Nat := 80

def skipBlanks (cs : List Char) : List Char := cs.dropWhile isBlank

/-- Drops a comment, which ends before a line break or at the end of the document. -/
def skipComment : List Char → List Char
  | '#' :: rest => rest.dropWhile isTextChar
  | cs => cs

/-- Drops the rest of a line that holds nothing but blanks and a comment. -/
def endLine? (cs : List Char) : Option (List Char) :=
  match skipComment (skipBlanks cs) with
  | [] => some []
  | cs => dropBreak? cs

/-- Drops blanks, line breaks and comments, each of which ends in a line break; `comment` tells
whether one is open. -/
def skipLines : (comment : Bool) → List Char → Option (List Char)
  | false, [] => some []
  | true, [] => none
  | _, '\n' :: rest => skipLines false rest
  | _, '\r' :: '\n' :: rest => skipLines false rest
  | false, c :: rest =>
    if isBlank c then skipLines false rest
    else if c = '#' then skipLines true rest
    else if c = '\r' then none
    else some (c :: rest)
  | true, c :: rest => if isTextChar c then skipLines true rest else none

/-! ### Keys -/

def isBareKeyChar (c : Char) : Bool := c.isAlphanum || c == '_' || c == '-'

/-- Reads a key without dots: letters, digits, underscores and hyphens, or a string. -/
def simpleKey? (cs : List Char) : Option (String × List Char) :=
  match Text.readLine? cs with
  | some (key, rest) => some (String.ofList key, rest)
  | none =>
    let key := cs.takeWhile isBareKeyChar
    if key.isEmpty then none else some (String.ofList key, cs.dropWhile isBareKeyChar)

/-- Reads the parts of a dotted key, with blanks around each. -/
def keyParts? : (fuel : Nat) → List Char → Option (List String × List Char)
  | 0, _ => none
  | fuel + 1, cs => do
    let (key, cs) ← simpleKey? (skipBlanks cs)
    match skipBlanks cs with
    | '.' :: cs =>
      let (keys, rest) ← keyParts? fuel cs
      return (key :: keys, rest)
    | cs => return ([key], cs)

def key? (cs : List Char) : Option ((List String × String) × List Char) := do
  let (keys, rest) ← keyParts? (maxDepth - 1) cs
  return ((keys.dropLast, ← keys.getLast?), rest)

/-! ### Values -/

def simple? (cs : List Char) : Option (Toml × List Char) :=
  match cs with
  | 't' :: 'r' :: 'u' :: 'e' :: rest => some (.boolean true, rest)
  | 'f' :: 'a' :: 'l' :: 's' :: 'e' :: rest => some (.boolean false, rest)
  | cs =>
    match Text.read? cs with
    | some (content, rest) => some (.text (String.ofList content), rest)
    | none =>
      match Scalar.moment? cs with
      | some rest => some (.moment, rest)
      | none => (Scalar.number? cs).map fun rest => (.number, rest)

mutual

/-- Reads a value inside `depth` others. Every call takes at least one character or is the
last for its value, so the length of the text bounds their number. -/
def value? : (fuel : Nat) → (depth : Nat) → List Char → Option (Toml × List Char)
  | 0, _, _ => none
  | fuel + 1, depth, cs =>
    match cs with
    | '[' :: rest =>
      if maxDepth ≤ depth + 1 then none
      else (items? fuel (depth + 1) rest).map fun r => (.array r.1, r.2)
    | '{' :: rest =>
      if maxDepth ≤ depth + 1 then none
      else do
        let (assignments, rest) ← match skipBlanks rest with
          | '}' :: rest => some ([], rest)
          | rest => assignments? fuel (depth + 1) rest
        return (.table .inline (← assignAll [] assignments), rest)
    | cs => simple? cs

def items? : (fuel : Nat) → (depth : Nat) → List Char → Option (List Toml × List Char)
  | 0, _, _ => none
  | fuel + 1, depth, cs => do
    match ← skipLines false cs with
    | ']' :: rest => return ([], rest)
    | cs =>
      let (item, cs) ← value? fuel depth cs
      match ← skipLines false cs with
      | ']' :: rest => return ([item], rest)
      | ',' :: cs =>
        let (items, rest) ← items? fuel depth cs
        return (item :: items, rest)
      | _ => none

def assignments? : (fuel : Nat) → (depth : Nat) → List Char →
    Option (List Assignment × List Char)
  | 0, _, _ => none
  | fuel + 1, depth, cs => do
    let ((above, key), cs) ← key? cs
    let cs ← Scalar.expect? (· == '=') cs
    let (value, cs) ← value? fuel depth (skipBlanks cs)
    match skipBlanks cs with
    | '}' :: rest => return ([⟨above, key, value⟩], rest)
    | ',' :: cs =>
      let (assignments, rest) ← assignments? fuel depth cs
      return (⟨above, key, value⟩ :: assignments, rest)
    | _ => none

end

/-! ### Lines -/

inductive Line where
  | header (h : Header)
  | assignment (a : Assignment)

def header? (repeats : Bool) (cs : List Char) : Option (Line × List Char) := do
  let ((above, key), cs) ← key? cs
  let cs ← Scalar.expect? (· == ']') cs
  let cs ← if repeats then Scalar.expect? (· == ']') cs else some cs
  return (.header ⟨repeats, above, key⟩, ← endLine? cs)

def assignment? (cs : List Char) : Option (Line × List Char) := do
  let ((above, key), cs) ← key? cs
  let cs ← Scalar.expect? (· == '=') cs
  let (value, cs) ← value? (2 * cs.length + 2) 0 (skipBlanks cs)
  return (.assignment ⟨above, key, value⟩, ← endLine? cs)

def line? (cs : List Char) : Option (Option Line × List Char) :=
  match skipBlanks cs with
  | '[' :: '[' :: rest => (header? true rest).map fun r => (some r.1, r.2)
  | '[' :: rest => (header? false rest).map fun r => (some r.1, r.2)
  | cs =>
    match endLine? cs with
    | some rest => some (none, rest)
    | none => (assignment? cs).map fun r => (some r.1, r.2)

/-- Reads all lines. Each takes at least one character. -/
def lines? : (fuel : Nat) → List Char → Option (List Line)
  | _, [] => some []
  | 0, _ => none
  | fuel + 1, cs => do
    let (line, rest) ← line? cs
    return line.toList ++ (← lines? fuel rest)

/-- The assignments before the first header, and the headers with those below each. -/
def sections : List Line → List Assignment × List (Header × List Assignment)
  | [] => ([], [])
  | .assignment a :: rest =>
    let (above, below) := sections rest
    (a :: above, below)
  | .header h :: rest =>
    let (above, below) := sections rest
    ([], (h, above) :: below)

def ofLines? (ls : List Line) : Option Members := do
  let (above, below) := sections ls
  below.foldlM (fun ms s => addSection ms s.1 s.2) (← assignAll [] above)

def dropOrderMark : List Char → List Char
  | '\uFEFF' :: rest => rest
  | cs => cs

def parse? (cs : List Char) : Option Members :=
  lines? (cs.length + 1) (dropOrderMark cs) >>= ofLines?

end TableStore.Toml
