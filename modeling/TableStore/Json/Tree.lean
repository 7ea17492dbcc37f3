import TableStore.Json.Token

/-!
JSON values and their token lists. Every value has one token list, and reading the tokens
gives it back, so that nothing but the spelling of tokens is left to the text. Nesting has no
limit: arrays and objects that are still open wait on a stack.
-/

namespace TableStore

/-- A JSON value. Members stay in the order of the text, repeated keys included. -/
inductive Json where
  | null
  | boolean (b : Bool)
  | number (n : Json.Number)
  /-- A string; `none` if its literal stands for no text. -/
  | text (content : Option String)
  | array (items : List Json)
  | object (members : List (Option String × Json))

namespace Json

mutual

def tokens : Json → List Token
  | null => [.null]
  | boolean b => [.boolean b]
  | number n => [.number n]
  | text content => [.text content]
  | array [] => [.openBracket, .closeBracket]
  | array (j :: rest) => .openBracket :: (tokens j ++ moreItems rest) ++ [.closeBracket]
  | object [] => [.openBrace, .closeBrace]
  | object ((key, j) :: rest) =>
    .openBrace :: .text key :: .colon :: (tokens j ++ moreMembers rest) ++ [.closeBrace]

def moreItems : List Json → List Token
  | [] => []
  | j :: rest => .comma :: (tokens j ++ moreItems rest)

def moreMembers : List (Option String × Json) → List Token
  | [] => []
  | (key, j) :: rest => .comma :: .text key :: .colon :: (tokens j ++ moreMembers rest)

end

/-- An array or object that is open around the value being read. What it holds so far is
kept latest first. -/
inductive Frame where
  | array (items : List Json)
  /-- The value being read belongs to `key`. -/
  | object (members : List (Option String × Json)) (key : Option String)

inductive Expecting where
  | value
  /-- Behind an opening bracket: an item or the end. -/
  | firstItem
  /-- Behind an opening brace: a key or the end. -/
  | firstKey
  /-- Behind a comma between members. -/
  | key (members : List (Option String × Json))
  | colon (members : List (Option String × Json)) (key : Option String)
  /-- The value is complete: a comma, the end of what is open around it, or nothing. -/
  | next (complete : Json)

structure Reader where
  stack : List Frame
  expecting : Expecting

namespace Reader

def start : Reader := ⟨[], .value⟩

def beginValue? (stack : List Frame) : Token → Option Reader
  | .null => some ⟨stack, .next .null⟩
  | .boolean b => some ⟨stack, .next (.boolean b)⟩
  | .number n => some ⟨stack, .next (.number n)⟩
  | .text content => some ⟨stack, .next (.text content)⟩
  | .openBracket => some ⟨stack, .firstItem⟩
  | .openBrace => some ⟨stack, .firstKey⟩
  | _ => none

def proceed? (complete : Json) : List Frame → Token → Option Reader
  | .array items :: stack, .comma => some ⟨.array (complete :: items) :: stack, .value⟩
  | .array items :: stack, .closeBracket =>
    some ⟨stack, .next (.array (complete :: items).reverse)⟩
  | .object members key :: stack, .comma => some ⟨stack, .key ((key, complete) :: members)⟩
  | .object members key :: stack, .closeBrace =>
    some ⟨stack, .next (.object ((key, complete) :: members).reverse)⟩
  | _, _ => none

def step (r : Reader) (t : Token) : Option Reader :=
  match r.expecting, t with
  | .value, t => beginValue? r.stack t
  | .firstItem, .closeBracket => some ⟨r.stack, .next (.array [])⟩
  | .firstItem, t => beginValue? (.array [] :: r.stack) t
  | .firstKey, .closeBrace => some ⟨r.stack, .next (.object [])⟩
  | .firstKey, .text key => some ⟨r.stack, .colon [] key⟩
  | .key members, .text key => some ⟨r.stack, .colon members key⟩
  | .colon members key, .colon => some ⟨.object members key :: r.stack, .value⟩
  | .next complete, t => proceed? complete r.stack t
  | _, _ => none

def finish? : Reader → Option Json
  | ⟨[], .next complete⟩ => some complete
  | _ => none

/-- Where a first item may stand, the tokens of a value begin that item. -/
theorem foldlM_firstItem (j : Json) (stack : List Frame) (ts : List Token) :
    (tokens j ++ ts).foldlM step ⟨stack, .firstItem⟩ =
      (tokens j ++ ts).foldlM step ⟨.array [] :: stack, .value⟩ := by
  cases j with
  | null | boolean _ | number _ | text _ => rfl
  | array items => cases items <;> rfl
  | object members => cases members <;> rfl

mutual

/-- The tokens of a value lead past that value, whatever is open around it. -/
theorem foldlM_tokens (stack : List Frame) (ts : List Token) : (j : Json) →
    (tokens j ++ ts).foldlM step ⟨stack, .value⟩ = ts.foldlM step ⟨stack, .next j⟩
  | null | boolean _ | number _ | text _ => rfl
  | array [] => rfl
  | array (j :: rest) => by
      simp only [tokens, List.cons_append, List.append_assoc, List.nil_append]
      refine (foldlM_firstItem j stack _).trans ?_
      rw [foldlM_tokens _ _ j, foldlM_moreItems stack ts [] j rest]
      rfl
  | object [] => rfl
  | object ((key, j) :: rest) => by
      simp only [tokens, List.cons_append, List.append_assoc, List.nil_append]
      refine (foldlM_tokens (.object [] key :: stack) _ j).trans ?_
      rw [foldlM_moreMembers stack ts [] key j rest]
      rfl

theorem foldlM_moreItems (stack : List Frame) (ts : List Token) (done : List Json) (j : Json) :
    (rest : List Json) →
    (moreItems rest ++ .closeBracket :: ts).foldlM step ⟨.array done :: stack, .next j⟩ =
      ts.foldlM step ⟨stack, .next (.array (done.reverse ++ j :: rest))⟩
  | [] => by simp [moreItems, step, proceed?]
  | i :: rest => by
      simp only [moreItems, List.cons_append, List.append_assoc]
      refine (foldlM_tokens (.array (j :: done) :: stack) _ i).trans ?_
      rw [foldlM_moreItems stack ts (j :: done) i rest]
      simp

theorem foldlM_moreMembers (stack : List Frame) (ts : List Token)
    (done : List (Option String × Json)) (key : Option String) (j : Json) :
    (rest : List (Option String × Json)) →
    (moreMembers rest ++ .closeBrace :: ts).foldlM step ⟨.object done key :: stack, .next j⟩ =
      ts.foldlM step ⟨stack, .next (.object (done.reverse ++ (key, j) :: rest))⟩
  | [] => by simp [moreMembers, step, proceed?]
  | (k, i) :: rest => by
      simp only [moreMembers, List.cons_append, List.append_assoc]
      refine (foldlM_tokens (.object ((key, j) :: done) k :: stack) _ i).trans ?_
      rw [foldlM_moreMembers stack ts ((key, j) :: done) k i rest]
      simp

end

end Reader

def ofTokens? (ts : List Token) : Option Json :=
  ts.foldlM Reader.step Reader.start >>= Reader.finish?

theorem ofTokens?_tokens (j : Json) : ofTokens? j.tokens = some j := by
  have h := Reader.foldlM_tokens [] [] j
  rw [List.append_nil] at h
  simp only [ofTokens?, Reader.start, h]
  rfl

/-- Reads one value with white space around its tokens. -/
def parse? (cs : List (Option Char)) : Option Json := Token.scan? cs >>= ofTokens?

def ofText? (text : String) : Option Json := parse? (Text.characters text)

def asText? : Json → Option String
  | text content => content
  | _ => none

/-- The members with their keys, if every key stands for a text. -/
def namedMembers? : Json → Option (List (String × Json))
  | object members => members.mapM fun m => m.1.map (·, m.2)
  | _ => none

def items? : Json → Option (List Json)
  | array items => some items
  | _ => none

end Json
end TableStore
