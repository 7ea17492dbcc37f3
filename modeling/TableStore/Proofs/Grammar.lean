import Mathlib.Computability.Language
import TableStore.Json.Tree

/-!
The language of JSON texts. Every token has its spellings, and a text of a value is made of
spellings of the tokens of the value, with white space around them. Nothing here says how a text
is read.
-/

namespace TableStore.Json

/-! ## Languages -/

theorem mem_singleton_mul {a b : List Char} {l : Language Char} :
    b ∈ {a} * l ↔ ∃ c ∈ l, b = a ++ c := by
  rw [Language.mem_mul]
  constructor
  · rintro ⟨_, rfl, c, hc, rfl⟩
    exact ⟨c, hc, rfl⟩
  · rintro ⟨c, hc, rfl⟩
    exact ⟨a, rfl, c, hc, rfl⟩

/-- White space, of any length. -/
def space : Language Char := {cs | ∀ c ∈ cs, c ∈ [' ', '\t', '\n', '\r']}

/-! ## Numbers -/

namespace Number

def digits : Language Char := {cs | cs ≠ [] ∧ ∀ c ∈ cs, c.isDigit}

/-- Digits that have a zero in front only if it stands alone. -/
def naturals : Language Char := {cs | cs ∈ digits ∧ (cs.head? = some '0' → cs = ['0'])}

/-- The numerals of a natural number, of which there is one. -/
def numerals (n : Nat) : Language Char := {cs | cs ∈ naturals ∧ Nat.ofDigitChars 10 cs 0 = n}

def sign (negative : Bool) : Language Char := {if negative then ['-'] else []}

def fractions : Language Char := {['.']} * digits

def exponents : Language Char := {['e'], ['E']} * ({[], ['+'], ['-']} * digits)

def spellings : Number → Language Char
  | whole negative n => sign negative * numerals n
  | fractional =>
    (sign true + sign false) *
      (naturals * (fractions + exponents + fractions * exponents))

end Number

/-! ## String literals -/

/-- A part of a string literal: a character, plain or behind a backslash, or a UTF-16 code unit in
hexadecimal digits. -/
inductive Segment where
  | char (c : Char)
  | unit (u : UInt16)

namespace Segment

/-- The letters that may stand behind a backslash, each with its character. -/
def shortEscapes : List (Char × Char) :=
  [('"', '"'), ('\\', '\\'), ('/', '/'), ('b', '\x08'), ('f', '\x0c'), ('n', '\n'), ('r', '\r'),
    ('t', '\t')]

/-- The value of hexadecimal digits, the first of which weighs most. -/
def hexValue (values : List Nat) : Nat := values.foldl (fun n v => n * 16 + v) 0

def spellings : Segment → Language Char
  | char c =>
    {cs | (cs = [c] ∧ c ≠ '"' ∧ c ≠ '\\' ∧ 0x20 ≤ c.toNat) ∨
      ∃ letter, (letter, c) ∈ shortEscapes ∧ cs = ['\\', letter]}
  | unit u =>
    {cs | ∃ ds values, cs = '\\' :: 'u' :: ds ∧ ds.length = 4 ∧
      ds.mapM Hex.value? = some values ∧ hexValue values = u.toNat}

/-- The text that segments stand for. A code unit is a character, or half of a pair that is one;
half a pair alone stands for nothing. -/
inductive Denotes : List Segment → List Char → Prop where
  | nil : Denotes [] []
  | char {c segments cs} (rest : Denotes segments cs) : Denotes (.char c :: segments) (c :: cs)
  | unit {u c segments cs} (code : c.toNat = UInt16.toNat u) (rest : Denotes segments cs) :
      Denotes (.unit u :: segments) (c :: cs)
  | pair {high low c segments cs}
      (first : 0xD800 ≤ UInt16.toNat high ∧ high.toNat < 0xDC00)
      (second : 0xDC00 ≤ UInt16.toNat low ∧ low.toNat < 0xE000)
      (code : c.toNat = 0x10000 + (high.toNat - 0xD800) * 0x400 + (low.toNat - 0xDC00))
      (rest : Denotes segments cs) : Denotes (.unit high :: .unit low :: segments) (c :: cs)

end Segment

/-- What stands between the quotes of a string literal. -/
def contents (content : Option String) : Language Char :=
  {cs | ∃ segments : List Segment, cs ∈ (segments.map Segment.spellings).prod ∧
    ∀ text, content = some text ↔ Segment.Denotes segments text.toList}

/-! ## Tokens and values -/

def Token.spellings : Token → Language Char
  | openBrace => {['{']}
  | closeBrace => {['}']}
  | openBracket => {['[']}
  | closeBracket => {[']']}
  | comma => {[',']}
  | colon => {[':']}
  | null => {['n', 'u', 'l', 'l']}
  | boolean true => {['t', 'r', 'u', 'e']}
  | boolean false => {['f', 'a', 'l', 's', 'e']}
  | number n => n.spellings
  | text content => {['"']} * (contents content * {['"']})

/-- Spellings of the tokens, with white space behind each. -/
def spaced (ts : List Token) : Language Char := (ts.map fun t => t.spellings * space).prod

/-- The texts of a value, with white space around them. -/
def texts (j : Json) : Language Char := space * spaced j.tokens

end TableStore.Json
