import TableStore.Hex
import TableStore.Text.Utf8

/-!
JSON text as a list of tokens. A scanner with finitely many modes reads one character after
the other. White space only separates tokens, and of a token no more is kept than documents
can tell apart: of a number its whole value, of a string literal its text. A string literal
may also hold bytes that encode no character; it then stands for no text.
-/

namespace TableStore.Json

/-- A number: a whole number written in digits alone, or one with a fraction or an exponent,
which no document uses. `whole true 0` is the literal `-0`. -/
inductive Number where
  | whole (negative : Bool) (magnitude : Nat)
  | fractional
  deriving DecidableEq

inductive Token where
  | openBrace
  | closeBrace
  | openBracket
  | closeBracket
  | comma
  | colon
  | null
  | boolean (b : Bool)
  | number (n : Number)
  /-- A string literal; `none` if it stands for no text, because an escape in it names half
  of a surrogate pair or a byte in it belongs to no character. -/
  | text (content : Option String)
  deriving DecidableEq

namespace Number

def isDigits (cs : List Char) : Bool := !cs.isEmpty && cs.all Char.isDigit

/-- Digits without a needless zero in front. -/
def isWhole (cs : List Char) : Bool := cs = ['0'] || isDigits cs && cs.head? != some '0'

def isExponent : List Char → Bool
  | [] => false
  | e :: cs =>
    (e == 'e' || e == 'E') &&
      match cs with
      | '+' :: cs => isDigits cs
      | '-' :: cs => isDigits cs
      | cs => isDigits cs

/-- What may follow the whole part: a fraction, an exponent, or both in this order. -/
def isFractional : List Char → Bool
  | '.' :: cs =>
    isDigits (cs.takeWhile Char.isDigit) &&
      match cs.dropWhile Char.isDigit with
      | [] => true
      | rest => isExponent rest
  | cs => isExponent cs

def ofUnsigned? (negative : Bool) (cs : List Char) : Option Number :=
  if isWhole (cs.takeWhile Char.isDigit) then
    match cs.dropWhile Char.isDigit with
    | [] => some (whole negative (Nat.ofDigitChars 10 (cs.takeWhile Char.isDigit) 0))
    | rest => if isFractional rest then some fractional else none
  else none

def ofLexeme? : List Char → Option Number
  | '-' :: cs => ofUnsigned? true cs
  | cs => ofUnsigned? false cs

/-- A spelling of the number; a fraction has many, and none is ever written to a document. -/
def spell : Number → List Char
  | whole true m => '-' :: Nat.toDigits 10 m
  | whole false m => Nat.toDigits 10 m
  | fractional => ['0', '.', '5']

/-- The integer that a literal stands for; `-0` stands for none. -/
def toInt? : Number → Option Int
  | whole true 0 => none
  | whole true m => some (-m)
  | whole false m => some m
  | fractional => none

def ofInt (i : Int) : Number := whole (decide (i < 0)) i.natAbs

end Number

/-- A part of a string literal: a character, a code unit that is half of a pair, or a byte
that belongs to no character. -/
inductive Piece where
  | char (c : Char)
  | half (unit : Nat)
  | stray

namespace Piece

def isHigh (unit : Nat) : Bool := 0xD800 ≤ unit && unit < 0xDC00

def isLow (unit : Nat) : Bool := 0xDC00 ≤ unit && unit < 0xE000

/-- The character above U+FFFF that a pair of code units encodes. -/
def join (high low : Nat) : Char :=
  Char.ofNat (0x10000 + (high - 0xD800) * 0x400 + (low - 0xDC00))

/-- Adds an escaped code unit to the pieces, latest first. A second half right after a
first half completes the pair. -/
def addUnit (unit : Nat) : List Piece → List Piece
  | half high :: rest =>
    if isHigh high && isLow unit then char (join high unit) :: rest
    else single unit :: half high :: rest
  | pieces => single unit :: pieces
where
  single (unit : Nat) : Piece :=
    if isHigh unit || isLow unit then half unit else char (Char.ofNat unit)

def char? : Piece → Option Char
  | char c => some c
  | half _ | stray => none

/-- The text of a literal from its pieces, latest first. -/
def content (pieces : List Piece) : Option String :=
  (pieces.reverse.mapM char?).map String.ofList

end Piece

namespace Token

def isSpace (c : Char) : Bool := c == ' ' || c == '\t' || c == '\n' || c == '\r'

def ofPunctuation? : Char → Option Token
  | '{' => some openBrace
  | '}' => some closeBrace
  | '[' => some openBracket
  | ']' => some closeBracket
  | ',' => some comma
  | ':' => some colon
  | _ => none

/-- Whether a character ends a number or a word. -/
def isDelimiter (c : Char) : Bool := c == '"' || isSpace c || (ofPunctuation? c).isSome

def ofLexeme? (cs : List Char) : Option Token :=
  if cs = ['n', 'u', 'l', 'l'] then some null
  else if cs = ['t', 'r', 'u', 'e'] then some (boolean true)
  else if cs = ['f', 'a', 'l', 's', 'e'] then some (boolean false)
  else (Number.ofLexeme? cs).map number

/-- The character that a short escape stands for, by the letter behind the backslash. -/
def unescape? : Char → Option Char
  | '"' => some '"'
  | '\\' => some '\\'
  | '/' => some '/'
  | 'b' => some '\x08'
  | 'f' => some '\x0c'
  | 'n' => some '\n'
  | 'r' => some '\r'
  | 't' => some '\t'
  | _ => none

/-- Where in a token the scanner is. What has been read of it is kept latest first. -/
inductive Mode where
  | between
  | bare (lexeme : List Char)
  | quoted (pieces : List Piece)
  | escape (pieces : List Piece)
  /-- In the hexadecimal digits of an escape, of which `missing` are still to come. -/
  | hex (pieces : List Piece) (missing : Nat) (unit : Nat)

/-- A scanner: the finished tokens, latest first, and the mode it is in. -/
structure Scanner where
  finished : List Token
  mode : Mode

namespace Scanner

def start : Scanner := ⟨[], .between⟩

/-- Reads a character where a token may begin. -/
def begin (finished : List Token) (c : Char) : Scanner :=
  if c = '"' then ⟨finished, .quoted []⟩
  else if isSpace c then ⟨finished, .between⟩
  else match ofPunctuation? c with
    | some t => ⟨t :: finished, .between⟩
    | none => ⟨finished, .bare [c]⟩

/-- The finished tokens if no literal is open, an unquoted lexeme being ended. -/
def finish? : Scanner → Option (List Token)
  | ⟨finished, .between⟩ => some finished
  | ⟨finished, .bare lexeme⟩ => (ofLexeme? lexeme.reverse).map (· :: finished)
  | _ => none

def step (s : Scanner) (c : Char) : Option Scanner :=
  match s.mode with
  | .between => some (begin s.finished c)
  | .bare lexeme =>
    if isDelimiter c then s.finish?.map (begin · c)
    else some ⟨s.finished, .bare (c :: lexeme)⟩
  | .quoted pieces =>
    if c = '"' then some ⟨text (Piece.content pieces) :: s.finished, .between⟩
    else if c = '\\' then some ⟨s.finished, .escape pieces⟩
    else if c.toNat < 0x20 then none
    else some ⟨s.finished, .quoted (.char c :: pieces)⟩
  | .escape pieces =>
    if c = 'u' then some ⟨s.finished, .hex pieces 4 0⟩
    else (unescape? c).map fun d => ⟨s.finished, .quoted (.char d :: pieces)⟩
  | .hex pieces missing unit =>
    (Hex.value? c).map fun d =>
      if missing ≤ 1 then ⟨s.finished, .quoted (Piece.addUnit (unit * 16 + d) pieces)⟩
      else ⟨s.finished, .hex pieces (missing - 1) (unit * 16 + d)⟩

/-- Reads a byte that belongs to no character, for which there is room in string literals. -/
def stepStray (s : Scanner) : Option Scanner :=
  match s.mode with
  | .quoted pieces => some ⟨s.finished, .quoted (.stray :: pieces)⟩
  | _ => none

/-- Reads a character, or a byte that belongs to none. -/
def read (s : Scanner) : Option Char → Option Scanner
  | some c => s.step c
  | none => s.stepStray

theorem foldlM_read_characters (text : String) (s : Scanner) :
    (Text.characters text).foldlM read s = text.toList.foldlM step s := by
  simp [Text.characters, List.foldlM_map, read]

end Scanner

/-- The tokens of what was read from bytes, if it is made of tokens and white space. -/
def scan? (cs : List (Option Char)) : Option (List Token) :=
  (cs.foldlM Scanner.read Scanner.start >>= Scanner.finish?).map List.reverse

end Token
end TableStore.Json
