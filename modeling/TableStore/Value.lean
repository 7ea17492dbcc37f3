import TableStore.Text.Blank

/-!
Column types and the values that rows hold. Every value carries its type, so that `1`, `"1"`
and `true` are three different values.
-/

namespace TableStore

inductive DataType where
  | integer
  | text
  | boolean
  deriving DecidableEq

namespace DataType

def name : DataType → String
  | integer => "int"
  | text => "str"
  | boolean => "bool"

def all : List DataType := [integer, text, boolean]

def ofName? (s : String) : Option DataType := all.find? fun t => t.name = s

/-- Reads a requested type: blanks at the ends and the case of ASCII letters do not count. -/
def parse? (s : String) : Option DataType :=
  ofName? (String.ofList ((Text.trim s.toList).map Char.toLower))

/-- The message for a requested type that is none, which quotes the request as it came. -/
def unknownMessage (s : String) : String :=
  s!"unknown data type '{s}' (supported: int, str, bool)"

theorem ofName?_name (t : DataType) : ofName? t.name = some t := by cases t <;> rfl

end DataType

/-- A single value: a 64-bit integer, a text or a truth value. -/
inductive Value where
  | integer (i : Int64)
  | text (s : String)
  | boolean (b : Bool)
  deriving DecidableEq

namespace Value

def dataType : Value → DataType
  | integer _ => .integer
  | text _ => .text
  | boolean _ => .boolean

def asInteger? : Value → Option Int64
  | integer i => some i
  | _ => none

def asText? : Value → Option String
  | text s => some s
  | _ => none

def asBoolean? : Value → Option Bool
  | boolean b => some b
  | _ => none

def conformsTo (v : Value) (t : DataType) : Bool := v.dataType = t

end Value
end TableStore
