import TableStore.Json.Printer
import TableStore.Value

/-!
Types and values in JSON. A value is a bare scalar, from which its type can be told.
-/

namespace TableStore

namespace DataType

def toJson (t : DataType) : Json := .text (some t.name)

/-- A type is its name, or an object whose one key is the name and whose one value is null. -/
def ofJson? : Json → Option DataType
  | .text (some name) => ofName? name
  | .object [(some name, .null)] => ofName? name
  | _ => none

theorem ofJson?_toJson (t : DataType) : ofJson? t.toJson = some t := ofName?_name t

end DataType

namespace Value

def toJson : Value → Json
  | integer i => .number (.ofInt i.toInt)
  | text s => .text (some s)
  | boolean b => .boolean b

/-- The value of a string, a truth value, or an integer of 64 bits. -/
def ofJson? : Json → Option Value
  | .boolean b => some (boolean b)
  | .text content => content.map text
  | .number n => do
    let i ← n.toInt?
    if Int64.minValue.toInt ≤ i ∧ i ≤ Int64.maxValue.toInt then some (integer (Int64.ofInt i))
    else none
  | _ => none

/-- The canonical text of a value: its JSON literal. -/
def literal (v : Value) : String := v.toJson.compact

end Value
end TableStore
