import TableStore.Document.Value
import TableStore.Registry

/-!
Registry documents: a JSON object with the columns of a table under each table name. Members
that a schema or a column does not know are passed over.
-/

namespace TableStore

/-- The value of a key that occurs exactly once. -/
def Json.single? (key : String) (members : List (String × Json)) : Option Json :=
  match members.filter fun m => m.1 = key with
  | [m] => some m.2
  | _ => none

namespace Column

def toJson (c : Column) : Json :=
  .object [(some "name", .text (some c.name)), (some "type", c.type.toJson)]

/-- A column is an object with a name and a type, or an array of the two. -/
def ofJson? : Json → Option Column
  | .array [name, type] => ofParts? name type
  | j => do
    let members ← j.namedMembers?
    ofParts? (← Json.single? "name" members) (← Json.single? "type" members)
where
  ofParts? (name type : Json) : Option Column :=
    return ⟨← name.asText?, ← DataType.ofJson? type⟩

end Column

namespace Schema

/-- The columns of a schema; its name is not part of it. -/
def columnsToJson (columns : List Column) : Json :=
  .object [(some "columns", .array (columns.map Column.toJson))]

/-- A schema is an object with columns, or an array that holds nothing but the columns. -/
def columnsOfJson? : Json → Option (List Column)
  | .array [columns] => ofItems? columns
  | j => do
    let members ← j.namedMembers?
    ofItems? (← Json.single? "columns" members)
where
  ofItems? (columns : Json) : Option (List Column) := columns.items? >>= List.mapM Column.ofJson?

def toJson (s : Schema) : Json := columnsToJson s.columns

end Schema

namespace Registry

def toJson (r : Registry) : Json :=
  .object (r.tables.entries.map fun t => (some t.1, Schema.columnsToJson t.2))

/-- The tables are entered in order, so that a repeated name keeps its first place and takes
its last schema. -/
def ofJson? (j : Json) : Option Registry := do
  let members ← j.namedMembers?
  let tables ← members.mapM fun m => (Schema.columnsOfJson? m.2).map (m.1, ·)
  return ⟨.ofList tables⟩

end Registry
end TableStore
