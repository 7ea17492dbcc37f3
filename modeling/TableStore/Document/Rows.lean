import TableStore.Document.Value
import TableStore.Row

/-!
Table documents: a JSON array of objects, a row each.
-/

namespace TableStore

namespace Row

def toJson (r : Row) : Json := .object (r.columns.entries.map fun c => (some c.1, c.2.toJson))

/-- The members are set in order, so that a repeated name keeps its first place and takes its
last value; a value that is overwritten has to be a proper one all the same. -/
def ofJson? (j : Json) : Option Row := do
  let members ← j.namedMembers?
  let pairs ← members.mapM fun m => (Value.ofJson? m.2).map (m.1, ·)
  return ofPairs pairs

end Row

namespace Rows

def toJson (rows : List Row) : Json := .array (rows.map Row.toJson)

def ofJson? (j : Json) : Option (List Row) := j.items? >>= List.mapM Row.ofJson?

end Rows
end TableStore
