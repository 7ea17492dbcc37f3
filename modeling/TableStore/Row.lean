import TableStore.KeyedList
import TableStore.Value

/-!
Rows: values under distinct column names, in column order.
-/

namespace TableStore

/-- The identity column, which every defined table has in front. -/
def idColumn : String := "ID"

/-- The identity of the first row of a table. -/
def firstRowId : Int64 := 1

/-- A row of data. Equality minds the column order; `Row.same` does not. -/
structure Row where
  columns : KeyedList String Value
  deriving DecidableEq

namespace Row

def empty : Row := ⟨.empty⟩

def get? (r : Row) (column : String) : Option Value := r.columns.get? column

/-- Sets a column: one that is there keeps its place, a new one goes to the end. -/
def insert (r : Row) (column : String) (value : Value) : Row :=
  ⟨r.columns.insert column value⟩

def insertAll (r : Row) (pairs : List (String × Value)) : Row :=
  ⟨r.columns.insertAll pairs⟩

def ofPairs (pairs : List (String × Value)) : Row := empty.insertAll pairs

def withId (id : Int64) : Row := empty.insert idColumn (.integer id)

/-- The identity, if there is an integer in the identity column. -/
def id? (r : Row) : Option Int64 := r.get? idColumn >>= Value.asInteger?

def names (r : Row) : List String := r.columns.keys

/-- The same columns with the same values, in whatever order. -/
def same (r s : Row) : Bool := r.columns.sameContents s.columns

theorem get?_insert (r : Row) (column c : String) (value : Value) :
    (r.insert column value).get? c = if c = column then some value else r.get? c :=
  KeyedList.get?_insert r.columns column c value

end Row
end TableStore
