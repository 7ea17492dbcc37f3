import TableStore.Schema

/-!
The registry: the columns of every table under the table's name, in the order of creation. A
schema gets its name from its place in the registry.
-/

namespace TableStore

structure Registry where
  tables : KeyedList String (List Column)
  deriving DecidableEq

namespace Registry

def empty : Registry := ⟨.empty⟩

def get? (r : Registry) (table : String) : Option Schema :=
  (r.tables.get? table).map fun columns => ⟨table, columns⟩

def contains (r : Registry) (table : String) : Bool := r.tables.contains table

/-- The schema of a table that has to be there. -/
def schema (r : Registry) (table : String) : Except Error Schema :=
  match r.get? table with
  | some s => .ok s
  | none => .error (.tableNotFound table)

def insert (r : Registry) (s : Schema) : Registry := ⟨r.tables.insert s.name s.columns⟩

def erase (r : Registry) (table : String) : Registry := ⟨r.tables.erase table⟩

def size (r : Registry) : Nat := r.tables.length

def isEmpty (r : Registry) : Bool := r.tables.isEmpty

def schemas (r : Registry) : List Schema := r.tables.entries.map fun t => ⟨t.1, t.2⟩

def names (r : Registry) : List String := r.tables.keys

/-- The table names in the order of creation, or nothing if there is no table. -/
def listing (r : Registry) : Option (List String) := if r.isEmpty then none else some r.names

theorem get?_insert (r : Registry) (s : Schema) (table : String) :
    (r.insert s).get? table = if table = s.name then some s else r.get? table := by
  simp only [get?, insert, KeyedList.get?_insert]
  split
  · next h => subst h; rfl
  · rfl

theorem get?_erase (r : Registry) (t table : String) :
    (r.erase t).get? table = if table = t then none else r.get? table := by
  simp only [get?, erase, KeyedList.get?_erase]
  split <;> rfl

end Registry
end TableStore
