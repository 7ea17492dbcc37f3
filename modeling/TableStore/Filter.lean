import TableStore.Document.Value
import TableStore.Registry

/-!
Filters of rows by one column, and the assignments of an update.
-/

namespace TableStore

structure Predicate where
  column : String
  value : Value
  deriving DecidableEq

namespace Predicate

/-- The canonical text. The value is written as its literal, so that texts stand in quotes. -/
def canonical (p : Predicate) : String := p.column ++ "=" ++ p.value.literal

/-- Values of different types are never equal, and a missing column equals no value. -/
def holds (p : Predicate) (r : Row) : Bool := r.get? p.column = some p.value

/-- The column has to exist and to have the type of the value. -/
def check (p : Predicate) (s : Schema) : Except Error Unit := do
  let expected ← s.columnType p.column
  if p.value.conformsTo expected then .ok ()
  else .error (.typeMismatch s.name p.column expected p.value.dataType)

end Predicate

/-- Whether an optional filter lets a row through; without a filter every row passes. -/
def selects : Option Predicate → Row → Bool
  | none, _ => true
  | some p, r => p.holds r

def checkFilter (filter : Option Predicate) (s : Schema) : Except Error Unit :=
  match filter with
  | none => .ok ()
  | some p => p.check s

/-- The assignments of an update in order, at most one per column. -/
abbrev SetClause := KeyedList String Value

end TableStore
