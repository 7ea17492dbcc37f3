import TableStore.Error
import TableStore.Row
import TableStore.Text.Identifier

/-!
Table schemas. A defined table has the identity column in front, and its other columns have
distinct names; a schema that was read from a document need not be like that.
-/

namespace TableStore

structure Column where
  name : String
  type : DataType
  deriving DecidableEq

def Column.id : Column := ⟨idColumn, .integer⟩

/-- A requested column, with the name of its type as it came. -/
structure ColumnSpec where
  name : String
  typeName : String
  deriving DecidableEq

structure Schema where
  name : String
  columns : List Column
  deriving DecidableEq

namespace Schema

/-- Checks the requested columns one after the other, given the names already taken. Of each
column the name is checked first, then the type, then that the name is new. -/
def defineColumns (table : String) :
    List String → List ColumnSpec → Except Error (List Column)
  | _, [] => .ok []
  | taken, spec :: rest =>
    if !Text.isIdentifier spec.name then .error (.invalidColumnName table spec.name)
    else match DataType.parse? spec.typeName with
      | none => .error (.unknownType table spec.name spec.typeName)
      | some type =>
        if spec.name ∈ taken then .error (.duplicateColumn table spec.name)
        else (defineColumns table (spec.name :: taken) rest).map (⟨spec.name, type⟩ :: ·)

/-- The schema of a requested table: the identity column, then the requested ones. -/
def define (table : String) (specs : List ColumnSpec) : Except Error Schema :=
  if !Text.isIdentifier table then .error (.invalidTableName table)
  else (defineColumns table [idColumn] specs).map fun columns => ⟨table, .id :: columns⟩

/-- The columns for which an insertion supplies values: all but an identity column in front. -/
def dataColumns (s : Schema) : List Column :=
  match s.columns with
  | [] => []
  | first :: rest => if first.name = idColumn then rest else first :: rest

def column? (s : Schema) (name : String) : Option Column :=
  s.columns.find? fun c => c.name = name

def columnType (s : Schema) (name : String) : Except Error DataType :=
  match s.column? name with
  | some c => .ok c.type
  | none => .error (.columnNotFound s.name name)

end Schema
end TableStore
