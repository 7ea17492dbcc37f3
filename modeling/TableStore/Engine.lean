import TableStore.Action
import TableStore.Cache.Scan
import TableStore.Filter
import TableStore.Storage.Basic

/-!
The operations on tables. Every operation checks its whole request against a registry before
it writes anything, and one that changes rows drops all cached scans.
-/

namespace TableStore

/-- A storage together with the reports of damaged documents that nobody has collected yet. -/
structure Source (σ : Type) where
  storage : σ
  diagnostics : List Error

/-- An engine: cached scans in front of a source. -/
structure Engine (σ : Type) where
  cache : ScanCache (List Row)
  source : Source σ

/-- An engine together with the registry that its caller holds. -/
structure Workspace (σ : Type) where
  registry : Registry
  engine : Engine σ

inductive Mutation where
  /-- The identities of the rows concerned, in order. -/
  | applied (ids : List Int64)
  /-- No row matched, and nothing was written. -/
  | noMatch
  deriving DecidableEq

namespace Mutation

def ids : Mutation → List Int64
  | applied ids => ids
  | noMatch => []

def affected (m : Mutation) : Nat := m.ids.length

def isNoMatch : Mutation → Bool
  | applied _ => false
  | noMatch => true

def summary : Mutation → String
  | applied ids => s!"{ids.length} row(s) affected"
  | noMatch => "no matching rows"

end Mutation

structure TableInfo where
  name : String
  columns : List Column
  rowCount : Nat
  deriving DecidableEq

variable {σ : Type} [Storage σ]

namespace Source

def onStorage {α : Type} (act : EStateM Error σ α) : EStateM Error (Source σ) α :=
  onPart storage (fun s storage => { s with storage := storage }) act

/-- Takes the value of a loaded document and keeps its report. -/
def absorb {α : Type} (loaded : Loaded α) : EStateM Error (Source σ) α :=
  fun s => .ok loaded.value { s with diagnostics := s.diagnostics ++ loaded.corruption.toList }

def loadRegistry : EStateM Error (Source σ) Registry := do
  absorb (← onStorage Storage.loadRegistry)

def loadRows (table : String) : EStateM Error (Source σ) (List Row) := do
  absorb (← onStorage (Storage.loadTable table))

end Source

/-- One more than the largest identity, and the first identity if there is none. -/
def nextId (table : String) (rows : List Row) : Except Error Int64 :=
  match (rows.filterMap Row.id?).max? with
  | none => .ok firstRowId
  | some id => if id = Int64.maxValue then .error (.idExhausted table id) else .ok (id + 1)

/-- Checks the values of an insertion: their number first, then their types in order. -/
def checkValues (table : String) (columns : List Column) (values : List Value) :
    Except Error Unit :=
  if values.length ≠ columns.length then
    .error (.arityMismatch table columns.length values.length)
  else (columns.zip values).forM fun (c, v) =>
    if v.conformsTo c.type then .ok ()
    else .error (.typeMismatch table c.name c.type v.dataType)

/-- Checks the assignments of an update in order. Of each the column has to exist, then not to
be the identity column, then to have the type of the value. -/
def checkAssignments (table : String) (schema : Schema) (assignments : SetClause) :
    Except Error Unit :=
  if assignments.isEmpty then .error (.emptySetClause table)
  else assignments.entries.forM fun (column, value) => do
    let expected ← schema.columnType column
    if column = idColumn then .error (.readOnlyColumn table column)
    else if value.conformsTo expected then .ok ()
    else .error (.typeMismatch table column expected value.dataType)

def newRow (id : Int64) (columns : List Column) (values : List Value) : Row :=
  (Row.withId id).insertAll ((columns.map Column.name).zip values)

namespace Engine

def create (cacheEnabled : Bool) (storage : σ) : Engine σ :=
  ⟨.create cacheEnabled, ⟨storage, []⟩⟩

def onSource {α : Type} (act : EStateM Error (Source σ) α) : EStateM Error (Engine σ) α :=
  onPart source (fun e source => { e with source := source }) act

/-- Loads the registry; a damaged one is empty, which is reported. -/
def loadRegistry : EStateM Error (Engine σ) Registry := onSource Source.loadRegistry

def saveRegistry (r : Registry) : EStateM Error (Engine σ) Unit :=
  onSource (Source.onStorage (Storage.saveRegistry r))

/-- Loads the rows of a table past the cache; a damaged table is empty, which is reported. -/
def loadRows (table : String) : EStateM Error (Engine σ) (List Row) :=
  onSource (Source.loadRows table)

def saveRows (table : String) (rows : List Row) : EStateM Error (Engine σ) Unit :=
  onSource (Source.onStorage (Storage.saveTable table rows))

def invalidate : EStateM Error (Engine σ) Unit :=
  fun e => .ok () { e with cache := e.cache.invalidate }

/-- Hands out the reports gathered so far and forgets them. -/
def takeDiagnostics (e : Engine σ) : List Error × Engine σ :=
  (e.source.diagnostics, { e with source := { e.source with diagnostics := [] } })

def infoTable (registry : Registry) (table : String) : EStateM Error (Engine σ) TableInfo := do
  let schema ← ofExcept (registry.schema table)
  let rows ← loadRows table
  return ⟨schema.name, schema.columns, rows.length⟩

/-- Adds a row with a new identity, which it returns. The values are those of the data columns
in order. -/
def insert (registry : Registry) (table : String) (values : List Value) :
    EStateM Error (Engine σ) Int64 := do
  let schema ← ofExcept (registry.schema table)
  ofExcept (checkValues table schema.dataColumns values)
  let rows ← loadRows table
  let id ← ofExcept (nextId table rows)
  saveRows table (rows ++ [newRow id schema.dataColumns values])
  invalidate
  return id

/-- The rows that a filter lets through, in stored order. The whole table is cached under the
fingerprint of the read, and the filter is applied to what is cached. -/
def select (registry : Registry) (table : String) (filter : Option Predicate) :
    EStateM Error (Engine σ) (List Row) := do
  let schema ← ofExcept (registry.schema table)
  ofExcept (checkFilter filter schema)
  let scan ← scanTable ⟨table, filter.map Predicate.canonical⟩
  return scan.filter (selects filter)
where
  scanTable (key : Fingerprint) : EStateM Error (Engine σ) (List Row) :=
    onPart (fun e => (e.cache, e.source)) (fun _ parts => ⟨parts.1, parts.2⟩)
      (ScanCache.getOrLoad key (Source.loadRows key.table))

def update (registry : Registry) (table : String) (assignments : SetClause)
    (filter : Option Predicate) : EStateM Error (Engine σ) Mutation := do
  let schema ← ofExcept (registry.schema table)
  ofExcept (checkAssignments table schema assignments)
  ofExcept (checkFilter filter schema)
  let rows ← loadRows table
  if rows.any (selects filter) then
    saveRows table (rows.map fun r => if selects filter r then assign r else r)
    invalidate
    return .applied (((rows.filter (selects filter)).map assign).filterMap Row.id?)
  else return .noMatch
where
  assign (r : Row) : Row := r.insertAll assignments.entries

def delete (registry : Registry) (table : String) (filter : Option Predicate) :
    EStateM Error (Engine σ) Mutation := do
  let schema ← ofExcept (registry.schema table)
  ofExcept (checkFilter filter schema)
  let rows ← loadRows table
  if rows.any (selects filter) then
    saveRows table (rows.filter (!selects filter ·))
    invalidate
    return .applied ((rows.filter (selects filter)).filterMap Row.id?)
  else return .noMatch

end Engine

namespace Workspace

def withRegistry {α : Type} (act : Registry → EStateM Error (Engine σ) α) :
    EStateM Error (Workspace σ) α :=
  fun w => onPart engine (fun w engine => { w with engine := engine }) (act w.registry) w

def setRegistry (change : Registry → Registry) : EStateM Error (Workspace σ) Unit :=
  fun w => .ok () { w with registry := change w.registry }

def createTable (table : String) (specs : List ColumnSpec) :
    EStateM Error (Workspace σ) Schema := do
  let schema ← withRegistry fun registry => do
    if registry.contains table then throw (.tableExists table)
    let schema ← ofExcept (Schema.define table specs)
    Engine.saveRows table []
    return schema
  setRegistry (·.insert schema)
  withRegistry fun _ => Engine.invalidate
  return schema

def dropTable (table : String) : EStateM Error (Workspace σ) Schema := do
  withRegistry fun registry => do
    let _ ← ofExcept (registry.schema table)
    Engine.onSource (Source.onStorage (Storage.removeTable table))
  let schema ← withRegistry fun registry =>
    match registry.get? table with
    | some schema => pure schema
    | none => throw (.internal s!"table '{table}' vanished during drop")
  setRegistry (·.erase table)
  withRegistry fun _ => Engine.invalidate
  return schema

end Workspace
end TableStore
