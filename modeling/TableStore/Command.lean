import TableStore.Engine

/-!
Commands: requests to a database as data, with their replies. A database keeps no registry
between commands; it loads the registry before each and saves it after each that may change
something.
-/

namespace TableStore

inductive Command where
  | createTable (table : String) (specs : List ColumnSpec)
  | dropTable (table : String)
  | listTables
  | infoTable (table : String)
  | insert (table : String) (values : List Value)
  | select (table : String) (filter : Option Predicate)
  | update (table : String) (assignments : SetClause) (filter : Option Predicate)
  | delete (table : String) (filter : Option Predicate)
  deriving DecidableEq

inductive Reply where
  | schema (s : Schema)
  | tables (names : Option (List String))
  | info (i : TableInfo)
  | inserted (id : Int64)
  | rows (rows : List Row)
  | mutation (m : Mutation)
  deriving DecidableEq

namespace Command

variable {σ : Type} [Storage σ]

/-- Whether the registry is saved after the command. -/
def isMutating : Command → Bool
  | createTable _ _ | dropTable _ | insert _ _ | update _ _ _ | delete _ _ => true
  | listTables | infoTable _ | select _ _ => false

/-- Executes a command with the registry that the caller holds. -/
def perform : Command → EStateM Error (Workspace σ) Reply
  | createTable table specs => return .schema (← Workspace.createTable table specs)
  | dropTable table => return .schema (← Workspace.dropTable table)
  | listTables => Workspace.withRegistry fun registry => return .tables registry.listing
  | infoTable table =>
    Workspace.withRegistry fun registry => return .info (← Engine.infoTable registry table)
  | insert table values =>
    Workspace.withRegistry fun registry =>
      return .inserted (← Engine.insert registry table values)
  | select table filter =>
    Workspace.withRegistry fun registry => return .rows (← Engine.select registry table filter)
  | update table assignments filter =>
    Workspace.withRegistry fun registry =>
      return .mutation (← Engine.update registry table assignments filter)
  | delete table filter =>
    Workspace.withRegistry fun registry =>
      return .mutation (← Engine.delete registry table filter)

/-- Executes a command with the stored registry, and saves it if the command may have changed
something and did not fail. -/
def run (c : Command) : EStateM Error (Engine σ) Reply := do
  let registry ← Engine.loadRegistry
  let (reply, registry) ← holding registry
  if c.isMutating then Engine.saveRegistry registry
  return reply
where
  /-- Performs the command and returns the registry together with the reply. -/
  holding (registry : Registry) : EStateM Error (Engine σ) (Reply × Registry) :=
    fun engine =>
      match c.perform ⟨registry, engine⟩ with
      | .ok reply w => .ok (reply, w.registry) w.engine
      | .error e w => .error e w.engine

end Command

end TableStore
