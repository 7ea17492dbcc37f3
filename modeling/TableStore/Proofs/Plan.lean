import TableStore.Command
import TableStore.Proofs.Action

/-!
Every command is a check of the request against a registry, followed by at most one access to
one table. The plan of a command is that access as data; what is shown of plans holds of all
commands.
-/

namespace TableStore

/-- What is done with the rows of a table: a reply, and the rows to put in their place if they
change. -/
abbrev Visit := List Row → Except Error (Reply × Option (List Row))

/-- What is left of a command once its request has been checked. -/
inductive Plan where
  | answer (reply : Reply)
  /-- Read a table through the cache. -/
  | scan (key : Fingerprint) (reply : List Row → Reply)
  /-- Read a table past the cache, and perhaps replace its rows. -/
  | visit (table : String) (next : Visit)
  | create (schema : Schema)
  | drop (schema : Schema)

def updatedRows (assignments : SetClause) (filter : Option Predicate) (rows : List Row) :
    List Row :=
  rows.map fun r => if selects filter r then r.insertAll assignments.entries else r

theorem updatedRows_of_not_any {assignments : SetClause} {filter : Option Predicate}
    {rows : List Row} (h : ¬ rows.any (selects filter)) :
    updatedRows assignments filter rows = rows := by
  refine (List.map_congr_left fun r hr => ?_).trans (List.map_id rows)
  exact if_neg fun hs => h (List.any_eq_true.mpr ⟨r, hr, hs⟩)

def keptRows (filter : Option Predicate) (rows : List Row) : List Row :=
  rows.filter (!selects filter ·)

namespace Visit

def info (s : Schema) : Visit := fun rows => .ok (.info ⟨s.name, s.columns, rows.length⟩, none)

def insert (table : String) (s : Schema) (values : List Value) : Visit := fun rows => do
  let id ← nextId table rows
  return (.inserted id, some (rows ++ [newRow id s.dataColumns values]))

def update (assignments : SetClause) (filter : Option Predicate) : Visit := fun rows =>
  if rows.any (selects filter) then
    .ok (.mutation (.applied (((rows.filter (selects filter)).map fun r =>
      r.insertAll assignments.entries).filterMap Row.id?)),
      some (updatedRows assignments filter rows))
  else .ok (.mutation .noMatch, none)

def delete (filter : Option Predicate) : Visit := fun rows =>
  if rows.any (selects filter) then
    .ok (.mutation (.applied ((rows.filter (selects filter)).filterMap Row.id?)),
      some (keptRows filter rows))
  else .ok (.mutation .noMatch, none)

end Visit

namespace Command

/-- The table that a command is about, if it is about one. -/
def table? : Command → Option String
  | createTable table _ | dropTable table | infoTable table | insert table _ | select table _
  | update table _ _ | delete table _ => some table
  | listTables => none

/-- Checks a request against a registry. -/
def plan (registry : Registry) : Command → Except Error Plan
  | createTable table specs =>
    if registry.contains table then .error (.tableExists table)
    else (Schema.define table specs).map .create
  | dropTable table => (registry.schema table).map .drop
  | listTables => .ok (.answer (.tables registry.listing))
  | infoTable table => do
    let schema ← registry.schema table
    return .visit table (.info schema)
  | insert table values => do
    let schema ← registry.schema table
    checkValues table schema.dataColumns values
    return .visit table (.insert table schema values)
  | select table filter => do
    let schema ← registry.schema table
    checkFilter filter schema
    return .scan ⟨table, filter.map Predicate.canonical⟩ fun rows =>
      .rows (rows.filter (selects filter))
  | update table assignments filter => do
    let schema ← registry.schema table
    checkAssignments table schema assignments
    checkFilter filter schema
    return .visit table (.update assignments filter)
  | delete table filter => do
    let schema ← registry.schema table
    checkFilter filter schema
    return .visit table (.delete filter)

/-- The plans of commands, each with what has been checked. -/
inductive Planned (registry : Registry) : Command → Plan → Prop where
  | createTable {table specs schema} (absent : registry.contains table = false)
      (defined : Schema.define table specs = .ok schema) :
      Planned registry (.createTable table specs) (.create schema)
  | dropTable {table schema} (found : registry.schema table = .ok schema) :
      Planned registry (.dropTable table) (.drop schema)
  | listTables : Planned registry .listTables (.answer (.tables registry.listing))
  | infoTable {table schema} (found : registry.schema table = .ok schema) :
      Planned registry (.infoTable table) (.visit table (.info schema))
  | insert {table values schema} (found : registry.schema table = .ok schema)
      (checked : checkValues table schema.dataColumns values = .ok ()) :
      Planned registry (.insert table values) (.visit table (.insert table schema values))
  | select {table filter schema} (found : registry.schema table = .ok schema)
      (checked : checkFilter filter schema = .ok ()) :
      Planned registry (.select table filter)
        (.scan ⟨table, filter.map Predicate.canonical⟩ fun rows =>
          .rows (rows.filter (selects filter)))
  | update {table assignments filter schema} (found : registry.schema table = .ok schema)
      (checked : checkAssignments table schema assignments = .ok ())
      (filtered : checkFilter filter schema = .ok ()) :
      Planned registry (.update table assignments filter)
        (.visit table (.update assignments filter))
  | delete {table filter schema} (found : registry.schema table = .ok schema)
      (filtered : checkFilter filter schema = .ok ()) :
      Planned registry (.delete table filter) (.visit table (.delete filter))

theorem planned {registry : Registry} {c : Command} {p : Plan} (h : c.plan registry = .ok p) :
    Planned registry c p := by
  cases c with
  | createTable table specs =>
      simp only [plan] at h
      split at h
      · cases h
      · next habsent =>
          obtain ⟨_, hdefined, rfl⟩ := exceptMap_eq_ok.mp h
          exact .createTable (by simpa using habsent) hdefined
  | dropTable table =>
      obtain ⟨_, hfound, rfl⟩ := exceptMap_eq_ok.mp h
      exact .dropTable hfound
  | listTables => cases h; exact .listTables
  | infoTable table =>
      obtain ⟨_, hfound, h⟩ := exceptBind_eq_ok.mp h
      cases h
      exact .infoTable hfound
  | insert table values =>
      obtain ⟨_, hfound, h⟩ := exceptBind_eq_ok.mp h
      obtain ⟨_, hchecked, h⟩ := exceptBind_eq_ok.mp h
      cases h
      exact .insert hfound hchecked
  | select table filter =>
      obtain ⟨_, hfound, h⟩ := exceptBind_eq_ok.mp h
      obtain ⟨_, hchecked, h⟩ := exceptBind_eq_ok.mp h
      cases h
      exact .select hfound hchecked
  | update table assignments filter =>
      obtain ⟨_, hfound, h⟩ := exceptBind_eq_ok.mp h
      obtain ⟨_, hchecked, h⟩ := exceptBind_eq_ok.mp h
      obtain ⟨_, hfiltered, h⟩ := exceptBind_eq_ok.mp h
      cases h
      exact .update hfound hchecked hfiltered
  | delete table filter =>
      obtain ⟨_, hfound, h⟩ := exceptBind_eq_ok.mp h
      obtain ⟨_, hfiltered, h⟩ := exceptBind_eq_ok.mp h
      cases h
      exact .delete hfound hfiltered

end Command

variable {σ : Type} [Storage σ]

/-- The rows of a table as the storage has them; a damaged table is empty. -/
def Storage.loadRows (table : String) : EStateM Error σ (List Row) :=
  return (← Storage.loadTable table).value

/-- Changes the storage, and then drops all cached scans. -/
def Engine.change (act : EStateM Error σ Unit) : EStateM Error (Engine σ) Unit := do
  onSource (Source.onStorage act)
  invalidate

namespace Engine

def withStorage (e : Engine σ) (s : σ) : Engine σ :=
  { e with source := { e.source with storage := s } }

def withReport (e : Engine σ) (report : Option Error) : Engine σ :=
  { e with source := { e.source with diagnostics := e.source.diagnostics ++ report.toList } }

def withoutScans (e : Engine σ) : Engine σ := { e with cache := e.cache.invalidate }

def withLookup (e : Engine σ) (hit : Bool) : Engine σ :=
  { e with cache := { e.cache with stats := e.cache.stats.countLookup hit } }

def withScan (e : Engine σ) (key : Fingerprint) (rows : List Row) : Engine σ :=
  { e with cache := e.cache.keep key rows }

section
omit [Storage σ]
variable (e : Engine σ) (s : σ) (report : Option Error)

@[simp] theorem storage_withStorage : (e.withStorage s).source.storage = s := rfl

@[simp] theorem storage_withReport :
    (e.withReport report).source.storage = e.source.storage := rfl

@[simp] theorem storage_withLookup (hit : Bool) :
    (e.withLookup hit).source.storage = e.source.storage := rfl

@[simp] theorem storage_withScan (key : Fingerprint) (rows : List Row) :
    (e.withScan key rows).source.storage = e.source.storage := rfl

variable {e} in
/-- What is cached after a scan has been kept is that scan or was cached before. -/
theorem peek_withScan {key key' : Fingerprint} {rows rows' : List Row}
    (h : (e.withScan key rows).cache.peek key' = some rows') :
    key' = key ∧ rows' = rows ∨ e.cache.peek key' = some rows' := by
  rw [withScan, ScanCache.keep, ScanCache.peek] at h
  split at h
  · rw [KeyedList.get?_insert] at h
    split at h
    · next hk =>
        cases h
        exact .inl ⟨hk, rfl⟩
    · exact .inr h
  · exact .inr h

end

/-- Loads a document past the cache; what is damaged is reported. -/
def loadPast {α : Type} (act : EStateM Error σ (Loaded α)) : EStateM Error (Engine σ) α :=
  onSource do Source.absorb (← Source.onStorage act)

omit [Storage σ] in
theorem ensures_loadPast {α : Type} {act : EStateM Error σ (Loaded α)} {e : Engine σ}
    {post : α → Engine σ → Prop} {fail : Error → Engine σ → Prop}
    (ok : ∀ loaded s, act e.source.storage = .ok loaded s →
      post loaded.value ((e.withStorage s).withReport loaded.corruption))
    (error : ∀ err s, act e.source.storage = .error err s → fail err (e.withStorage s)) :
    Ensures (loadPast act) e post fail := by
  refine ensures_onPart (ensures_bind (ensures_onPart (ensures_of_cases ?_ error)))
  intro loaded s h
  exact ok loaded s h

theorem ensures_saveRegistry {r : Registry} {e : Engine σ} {post : Unit → Engine σ → Prop}
    {fail : Error → Engine σ → Prop}
    (ok : ∀ s, Storage.saveRegistry r e.source.storage = .ok () s → post () (e.withStorage s))
    (error : ∀ err s, Storage.saveRegistry r e.source.storage = .error err s →
      fail err (e.withStorage s)) :
    Ensures (saveRegistry r) e post fail :=
  ensures_onPart (ensures_onPart (ensures_of_cases (fun _ s h => ok s h) error))

theorem ensures_scanTable {key : Fingerprint} {e : Engine σ} {post : List Row → Engine σ → Prop}
    {fail : Error → Engine σ → Prop}
    (hit : ∀ rows, e.cache.peek key = some rows → post rows (e.withLookup true))
    (miss : ∀ loaded s, e.cache.peek key = none →
      Storage.loadTable key.table e.source.storage = .ok loaded s →
      post loaded.value
        ((((e.withLookup false).withStorage s).withReport loaded.corruption).withScan key
          loaded.value))
    (error : ∀ err s, e.cache.peek key = none →
      Storage.loadTable key.table e.source.storage = .error err s →
      fail err ((e.withLookup false).withStorage s)) :
    Ensures (select.scanTable key) e post fail := by
  rw [Ensures]
  simp only [select.scanTable, onPart, ScanCache.getOrLoad, ScanCache.get]
  cases hp : e.cache.peek key with
  | some rows => exact hit rows hp
  | none =>
      simp only [Source.loadRows, Source.onStorage, onPart, bind_apply]
      cases hl : Storage.loadTable key.table e.source.storage with
      | ok loaded s => exact miss loaded s hp hl
      | error err s => exact error err s hp hl

omit [Storage σ] in
theorem ensures_change {act : EStateM Error σ Unit} {e : Engine σ}
    {post : Unit → Engine σ → Prop} {fail : Error → Engine σ → Prop}
    (ok : ∀ s, act e.source.storage = .ok () s → post () (e.withStorage s).withoutScans)
    (error : ∀ err s, act e.source.storage = .error err s → fail err (e.withStorage s)) :
    Ensures (change act) e post fail :=
  ensures_bind (ensures_onPart (ensures_onPart (ensures_of_cases (fun _ s h => ok s h) error)))

omit [Storage σ] in
theorem change_apply (act : EStateM Error σ Unit) (e : Engine σ) :
    change act e =
      match act e.source.storage with
      | .ok _ s => .ok () (e.withStorage s).withoutScans
      | .error err s => .error err (e.withStorage s) := by
  simp only [change, onSource, Source.onStorage, onPart, bind_apply]
  cases act e.source.storage <;> rfl

end Engine

namespace Plan

/-- The registry that a plan leaves when it succeeds. -/
def onRegistry : Plan → Registry → Registry
  | answer _, r | scan _ _, r | visit _ _, r => r
  | create schema, r => r.insert schema
  | drop schema, r => r.erase schema.name

def onEngine : Plan → EStateM Error (Engine σ) Reply
  | answer reply => return reply
  | scan key reply => return reply (← Engine.select.scanTable key)
  | visit table next => do
    let rows ← Engine.loadRows table
    let (reply, write) ← ofExcept (next rows)
    match write with
    | none => return reply
    | some rows =>
      Engine.change (Storage.saveTable table rows)
      return reply
  | create schema => do
    Engine.change (Storage.saveTable schema.name [])
    return .schema schema
  | drop schema => do
    Engine.change (Storage.removeTable schema.name)
    return .schema schema

/-- Carries a plan out on a storage alone, without a cache. -/
def onStorage : Plan → EStateM Error σ Reply
  | answer reply => return reply
  | scan key reply => return reply (← Storage.loadRows key.table)
  | visit table next => do
    let rows ← Storage.loadRows table
    let (reply, write) ← ofExcept (next rows)
    match write with
    | none => return reply
    | some rows =>
      Storage.saveTable table rows
      return reply
  | create schema => do
    Storage.saveTable schema.name []
    return .schema schema
  | drop schema => do
    Storage.removeTable schema.name
    return .schema schema

end Plan

theorem Registry.get?_of_schema {r : Registry} {table : String} {s : Schema}
    (h : r.schema table = .ok s) : r.get? table = some s := by
  rw [Registry.schema] at h
  split at h
  · cases h; assumption
  · cases h

theorem Registry.schema_name {r : Registry} {table : String} {s : Schema}
    (h : r.schema table = .ok s) : s.name = table := by
  have hs := get?_of_schema h
  rw [Registry.get?] at hs
  obtain ⟨columns, -, rfl⟩ := Option.map_eq_some_iff.mp hs
  rfl

namespace Engine

/-! The operations of the engine carry out the plans of their commands. -/

theorem infoTable_eq (r : Registry) (table : String) :
    (return .info (← infoTable r table) : EStateM Error (Engine σ) Reply) =
      ofExcept ((Command.infoTable table).plan r) >>= Plan.onEngine := by
  simp only [infoTable, Command.plan, Visit.info, ofExcept_bind, ofExcept_pure, bind_assoc,
    pure_bind, Plan.onEngine, ofExcept_ok]

theorem insert_eq (r : Registry) (table : String) (values : List Value) :
    (return .inserted (← insert r table values) : EStateM Error (Engine σ) Reply) =
      ofExcept ((Command.insert table values).plan r) >>= Plan.onEngine := by
  simp only [insert, Command.plan, Visit.insert, ofExcept_bind, ofExcept_pure, bind_assoc,
    pure_bind, Plan.onEngine, change, saveRows]

theorem select_eq (r : Registry) (table : String) (filter : Option Predicate) :
    (return .rows (← select r table filter) : EStateM Error (Engine σ) Reply) =
      ofExcept ((Command.select table filter).plan r) >>= Plan.onEngine := by
  simp only [select, Command.plan, ofExcept_bind, ofExcept_pure, bind_assoc, pure_bind,
    Plan.onEngine]

theorem update_eq (r : Registry) (table : String) (assignments : SetClause)
    (filter : Option Predicate) :
    (return .mutation (← update r table assignments filter) : EStateM Error (Engine σ) Reply) =
      ofExcept ((Command.update table assignments filter).plan r) >>= Plan.onEngine := by
  simp only [update, Command.plan, Visit.update, ofExcept_bind, ofExcept_pure, bind_assoc,
    pure_bind, Plan.onEngine, change, saveRows]
  congr; funext schema; congr; funext _; congr; funext _; congr; funext rows
  split
  · simp only [bind_assoc, pure_bind, ofExcept_ok]; rfl
  · simp only [pure_bind, ofExcept_ok]

theorem delete_eq (r : Registry) (table : String) (filter : Option Predicate) :
    (return .mutation (← delete r table filter) : EStateM Error (Engine σ) Reply) =
      ofExcept ((Command.delete table filter).plan r) >>= Plan.onEngine := by
  simp only [delete, Command.plan, Visit.delete, ofExcept_bind, ofExcept_pure, bind_assoc,
    pure_bind, Plan.onEngine, change, saveRows]
  congr; funext schema; congr; funext _; congr; funext rows
  split
  · simp only [bind_assoc, pure_bind, ofExcept_ok]; rfl
  · simp only [pure_bind, ofExcept_ok]

end Engine

/-- Carries out what a check of the registry plans, if it plans anything. -/
def Workspace.follow (check : Registry → Except Error Plan) : EStateM Error (Workspace σ) Reply :=
  fun w =>
    match check w.registry with
    | .error e => .error e w
    | .ok plan =>
      match plan.onEngine w.engine with
      | .ok reply engine => .ok reply ⟨plan.onRegistry w.registry, engine⟩
      | .error e engine => .error e ⟨w.registry, engine⟩

theorem Workspace.withRegistry_eq_follow (check : Registry → Except Error Plan)
    (keeps : ∀ r plan, check r = .ok plan → plan.onRegistry r = r) :
    Workspace.withRegistry (fun r => ofExcept (check r) >>= Plan.onEngine) =
      (Workspace.follow check : EStateM Error (Workspace σ) Reply) := by
  funext w
  rw [Workspace.withRegistry, onPart, Workspace.follow]
  simp only [bind_apply]
  cases h : check w.registry with
  | error e => rfl
  | ok plan =>
      simp only [ofExcept_ok_apply]
      cases plan.onEngine w.engine with
      | ok reply engine => simp only [keeps _ _ h]
      | error e engine => rfl

theorem Schema.define_name {table : String} {specs : List ColumnSpec} {s : Schema}
    (h : define table specs = .ok s) : s.name = table := by
  rw [define] at h
  split at h
  · cases h
  · obtain ⟨columns, -, rfl⟩ := exceptMap_eq_ok.mp h
    rfl

namespace Command

theorem onRegistry_of_plan {c : Command} (hc : ∀ table specs, c ≠ createTable table specs)
    (hd : ∀ table, c ≠ dropTable table) {r : Registry} {p : Plan} (h : c.plan r = .ok p) :
    p.onRegistry r = r := by
  cases planned h with
  | createTable _ _ => exact absurd rfl (hc _ _)
  | dropTable _ => exact absurd rfl (hd _)
  | listTables | infoTable _ | insert _ _ | select _ _ | update _ _ _ | delete _ _ => rfl

theorem onRegistry_of_not_mutating {c : Command} (hc : c.isMutating = false) {r : Registry}
    {p : Plan} (h : c.plan r = .ok p) : p.onRegistry r = r :=
  onRegistry_of_plan (fun _ _ he => by rw [he] at hc; cases hc)
    (fun _ he => by rw [he] at hc; cases hc) h

theorem createTable_eq_follow (table : String) (specs : List ColumnSpec) :
    (createTable table specs).perform =
      (Workspace.follow (createTable table specs).plan : EStateM Error (Workspace σ) Reply) := by
  funext w
  simp only [perform, Workspace.createTable, Workspace.follow, plan, bind_apply,
    Workspace.withRegistry, onPart]
  cases hc : w.registry.contains table with
  | true => rfl
  | false =>
      cases hd : Schema.define table specs with
      | error e => rfl
      | ok schema =>
          cases Schema.define_name hd
          cases hs : Storage.saveTable schema.name [] w.engine.source.storage <;>
            simp only [Bool.false_eq_true, ite_false, Plan.onEngine, Except.map, bind_apply,
              ofExcept_ok_apply, Engine.change_apply, Engine.saveRows, Engine.onSource,
              Source.onStorage, onPart, hs] <;> rfl

theorem dropTable_eq_follow (table : String) :
    (dropTable table).perform =
      (Workspace.follow (dropTable table).plan : EStateM Error (Workspace σ) Reply) := by
  funext w
  simp only [perform, Workspace.dropTable, Workspace.follow, plan, bind_apply,
    Workspace.withRegistry, onPart]
  cases hs : w.registry.schema table with
  | error e => rfl
  | ok schema =>
      have hg := Registry.get?_of_schema hs
      cases Registry.schema_name hs
      cases hr : Storage.removeTable schema.name w.engine.source.storage <;>
        simp only [Plan.onEngine, Except.map, bind_apply, ofExcept_ok_apply, Engine.change_apply,
          Engine.onSource, Source.onStorage, onPart, hg, hr] <;> rfl

/-- Every command carries out its plan. -/
theorem perform_eq_follow (c : Command) :
    c.perform = (Workspace.follow c.plan : EStateM Error (Workspace σ) Reply) := by
  cases c with
  | createTable table specs => exact createTable_eq_follow table specs
  | dropTable table => exact dropTable_eq_follow table
  | listTables => rfl
  | infoTable _ | insert _ _ | select _ _ | update _ _ _ | delete _ _ =>
      rw [← Workspace.withRegistry_eq_follow]
      · simp only [perform, Engine.infoTable_eq, Engine.insert_eq, Engine.select_eq,
          Engine.update_eq, Engine.delete_eq]
      · intro r plan h
        exact onRegistry_of_plan (by simp) (by simp) h

theorem holding_eq (c : Command) (r : Registry) :
    run.holding c r = (do
      let p ← ofExcept (c.plan r)
      let reply ← p.onEngine
      return (reply, p.onRegistry r) : EStateM Error (Engine σ) (Reply × Registry)) := by
  funext e
  simp only [run.holding, perform_eq_follow, Workspace.follow, bind_apply]
  cases c.plan r with
  | error err => rfl
  | ok p =>
      simp only [ofExcept_ok_apply]
      cases p.onEngine e <;> rfl

/-- A database loads the registry, carries out the plan and saves the registry. -/
theorem run_eq (c : Command) :
    c.run = (do
      let r ← Engine.loadRegistry
      let p ← ofExcept (c.plan r)
      let reply ← p.onEngine
      if c.isMutating then
        Engine.saveRegistry (p.onRegistry r)
      return reply : EStateM Error (Engine σ) Reply) := by
  simp only [run, holding_eq, bind_assoc, pure_bind]

end Command
end TableStore
