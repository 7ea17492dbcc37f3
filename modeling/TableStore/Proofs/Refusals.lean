import TableStore.Proofs.Atomicity
import TableStore.Proofs.Confinement
import TableStore.Proofs.Definition
import TableStore.Proofs.Insertion
import TableStore.Proofs.PartialFailure

/-!
Refusals: errors that lie in a request or in the rows that it meets, as against failures of the
storage. A command that is refused has touched nothing. No file is different, no cached scan and
no count of the cache, and a storage in memory has at most counted loads.
-/

namespace TableStore

variable {table : String} {s : Schema} {r : Registry} {c : Command} {e : Error}

/-! ## Where a refusal lies -/

theorem WrongSpec.code_ne {before : List ColumnSpec} {spec : ColumnSpec}
    (h : WrongSpec table before spec e) : e.code ≠ .idExhausted := by
  cases h <;> nofun

theorem WrongValue.code_ne {p : Column × Value} (h : WrongValue table p e) :
    e.code ≠ .idExhausted := by
  cases h
  nofun

theorem WrongAssignment.code_ne {p : String × Value} (h : WrongAssignment table s p e) :
    e.code ≠ .idExhausted := by
  cases h <;> nofun

theorem WrongFilter.code_ne {filter : Option Predicate} (h : WrongFilter s filter e) :
    e.code ≠ .idExhausted := by
  cases h <;> nofun

theorem Registry.code_ne_of_schema (h : r.schema table = .error e) : e.code ≠ .idExhausted := by
  obtain ⟨-, rfl⟩ := schema_eq_error.mp h
  nofun

namespace Command

/-- What is wrong with a request itself has nothing to do with identities. -/
theorem code_ne_of_plan (h : c.plan r = .error e) : e.code ≠ .idExhausted := by
  cases c with
  | createTable table specs =>
      simp only [plan] at h
      split at h
      · cases h
        rintro ⟨⟩
      · obtain ⟨-, rfl⟩ | ⟨-, _, _, _, -, -, hwrong⟩ :=
          Schema.define_eq_error.mp (exceptMap_eq_error.mp h)
        · rintro ⟨⟩
        · exact hwrong.code_ne
  | dropTable table => exact Registry.code_ne_of_schema (exceptMap_eq_error.mp h)
  | listTables => cases h
  | infoTable table =>
      obtain h | ⟨s, -, h⟩ := exceptBind_eq_error.mp h
      · exact Registry.code_ne_of_schema h
      · cases h
  | insert table values =>
      obtain h | ⟨s, -, h⟩ := exceptBind_eq_error.mp h
      · exact Registry.code_ne_of_schema h
      · obtain h | ⟨-, h⟩ := exceptThen_eq_error.mp h
        · obtain ⟨-, rfl⟩ | ⟨-, _, _, _, -, -, hwrong⟩ := checkValues_eq_error.mp h
          · rintro ⟨⟩
          · exact hwrong.code_ne
        · cases h
  | select table filter | delete table filter =>
      obtain h | ⟨s, -, h⟩ := exceptBind_eq_error.mp h
      · exact Registry.code_ne_of_schema h
      · obtain h | ⟨-, h⟩ := exceptThen_eq_error.mp h
        · exact (checkFilter_eq_error.mp h).code_ne
        · cases h
  | update table assignments filter =>
      obtain h | ⟨s, -, h⟩ := exceptBind_eq_error.mp h
      · exact Registry.code_ne_of_schema h
      · obtain h | ⟨-, h⟩ := exceptThen_eq_error.mp h
        · obtain ⟨-, rfl⟩ | ⟨_, _, _, -, -, hwrong⟩ := checkAssignments_eq_error.mp h
          · rintro ⟨⟩
          · exact hwrong.code_ne
        · obtain h | ⟨-, h⟩ := exceptThen_eq_error.mp h
          · exact (checkFilter_eq_error.mp h).code_ne
          · cases h

/-- The rows of a table are in the way of a request only if no identity is left. -/
theorem refused_of_visit {visit : Visit} {rows : List Row}
    (h : c.plan r = .ok (.visit table visit)) (he : visit rows = .error e) :
    e.isValidation ∧ e.code = .idExhausted := by
  cases planned h with
  | infoTable _ => cases he
  | insert _ _ =>
      obtain he | ⟨id, -, he⟩ := exceptBind_eq_error.mp he
      · obtain ⟨-, rfl⟩ := nextId_eq_error.mp he
        exact ⟨rfl, rfl⟩
      · cases he
  | update _ _ _ | delete _ _ =>
      simp only [Visit.update, Visit.delete] at he
      split at he <;> cases he

end Command

/-! ## Storages that refuse -/

/-- A call that is refused has left the storage as it was, and so has every load. Saving the
registry is never refused. -/
structure Storage.RefusesUntouched (σ : Type) [Storage σ] : Prop where
  loadRegistry : ∀ s : σ, finalState (Storage.loadRegistry s) = s
  loadTable : ∀ table (s : σ), finalState (Storage.loadTable table s) = s
  saveRegistry : ∀ r (s : σ) e s', Storage.saveRegistry r s = .error e s' → ¬ e.isValidation
  saveTable : ∀ table rows (s : σ) e s', Storage.saveTable table rows s = .error e s' →
    e.isValidation → s' = s
  removeTable : ∀ table (s : σ) e s', Storage.removeTable table s = .error e s' →
    e.isValidation → s' = s

/-- No call of the storage fails. -/
structure Storage.Unfailing (σ : Type) [Storage σ] : Prop where
  loadRegistry : ∀ (s : σ) e s', Storage.loadRegistry s ≠ .error e s'
  loadTable : ∀ table (s : σ) e s', Storage.loadTable table s ≠ .error e s'
  saveRegistry : ∀ r (s : σ) e s', Storage.saveRegistry r s ≠ .error e s'
  saveTable : ∀ table rows (s : σ) e s', Storage.saveTable table rows s ≠ .error e s'
  removeTable : ∀ table (s : σ) e s', Storage.removeTable table s ≠ .error e s'

section
variable {σ : Type} [Storage σ]

theorem Plan.untouched_of_refused (law : Storage.RefusesUntouched σ) (p : Plan) (e : Engine σ) :
    Ensures p.onEngine e (fun _ _ => True)
      fun err e' => err.isValidation → e'.source.storage = e.source.storage := by
  have hload (t : String) := ensures_of_finalState (law.loadTable t e.source.storage)
  cases p with
  | answer reply => trivial
  | scan key reply =>
      exact ensures_bind (Engine.ensures_scanTable (fun _ _ => trivial)
        (fun _ _ _ _ => trivial) fun _ _ _ hl _ => (hload key.table).error hl)
  | visit table visit =>
      refine ensures_bind (Engine.ensures_loadPast ?_ fun _ _ hl _ => (hload table).error hl)
      intro loaded s hl
      cases (hload table).ok hl
      refine ensures_bind (ensures_ofExcept ?_ fun _ _ _ => rfl)
      rintro ⟨reply, write⟩ -
      cases write with
      | none => trivial
      | some rows =>
          exact ensures_bind (Engine.ensures_change (fun _ _ => trivial)
            fun _ _ hw => law.saveTable table rows _ _ _ hw)
  | create schema =>
      exact ensures_bind (Engine.ensures_change (fun _ _ => trivial)
        fun _ _ hw => law.saveTable schema.name [] _ _ _ hw)
  | drop schema =>
      exact ensures_bind (Engine.ensures_change (fun _ _ => trivial)
        fun _ _ hw => law.removeTable schema.name _ _ _ hw)

/-- Once a plan has been carried out, a command can fail but not be refused. -/
theorem Command.untouched_of_refused (law : Storage.RefusesUntouched σ) (c : Command)
    (e : Engine σ) :
    Ensures c.run e (fun _ _ => True)
      fun err e' => err.isValidation → e'.source.storage = e.source.storage := by
  have hload := ensures_of_finalState (law.loadRegistry e.source.storage)
  rw [run_eq]
  refine ensures_bind (Engine.ensures_loadPast ?_ fun _ _ hl _ => hload.error hl)
  intro loaded s hl
  cases hload.ok hl
  refine ensures_bind (ensures_ofExcept ?_ fun _ _ _ => rfl)
  intro p _
  refine ensures_bind ((p.untouched_of_refused law _).mono ?_ fun _ _ h => h)
  intro reply e' _
  split
  · exact ensures_bind (Engine.ensures_saveRegistry (fun _ _ => trivial)
      fun err _ hs hv => absurd hv (law.saveRegistry _ _ err _ hs))
  · trivial

end

namespace FileStorage

variable {fs fs' : FileSystem} {file : Path}

theorem not_isValidation_of_saveDocument {α : Type} [Document α] {value : α}
    (h : FileSystem.saveDocument file value fs = .error e fs') : ¬ e.isValidation := by
  rw [FileSystem.saveDocument] at h
  split at h
  · cases h
    exact Bool.false_ne_true
  · split at h <;> cases h
    exact Bool.false_ne_true

theorem not_isValidation_of_removeDocument
    (h : FileSystem.removeDocument file fs = .error e fs') : ¬ e.isValidation := by
  rw [FileSystem.removeDocument] at h
  split at h <;> cases h
  exact Bool.false_ne_true

/-- On a table that has a document, no call is refused; on any other one, none gets further. -/
theorem eq_of_onTable_refused {act : Path → EStateM Error FileSystem Unit} {s s' : FileStorage}
    (hact : ∀ p fs e fs', act p fs = .error e fs' → ¬ e.isValidation)
    (h : onFiles (fun l => ofExcept (l.tableFile table) >>= act) s = .error e s')
    (he : e.isValidation) : s' = s := by
  by_cases hi : Text.isIdentifier table
  · obtain ⟨h, -⟩ := onFiles_eq_error.mp h
    rw [tableFile_eq hi] at h
    exact absurd he (hact _ _ _ _ h)
  · have hs : finalState (onFiles (fun l => ofExcept (l.tableFile table) >>= act) s) = s :=
      onTable_files_of_not hi
    rw [h] at hs
    exact hs

theorem refusesUntouched : Storage.RefusesUntouched FileStorage where
  loadRegistry := finalState_loadRegistry
  loadTable := finalState_loadTable
  saveRegistry _ _ _ _ h := not_isValidation_of_saveDocument (onFiles_eq_error.mp h).1
  saveTable _ _ _ _ _ h :=
    eq_of_onTable_refused (fun _ _ _ _ => not_isValidation_of_saveDocument) h
  removeTable _ _ _ _ h :=
    eq_of_onTable_refused (fun _ _ _ _ => not_isValidation_of_removeDocument) h

end FileStorage

namespace MemoryStorage

/-- What a refusal leaves: the load of the registry has been counted, and that of the table if its
rows are the reason. -/
def afterRefusal (m : MemoryStorage) (e : Error) : MemoryStorage :=
  { m with
    registryLoads := m.registryLoads + 1
    tableLoads := if e.code = .idExhausted then m.tableLoads + 1 else m.tableLoads }

theorem unfailing : Storage.Unfailing MemoryStorage where
  loadRegistry _ _ _ h := by cases h
  loadTable _ _ _ _ h := by cases h
  saveRegistry _ _ _ _ h := by cases h
  saveTable _ _ _ _ _ h := by cases h
  removeTable _ _ _ _ h := by cases h

/-- Nothing fails in memory but a visit to a table without an identity left. -/
theorem refused_of_plan {p : Plan} (h : c.plan r = .ok p) (e : Engine MemoryStorage) :
    let m := e.source.storage
    Ensures p.onEngine e (fun _ _ => True) fun err e' =>
      (err.isValidation ∧ err.code = .idExhausted) ∧
        e' = e.withStorage { m with tableLoads := m.tableLoads + 1 } := by
  intro m
  cases p with
  | answer reply => trivial
  | scan key reply =>
      exact ensures_bind (Engine.ensures_scanTable (fun _ _ => trivial)
        (fun _ _ _ _ => trivial) fun _ _ _ hl => (unfailing.loadTable _ _ _ _ hl).elim)
  | visit table visit =>
      refine ensures_bind (Engine.ensures_loadPast ?_
        fun _ _ hl => (unfailing.loadTable _ _ _ _ hl).elim)
      intro loaded s hl
      cases hl
      refine ensures_bind (ensures_ofExcept ?_ ?_)
      · rintro ⟨reply, write⟩ -
        cases write with
        | none => trivial
        | some rows =>
            exact ensures_bind (Engine.ensures_change (fun _ _ => trivial)
              fun _ _ hw => (unfailing.saveTable _ _ _ _ _ hw).elim)
      · intro err he
        refine ⟨Command.refused_of_visit h he, ?_⟩
        simp [Engine.withReport, Engine.withStorage, m]
  | create schema =>
      exact ensures_bind (Engine.ensures_change (fun _ _ => trivial)
        fun _ _ hw => (unfailing.saveTable _ _ _ _ _ hw).elim)
  | drop schema =>
      exact ensures_bind (Engine.ensures_change (fun _ _ => trivial)
        fun _ _ hw => (unfailing.removeTable _ _ _ _ hw).elim)

theorem refused_of_run (c : Command) (e : Engine MemoryStorage) :
    Ensures c.run e (fun _ _ => True) fun err e' =>
      err.isValidation ∧ e' = e.withStorage (e.source.storage.afterRefusal err) := by
  rw [Command.run_eq]
  refine ensures_bind (Engine.ensures_loadPast ?_
    fun _ _ hl => (unfailing.loadRegistry _ _ _ hl).elim)
  intro loaded s hl
  cases hl
  refine ensures_bind (ensures_ofExcept ?_ ?_)
  · intro p hp
    refine ensures_bind ((refused_of_plan hp _).mono ?_ ?_)
    · intro reply e' _
      split
      · exact ensures_bind (Engine.ensures_saveRegistry (fun _ _ => trivial)
          fun _ _ hs => (unfailing.saveRegistry _ _ _ _ hs).elim)
      · trivial
    · rintro err e' ⟨⟨hv, hc⟩, rfl⟩
      refine ⟨hv, ?_⟩
      simp [Engine.withReport, Engine.withStorage, afterRefusal, hc]
  · intro err he
    refine ⟨c.onlyRefuses_plan _ err he, ?_⟩
    simp [Engine.withReport, Engine.withStorage, afterRefusal, Command.code_ne_of_plan he]

end MemoryStorage

/-- A command that is refused has touched nothing. In files everything is as it was, drafts
included. In memory every failure is a refusal, and the storage has only counted the load of the
registry, and that of the table if it has no identity left; the cache is as it was, with its scans
and its counts. -/
theorem refused_untouched (c : Command) (err : Error) :
    (∀ e e' : Engine FileStorage, c.run e = .error err e' → err.isValidation →
      e'.source.storage.files = e.source.storage.files ∧
        e'.source.storage.layout = e.source.storage.layout) ∧
    ∀ e e' : Engine MemoryStorage, c.run e = .error err e' →
      let m := e.source.storage
      let m' := e'.source.storage
      err.isValidation ∧ e'.cache = e.cache ∧
        m'.registry = m.registry ∧ m'.tables = m.tables ∧
        m'.registrySaves = m.registrySaves ∧ m'.tableSaves = m.tableSaves ∧
        m'.registryLoads = m.registryLoads + 1 ∧
        m'.tableLoads = if err.code = .idExhausted then m.tableLoads + 1 else m.tableLoads := by
  refine ⟨fun e e' h hv => ?_, fun e e' h => ?_⟩
  · have hs := (c.untouched_of_refused FileStorage.refusesUntouched e).error h hv
    exact ⟨congrArg FileStorage.files hs, congrArg FileStorage.layout hs⟩
  · obtain ⟨hv, rfl⟩ := (MemoryStorage.refused_of_run c e).error h
    exact ⟨hv, rfl, rfl, rfl, rfl, rfl, rfl, rfl⟩

/-! A registry with a table whose name leads out of the directory of the tables, and a table whose
last row has the largest identity. -/

def outsideFiles : FileSystem where
  entries := .ofList [(["work"], .directory), (["data", "work"], .directory),
    (["db_meta.json", "work"], .file (Document.encode (Registry.empty.insert ⟨"../t", [.id]⟩)))]
  workingDirectory := ["work"]

def outside : Engine FileStorage := .create true (FileStorage.under ⟨""⟩ outsideFiles)

def fullTable : MemoryStorage :=
  { MemoryStorage.empty with
    registry := .insert .empty ⟨"t", [.id]⟩
    tables := .ofList [("t", [.withId Int64.maxValue])] }

theorem run_insert_outside :
    (Command.insert "../t" []).run outside = .error (.invalidTableName "../t") outside := by
  have hread : outsideFiles.registryBytes ⟨""⟩ =
      .ok (Document.encode (Registry.empty.insert ⟨"../t", [.id]⟩)) := rfl
  have hload : Engine.loadRegistry outside = _ :=
    Command.loadRegistry_eq_ok (FileStorage.loadRegistry_encode hread)
  rw [Command.run_eq, bind_apply, hload]
  rfl

theorem refused_untouched_outside :
    (∃ e', (Command.insert "../t" []).run outside = .error (.invalidTableName "../t") e' ∧
      e'.source.storage.files = outsideFiles) ∧
    ∃ e', (Command.insert "t" []).run (Engine.create true fullTable) =
        .error (.idExhausted "t" Int64.maxValue) e' ∧
      e'.cache = .create true ∧ e'.source.storage.tables = fullTable.tables ∧
      e'.source.storage.tableSaves = 0 ∧ e'.source.storage.tableLoads = 1 := by
  refine ⟨⟨_, run_insert_outside, ?_⟩, _, rfl, ?_⟩
  · exact ((refused_untouched _ _).1 _ _ run_insert_outside rfl).1
  · obtain ⟨-, hcache, -, htables, -, hsaves, -, hloads⟩ :=
      (refused_untouched (.insert "t" []) (.idExhausted "t" Int64.maxValue)).2
        (Engine.create true fullTable) _ rfl
    exact ⟨hcache, htables, hsaves, hloads⟩

end TableStore
