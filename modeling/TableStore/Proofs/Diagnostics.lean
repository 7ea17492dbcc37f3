import TableStore.Proofs.Files
import TableStore.Proofs.Session
import TableStore.Proofs.Simulation

/-!
Reports of damaged documents. A storage that remembers what it has been asked to load makes no
difference to what is done with it, and shows that the reports of an engine, those that have been
taken and those that are left, are the damaged ones among its loads.
-/

namespace TableStore

/-! ## Damaged documents -/

/-- The report on a file that can be read and holds no document of the kind. -/
def FileSystem.damage? (α : Type) [Document α] (fs : FileSystem) (file : Path) : Option Error :=
  match fs.read file with
  | .error _ => none
  | .ok bytes =>
    match (Document.decode? bytes : Option α) with
    | some _ => none
    | none => some (.storageCorrupt file "not a document of its kind")

/-- What a load is about. -/
inductive Load where
  | registry
  | table (name : String)

/-- The report on what is loaded from these files, if it is damaged. -/
def Load.report? (s : FileStorage) : Load → Option Error
  | registry => s.files.damage? Registry s.layout.metadataFile
  | table name =>
    match s.layout.tableFile name with
    | .error _ => none
    | .ok file => s.files.damage? (List Row) file

namespace FileStorage

/-- What a load does to these files, and what it reports: nothing if it fails. -/
def Reports {α σ : Type} (act : EStateM Error σ (Loaded α)) (s : σ) (report : Option Error) :
    Prop :=
  Ensures act s (fun loaded s' => loaded.corruption = report ∧ s' = s)
    fun _ s' => report = none ∧ s' = s

theorem reports_loadDocument {α : Type} [Document α] (fs : FileSystem) (file : Path) :
    Reports (FileSystem.loadDocument file : EStateM Error FileSystem (Loaded α)) fs
      (fs.damage? α file) := by
  rw [Reports, Ensures, FileSystem.loadDocument, FileSystem.damage?]
  cases fs.read file with
  | error fault => cases fault <;> exact ⟨rfl, rfl⟩
  | ok bytes =>
      dsimp only
      cases (Document.decode? bytes : Option α) <;> exact ⟨rfl, rfl⟩

theorem reports_onFiles {α : Type} {act : FileLayout → EStateM Error FileSystem (Loaded α)}
    {s : FileStorage} {report : Option Error} (h : Reports (act s.layout) s.files report) :
    Reports (onFiles act) s report := by
  refine ensures_onFiles (h.mono ?_ ?_)
  · rintro loaded _ ⟨hreport, rfl⟩
    exact ⟨hreport, rfl⟩
  · rintro err _ ⟨hreport, rfl⟩
    exact ⟨hreport, rfl⟩

theorem reports_loadRegistry (s : FileStorage) :
    Reports Storage.loadRegistry s (Load.registry.report? s) :=
  reports_onFiles (reports_loadDocument _ _)

theorem reports_loadTable (t : String) (s : FileStorage) :
    Reports (Storage.loadTable t) s ((Load.table t).report? s) := by
  refine reports_onFiles (ensures_bind (ensures_ofExcept ?_ ?_))
  · intro file hfile
    rw [Load.report?, hfile]
    exact reports_loadDocument _ _
  · intro e hfile
    rw [Load.report?, hfile]
    exact ⟨rfl, rfl⟩

/-- A registry that is reported is loaded as one without tables. -/
theorem empty_of_report {s s' : FileStorage} {loaded : Loaded Registry} {report : Error}
    (h : Storage.loadRegistry s = .ok loaded s') (hr : Load.registry.report? s = some report) :
    loaded.value = .empty := by
  have hblank := FileSystem.blank_of_corruption (outcome_of_ok (onFiles_eq_ok.mp h).1)
  refine hblank.resolve_left fun hnone => ?_
  rw [((reports_loadRegistry s).ok h).1, hr] at hnone
  cases hnone

end FileStorage

/-! ## A storage that remembers its loads -/

/-- A storage with the loads that it has been asked for, each with the state in which it was. -/
structure Observed (σ : Type) where
  storage : σ
  loads : List (σ × Load)

namespace Observed

variable {σ : Type} {α : Type} [Storage σ]

omit [Storage σ] in
def call (act : EStateM Error σ α) : EStateM Error (Observed σ) α :=
  onPart storage (fun s storage => { s with storage := storage }) act

omit [Storage σ] in
def load (load : Load) (act : EStateM Error σ α) : EStateM Error (Observed σ) α := fun s =>
  call act { s with loads := s.loads ++ [(s.storage, load)] }

instance : Storage (Observed σ) where
  loadRegistry := load .registry Storage.loadRegistry
  saveRegistry r := call (Storage.saveRegistry r)
  loadTable t := load (.table t) (Storage.loadTable t)
  saveTable t rows := call (Storage.saveTable t rows)
  removeTable t := call (Storage.removeTable t)

omit [Storage σ] in
theorem loads_call (act : EStateM Error σ α) (s : Observed σ) :
    (finalState (call act s)).loads = s.loads := by
  rw [call, onPart]
  cases act s.storage <;> rfl

omit [Storage σ] in
theorem outcome_load (ld : Load) (act : EStateM Error σ α) (s : Observed σ) :
    outcome (load ld act s) = outcome (act s.storage) := by
  rw [load, call]
  exact Request.outcome_onPart

/-- Remembering makes no difference. -/
theorem alike : Storage.Alike (fun (s : Observed σ) t => t = s.storage) (fun _ => True)
    fun _ => True := by
  have hcall {α : Type} {wanted : α → Prop} (hw : ∀ a, wanted a) (act : EStateM Error σ α) :
      Agree (fun (s : Observed σ) t => t = s.storage) wanted (call act) act := by
    refine agree_of_outcome hw ?_
    rintro s _ rfl
    refine ⟨Request.outcome_onPart, ?_⟩
    rw [call, onPart]
    cases act s.storage <;> rfl
  have hload {α : Type} {wanted : α → Prop} (hw : ∀ a, wanted a) (ld : Load)
      (act : EStateM Error σ α) :
      Agree (fun (s : Observed σ) t => t = s.storage) wanted (load ld act) act := by
    rintro s _ rfl
    exact hcall hw act _ _ rfl
  exact {
    loadRegistry := hload (fun _ => ⟨fun _ _ => trivial, fun _ _ => trivial⟩) _ _
    saveRegistry := fun r _ => hcall (fun _ => trivial) _
    loadTable := fun t _ => hload (fun _ _ _ => trivial) _ _
    saveTable := fun t rows _ => hcall (fun _ => trivial) _
    removeTable := fun t _ => hcall (fun _ => trivial) _ }

end Observed

/-! ## What a command loads -/

/-- The table that a command loads under a registry: past the cache, or through it if the scan is
not there, and never before the request has been checked. -/
inductive Command.LoadsTable (r : Registry) (cache : ScanCache (List Row)) :
    Command → String → Prop where
  | infoTable {table schema} (found : r.schema table = .ok schema) :
      LoadsTable r cache (.infoTable table) table
  | insert {table values schema} (found : r.schema table = .ok schema)
      (checked : checkValues table schema.dataColumns values = .ok ()) :
      LoadsTable r cache (.insert table values) table
  | select {table filter schema} (found : r.schema table = .ok schema)
      (checked : checkFilter filter schema = .ok ())
      (miss : cache.peek ⟨table, filter.map Predicate.canonical⟩ = none) :
      LoadsTable r cache (.select table filter) table
  | update {table assignments filter schema} (found : r.schema table = .ok schema)
      (checked : checkAssignments table schema assignments = .ok ())
      (filtered : checkFilter filter schema = .ok ()) :
      LoadsTable r cache (.update table assignments filter) table
  | delete {table filter schema} (found : r.schema table = .ok schema)
      (filtered : checkFilter filter schema = .ok ()) :
      LoadsTable r cache (.delete table filter) table

def Plan.load? (cache : ScanCache (List Row)) : Plan → Option String
  | .scan key _ => if cache.peek key = none then some key.table else none
  | .visit table _ => some table
  | .answer _ | .create _ | .drop _ => none

namespace Command

variable {r : Registry} {cache : ScanCache (List Row)} {c : Command} {p : Plan} {t t' : String}

theorem LoadsTable.table?_eq (h : c.LoadsTable r cache t) : c.table? = some t := by
  cases h <;> rfl

/-- A command that loads a table has passed its checks. -/
theorem LoadsTable.exists_plan (h : c.LoadsTable r cache t) :
    ∃ p, c.plan r = .ok p ∧ p.load? cache = some t := by
  cases h with
  | infoTable found => exact ⟨_, exceptBind_eq_ok.mpr ⟨_, found, rfl⟩, rfl⟩
  | insert found checked =>
      exact ⟨_, exceptBind_eq_ok.mpr ⟨_, found, exceptThen_eq_ok.mpr ⟨checked, rfl⟩⟩, rfl⟩
  | select found checked miss =>
      exact ⟨_, exceptBind_eq_ok.mpr ⟨_, found, exceptThen_eq_ok.mpr ⟨checked, rfl⟩⟩, if_pos miss⟩
  | update found checked filtered =>
      exact ⟨_, exceptBind_eq_ok.mpr ⟨_, found, exceptThen_eq_ok.mpr
        ⟨checked, exceptThen_eq_ok.mpr ⟨filtered, rfl⟩⟩⟩, rfl⟩
  | delete found filtered =>
      exact ⟨_, exceptBind_eq_ok.mpr ⟨_, found, exceptThen_eq_ok.mpr ⟨filtered, rfl⟩⟩, rfl⟩

theorem loadsTable_of_planned (h : Planned r c p) (ht : p.load? cache = some t) :
    c.LoadsTable r cache t := by
  cases h with
  | createTable _ _ | dropTable _ | listTables => cases ht
  | infoTable found =>
      cases ht
      exact .infoTable found
  | insert found checked =>
      cases ht
      exact .insert found checked
  | select found checked =>
      obtain ⟨miss, ht⟩ := Option.ite_none_right_eq_some.mp ht
      cases ht
      exact .select found checked miss
  | update found checked filtered =>
      cases ht
      exact .update found checked filtered
  | delete found filtered =>
      cases ht
      exact .delete found filtered

theorem loadsTable_iff (h : c.plan r = .ok p) :
    c.LoadsTable r cache t ↔ p.load? cache = some t := by
  constructor
  · intro ht
    obtain ⟨p', hp, ht⟩ := ht.exists_plan
    cases h.symm.trans hp
    exact ht
  · exact loadsTable_of_planned (planned h)

theorem not_loadsTable_of_error {e : Error} (h : c.plan r = .error e) :
    ¬ c.LoadsTable r cache t := by
  intro ht
  obtain ⟨p, hp, -⟩ := ht.exists_plan
  cases h.symm.trans hp

/-- Where there are no tables, none is loaded. -/
theorem not_loadsTable_empty : ¬ c.LoadsTable .empty cache t := by
  rintro (⟨⟨⟩⟩ | ⟨⟨⟩, _⟩ | ⟨⟨⟩, _, _⟩ | ⟨⟨⟩, _, _⟩ | ⟨⟨⟩, _⟩)

end Command

/-! ## What an engine gathers -/

/-- From one engine to another these documents have been loaded, all from the same files, and what
was damaged among them has been reported. -/
structure Engine.Gathers (s : FileStorage) (loads : List Load)
    (e e' : Engine (Observed FileStorage)) : Prop where
  remembered : e'.source.storage.loads = e.source.storage.loads ++ loads.map (s, ·)
  reported : e'.source.diagnostics = e.source.diagnostics ++ loads.filterMap (Load.report? s)

namespace Engine

variable {s : FileStorage} {first rest : List Load} {e e' e'' : Engine (Observed FileStorage)}
  {α : Type} {act : EStateM Error FileStorage (Loaded α)} {ld : Load}

theorem Gathers.nothing (hl : e'.source.storage.loads = e.source.storage.loads)
    (hd : e'.source.diagnostics = e.source.diagnostics) : Gathers s [] e e' :=
  ⟨hl.trans (List.append_nil _).symm, hd.trans (List.append_nil _).symm⟩

theorem Gathers.trans (h : Gathers s first e e') (h' : Gathers s rest e' e'') :
    Gathers s (first ++ rest) e e'' := by
  constructor
  · rw [h'.remembered, h.remembered, List.map_append, List.append_assoc]
  · rw [h'.reported, h.reported, List.filterMap_append, List.append_assoc]

theorem Gathers.before (h : Gathers s first e e') (h' : Gathers s [] e' e'') :
    Gathers s first e e'' := by
  have h := h.trans h'
  rwa [List.append_nil] at h

/-- Whether it succeeds or not, a load is remembered, and what is damaged is reported. -/
theorem gathers_load (ld : Load)
    (h : FileStorage.Reports act e.source.storage.storage (ld.report? e.source.storage.storage)) :
    Ensures (Observed.load ld act) e.source.storage
      (fun loaded s' => s'.storage = e.source.storage.storage ∧
        Gathers e.source.storage.storage [ld] e ((e.withStorage s').withReport loaded.corruption))
      fun _ s' => s'.storage = e.source.storage.storage ∧
        Gathers e.source.storage.storage [ld] e (e.withStorage s') := by
  refine ensures_onPart (h.mono ?_ ?_)
  · rintro loaded s' ⟨hcorruption, rfl⟩
    refine ⟨rfl, rfl, congrArg (_ ++ ·) ?_⟩
    rw [hcorruption]
    cases hr : ld.report? e.source.storage.storage <;> simp [hr]
  · rintro err s' ⟨hreport, rfl⟩
    refine ⟨rfl, rfl, ?_⟩
    simp [withStorage, hreport]

/-- A change loads nothing. -/
theorem gathers_change (act : EStateM Error FileStorage Unit) :
    Ensures (change (Observed.call act)) e (fun _ e' => Gathers s [] e e')
      fun _ e' => Gathers s [] e e' := by
  have hcall := Observed.loads_call act e.source.storage
  refine ensures_change (fun s' h => ?_) fun err s' h => ?_
  · rw [h] at hcall
    exact .nothing hcall rfl
  · rw [h] at hcall
    exact .nothing hcall rfl

theorem gathers_saveRegistry (r : Registry) :
    Ensures (saveRegistry r) e (fun _ e' => Gathers s [] e e') fun _ e' => Gathers s [] e e' := by
  have hcall := Observed.loads_call (Storage.saveRegistry r) e.source.storage
  refine ensures_saveRegistry (fun s' h => ?_) fun err s' h => ?_
  · exact .nothing ((congrArg (Observed.loads <| finalState ·) h).symm.trans hcall) rfl
  · exact .nothing ((congrArg (Observed.loads <| finalState ·) h).symm.trans hcall) rfl

end Engine

variable {s : FileStorage} {e e' : Engine (Observed FileStorage)}

/-- A plan loads the table that it reads, unless the scan is in the cache. -/
theorem Plan.gathers (p : Plan) (hs : e.source.storage.storage = s) :
    Ensures p.onEngine e (fun _ e' => e.Gathers s ((p.load? e.cache).toList.map .table) e')
      fun _ e' => e.Gathers s ((p.load? e.cache).toList.map .table) e' := by
  subst hs
  have hload (t : String) := Engine.gathers_load (e := e) (.table t)
    (FileStorage.reports_loadTable t e.source.storage.storage)
  cases p with
  | answer reply => exact .nothing rfl rfl
  | scan key reply =>
      refine ensures_bind (Engine.ensures_scanTable ?_ ?_ ?_)
      · intro rows hit
        rw [load?, if_neg (by rw [hit]; exact Option.some_ne_none _)]
        exact .nothing rfl rfl
      · intro loaded s' miss h
        have hg := ((hload key.table).ok h).2
        rw [load?, if_pos miss]
        exact ⟨hg.remembered, hg.reported⟩
      · intro err s' miss h
        have hg := ((hload key.table).error h).2
        rw [load?, if_pos miss]
        exact ⟨hg.remembered, hg.reported⟩
  | visit table next =>
      refine ensures_bind (Engine.ensures_loadPast ?_ fun _ _ h => ((hload table).error h).2)
      intro loaded s' h
      have hg := ((hload table).ok h).2
      refine ensures_bind (ensures_ofExcept ?_ fun _ _ => hg)
      rintro ⟨reply, write⟩ -
      cases write with
      | none => exact hg
      | some rows =>
          have hsave := Engine.gathers_change (s := e.source.storage.storage)
            (e := (e.withStorage s').withReport loaded.corruption) (Storage.saveTable table rows)
          exact ensures_bind (hsave.mono (fun _ _ h' => hg.before h') fun _ _ h' => hg.before h')
  | create schema => exact ensures_bind (Engine.gathers_change _)
  | drop schema => exact ensures_bind (Engine.gathers_change _)

/-- The documents that a command loads: the registry, and then a table if the registry could be
read and there is one to load. -/
inductive Command.LoadsFrom (s : FileStorage) (cache : ScanCache (List Row)) (c : Command) :
    List Load → Prop where
  | unread {err} (failed : outcome (Storage.loadRegistry s) = .error err) :
      LoadsFrom s cache c [.registry]
  | nothing {loaded} (read : outcome (Storage.loadRegistry s) = .ok loaded)
      (loads : ∀ t, ¬ c.LoadsTable loaded.value cache t) : LoadsFrom s cache c [.registry]
  | table {loaded t} (read : outcome (Storage.loadRegistry s) = .ok loaded)
      (loads : c.LoadsTable loaded.value cache t) : LoadsFrom s cache c [.registry, .table t]

/-- What a command loads is remembered, and reported if it is damaged, whatever becomes of the
command. -/
theorem Command.gathers (c : Command) (hs : e.source.storage.storage = s) :
    Ensures c.run e (fun _ e' => ∃ loads, c.LoadsFrom s e.cache loads ∧ e.Gathers s loads e')
      fun _ e' => ∃ loads, c.LoadsFrom s e.cache loads ∧ e.Gathers s loads e' := by
  subst hs
  rw [run_eq]
  have hload := Engine.gathers_load (e := e) .registry
    (FileStorage.reports_loadRegistry e.source.storage.storage)
  have hread : outcome (Storage.loadRegistry e.source.storage) =
      outcome (Storage.loadRegistry e.source.storage.storage) :=
    Observed.outcome_load .registry _ _
  refine ensures_bind (Engine.ensures_loadPast ?_ ?_)
  · intro loaded s' h
    obtain ⟨hstorage, hg⟩ := hload.ok h
    rw [h] at hread
    have hloaded := hread.symm
    refine ensures_bind (ensures_ofExcept ?_ ?_)
    · intro p hp
      have hplan := p.gathers (e := (e.withStorage s').withReport loaded.corruption) hstorage
      have hloads : c.LoadsFrom e.source.storage.storage e.cache
          ([.registry] ++ (p.load? e.cache).toList.map .table) := by
        cases ht : p.load? e.cache with
        | none =>
            refine .nothing hloaded fun t h => ?_
            rw [loadsTable_iff hp, ht] at h
            cases h
        | some t => exact .table hloaded ((loadsTable_iff hp).mpr ht)
      refine ensures_bind (hplan.mono ?_ fun _ _ h => ⟨_, hloads, hg.trans h⟩)
      intro reply e₁ h₁
      have hdone := hg.trans h₁
      split
      · have hsave := Engine.gathers_saveRegistry (s := e.source.storage.storage) (e := e₁)
          (p.onRegistry loaded.value)
        exact ensures_bind (hsave.mono (fun _ _ h => ⟨_, hloads, hdone.before h⟩)
          fun _ _ h => ⟨_, hloads, hdone.before h⟩)
      · exact ⟨_, hloads, hdone⟩
    · intro err hp
      exact ⟨_, .nothing hloaded fun t => not_loadsTable_of_error hp, hg⟩
  · intro err s' h
    rw [h] at hread
    exact ⟨_, .unread hread.symm, (hload.error h).2⟩

/-! ## Runs -/

/-- What the caller of a database does. -/
inductive EngineCall where
  | command (c : Command)
  | takeDiagnostics

namespace Engine

variable {σ τ : Type} [Storage σ] [Storage τ]

/-- Serves the calls, whatever becomes of each, and gathers the reports that are taken. -/
def serveAll : List EngineCall → Engine σ → List Error × Engine σ
  | [], e => ([], e)
  | .command c :: rest, e => serveAll rest (finalState (c.run e))
  | .takeDiagnostics :: rest, e =>
    let later := serveAll rest e.takeDiagnostics.2
    (e.takeDiagnostics.1 ++ later.1, later.2)

omit [Storage σ] in
/-- The engine over a storage that remembers its loads from now on. -/
def observed (e : Engine σ) : Engine (Observed σ) :=
  ⟨e.cache, ⟨⟨e.source.storage, []⟩, e.source.diagnostics⟩⟩

/-- The loads of a run, each with the state of the storage in which it was. -/
def loadsOf (calls : List EngineCall) (e : Engine σ) : List (σ × Load) :=
  (serveAll calls e.observed).2.source.storage.loads

theorem Alike.serveAll {R : σ → τ → Prop} {usable : String → Prop} {report : Error → Prop}
    (alike : Storage.Alike R usable report) {e : Engine σ} {e' : Engine τ}
    (h : Engine.Alike R report e e') {calls : List EngineCall}
    (hc : ∀ c, .command c ∈ calls → c.CreatesOnly usable) :
    (e.serveAll calls).1 = (e'.serveAll calls).1 ∧
      Engine.Alike R report (e.serveAll calls).2 (e'.serveAll calls).2 := by
  induction calls generalizing e e' with
  | nil => exact ⟨rfl, h⟩
  | cons call rest ih =>
      have hrest : ∀ c, .command c ∈ rest → c.CreatesOnly usable :=
        fun c hmem => hc c (List.mem_cons_of_mem _ hmem)
      cases call with
      | command c =>
          exact ih ((Command.agree_run alike (hc c List.mem_cons_self)).outcome_eq h).2 hrest
      | takeDiagnostics =>
          have htaken : Engine.Alike R report e.takeDiagnostics.2 e'.takeDiagnostics.2 :=
            ⟨h.cache, h.source.storage, rfl, nofun⟩
          obtain ⟨hlater, hend⟩ := ih htaken hrest
          exact ⟨congrArg₂ (· ++ ·) h.source.diagnostics.symm hlater, hend⟩

/-- The engine that remembers does what the other one does. -/
theorem alike_serveAll (calls : List EngineCall) (e : Engine σ) :
    (e.observed.serveAll calls).1 = (e.serveAll calls).1 ∧
      Engine.Alike (fun (s : Observed σ) t => t = s.storage) (fun _ => True)
        (e.observed.serveAll calls).2 (e.serveAll calls).2 := by
  have h : Engine.Alike (fun (s : Observed σ) t => t = s.storage) (fun _ => True) e.observed e :=
    ⟨rfl, rfl, rfl, fun _ _ => trivial⟩
  exact h.serveAll Observed.alike fun _ _ _ _ _ _ _ => trivial

end Engine

/-- The reports on damaged documents among these loads. -/
def reports (loads : List (FileStorage × Load)) : List Error :=
  loads.filterMap fun load => load.2.report? load.1

theorem reports_map (s : FileStorage) (loads : List Load) :
    reports (loads.map (s, ·)) = loads.filterMap (Load.report? s) := List.filterMap_map ..

theorem reports_append (first rest : List (FileStorage × Load)) :
    reports (first ++ rest) = reports first ++ reports rest := List.filterMap_append

/-- In every run what has been taken and what is left are the reports on what has been loaded. -/
theorem Engine.gathers_serveAll (calls : List EngineCall) (e : Engine (Observed FileStorage)) :
    ∃ loads, (e.serveAll calls).2.source.storage.loads = e.source.storage.loads ++ loads ∧
      (e.serveAll calls).1 ++ (e.serveAll calls).2.source.diagnostics =
        e.source.diagnostics ++ reports loads := by
  induction calls generalizing e with
  | nil => exact ⟨[], (List.append_nil _).symm, (List.append_nil _).symm⟩
  | cons call rest ih =>
      cases call with
      | command c =>
          obtain ⟨first, -, hg⟩ := (c.gathers (e := e) rfl).final
          obtain ⟨loads, hloads, hreports⟩ := ih (finalState (c.run e))
          refine ⟨first.map (e.source.storage.storage, ·) ++ loads, ?_, ?_⟩
          · rw [serveAll, hloads, hg.remembered, List.append_assoc]
          · rw [serveAll, hreports, hg.reported, reports_append, reports_map, List.append_assoc]
      | takeDiagnostics =>
          obtain ⟨loads, hloads, hreports⟩ := ih e.takeDiagnostics.2
          refine ⟨loads, hloads, ?_⟩
          rw [serveAll, List.append_assoc, hreports]
          rfl

/-! ## Commands -/

theorem Command.LoadsTable.unique {r : Registry} {cache : ScanCache (List Row)} {c : Command}
    {t t' : String} (h : c.LoadsTable r cache t) (h' : c.LoadsTable r cache t') : t = t' :=
  Option.some.inj (h.table?_eq.symm.trans h'.table?_eq)

/-- What a command loads and what it adds to the reports. -/
theorem Command.gathers_run (c : Command) (e : Engine FileStorage) :
    ∃ loads, c.LoadsFrom e.source.storage e.cache loads ∧
      e.loadsOf [.command c] = loads.map (e.source.storage, ·) ∧
      (finalState (c.run e)).source.diagnostics =
        e.source.diagnostics ++ loads.filterMap (Load.report? e.source.storage) := by
  obtain ⟨loads, hloads, hg⟩ := (c.gathers (e := e.observed) rfl).final
  obtain ⟨-, halike⟩ := Engine.alike_serveAll [.command c] e
  refine ⟨loads, hloads, hg.remembered, ?_⟩
  exact halike.source.diagnostics.trans hg.reported

/-- Corruption is reported exactly once for every load of a damaged document, and never lost. A
command whose registry file is there and holds no registry reports that file and loads no table.
Any other command reports at most the file of the table that it loads, if that is there and holds
no rows; none is loaded before the request has been checked, or if the scan is in the cache. All
this holds whether the command succeeds or fails. Taking the reports leaves none. So in every run
the reports that have been taken and those that are left are the ones on the damaged documents
among all loads, in the order of the loads. -/
theorem corruption_reported_once :
    (∀ (e : Engine FileStorage) (c : Command),
      let s := e.source.storage
      let e' := finalState (c.run e)
      (∀ report, Load.registry.report? s = some report →
        e.loadsOf [.command c] = [(s, .registry)] ∧
          e'.source.diagnostics = e.source.diagnostics ++ [report]) ∧
      (Load.registry.report? s = none →
        (∀ loaded t, outcome (Storage.loadRegistry s) = .ok loaded →
          c.LoadsTable loaded.value e.cache t →
          e.loadsOf [.command c] = [(s, .registry), (s, .table t)] ∧
            e'.source.diagnostics =
              e.source.diagnostics ++ ((Load.table t).report? s).toList) ∧
        ((∀ loaded t, outcome (Storage.loadRegistry s) = .ok loaded →
          ¬ c.LoadsTable loaded.value e.cache t) →
          e.loadsOf [.command c] = [(s, .registry)] ∧
            e'.source.diagnostics = e.source.diagnostics))) ∧
    (∀ e : Engine FileStorage, e.takeDiagnostics.1 = e.source.diagnostics ∧
      e.takeDiagnostics.2.source.diagnostics = [] ∧
      e.takeDiagnostics.2.source.storage = e.source.storage ∧
      e.takeDiagnostics.2.cache = e.cache) ∧
    ∀ (e : Engine FileStorage) (calls : List EngineCall),
      (e.serveAll calls).1 ++ (e.serveAll calls).2.source.diagnostics =
        e.source.diagnostics ++ reports (e.loadsOf calls) := by
  refine ⟨fun e c => ?_, fun e => ⟨rfl, rfl, rfl, rfl⟩, fun e calls => ?_⟩
  · obtain ⟨loads, hloads, hof, hreports⟩ := c.gathers_run e
    dsimp only
    rw [hof, hreports]
    refine ⟨fun report hr => ?_, fun hr => ⟨fun loaded t hread ht => ?_, fun hnone => ?_⟩⟩
    · cases hloads with
      | unread failed =>
          have h := ((FileStorage.reports_loadRegistry _).error (error_of_outcome failed)).1
          cases h.symm.trans hr
      | nothing read hnone => exact ⟨rfl, by rw [List.filterMap_cons_some hr, List.filterMap_nil]⟩
      | table read ht =>
          rw [FileStorage.empty_of_report (ok_of_outcome read) hr] at ht
          exact absurd ht Command.not_loadsTable_empty
    · cases hloads with
      | unread failed => cases failed.symm.trans hread
      | nothing read hnone =>
          cases read.symm.trans hread
          exact absurd ht (hnone t)
      | table read ht' =>
          cases read.symm.trans hread
          cases ht.unique ht'
          refine ⟨rfl, congrArg (_ ++ ·) ?_⟩
          rw [List.filterMap_cons_none hr]
          cases h : (Load.table t).report? e.source.storage <;> simp [h]
    · cases hloads with
      | unread _ | nothing _ _ =>
          exact ⟨rfl, by rw [List.filterMap_cons_none hr, List.filterMap_nil, List.append_nil]⟩
      | table read ht => exact absurd ht (hnone _ _ read)
  · obtain ⟨htaken, halike⟩ := e.alike_serveAll calls
    obtain ⟨loads, hloads, hreports⟩ := Engine.gathers_serveAll calls e.observed
    rw [← htaken, halike.source.diagnostics, hreports, Engine.loadsOf, hloads]
    rfl

end TableStore
