import TableStore.Proofs.Files
import TableStore.Proofs.Saves
import TableStore.Proofs.Simulation

/-!
Which files a database may change: its documents and their drafts. Every route of a name to a
path is checked, so that this holds for all names in requests and in the stored registry.
-/

namespace TableStore

open FileSystem (ChangesOnly draft)

namespace FileLayout

/-- The paths of the registry and of tables whose names are identifiers. -/
inductive IsDocument (l : FileLayout) : Path → Prop
  | registry : l.IsDocument l.metadataFile
  | table {t : String} (h : Text.isIdentifier t) : l.IsDocument (l.tableDocument t)

/-- The places of the documents and of their drafts. -/
def Owns (l : FileLayout) (d place : Location) : Prop :=
  ∃ p, l.IsDocument p ∧ (place = p.location d ∨ place = (draft p).location d)

end FileLayout

/-! ## Calls -/

namespace FileStorage

variable {s : FileStorage} {l : FileLayout} {table : String}

theorem saveRegistry_files (r : Registry) (s : FileStorage) :
    finalState (Storage.saveRegistry r s) =
      ⟨s.layout, finalState (FileSystem.saveDocument s.layout.metadataFile r s.files)⟩ :=
  finalState_onFiles _ s

theorem onTable_files (h : Text.isIdentifier table) {act : Path → EStateM Error FileSystem Unit} :
    finalState (onFiles (fun l => ofExcept (l.tableFile table) >>= act) s) =
      ⟨s.layout, finalState (act (s.layout.tableDocument table) s.files)⟩ := by
  rw [finalState_onFiles, bind_apply, tableFile_eq h]
  rfl

theorem onTable_files_of_not (h : ¬ Text.isIdentifier table)
    {act : Path → EStateM Error FileSystem Unit} :
    finalState (onFiles (fun l => ofExcept (l.tableFile table) >>= act) s) = s := by
  rw [finalState_onFiles, bind_apply, tableFile_of_not h]
  rfl

theorem saveTable_files (h : Text.isIdentifier table) (rows : List Row) (s : FileStorage) :
    finalState (Storage.saveTable table rows s) =
      ⟨s.layout, finalState (FileSystem.saveDocument (s.layout.tableDocument table) rows s.files)⟩ :=
  onTable_files h

theorem removeTable_files (h : Text.isIdentifier table) (s : FileStorage) :
    finalState (Storage.removeTable table s) =
      ⟨s.layout, finalState (FileSystem.removeDocument (s.layout.tableDocument table) s.files)⟩ :=
  onTable_files h

/-- The layout is the same, and only owned files have changed since `fs₀`. -/
def Confined (l : FileLayout) (fs₀ : FileSystem) (s : FileStorage) : Prop :=
  s.layout = l ∧ ChangesOnly (l.Owns fs₀.workingDirectory) fs₀ s.files

variable {fs₀ : FileSystem}

theorem Confined.step (h : Confined l fs₀ s) {p : Path} (hp : l.IsDocument p) {fs : FileSystem}
    (hc : ChangesOnly (fun place => place = p.location s.files.workingDirectory ∨
      place = (draft p).location s.files.workingDirectory) s.files fs) :
    Confined l fs₀ ⟨s.layout, fs⟩ := by
  rw [h.2.workingDirectory] at hc
  exact ⟨h.1, h.2.trans (hc.mono fun _ hplace => ⟨p, hp, hplace⟩)⟩

/-- A call on the document of a table does nothing if the name is no identifier. -/
theorem Confined.onTable (h : Confined l fs₀ s)
    {act : Path → EStateM Error FileSystem Unit}
    (hc : ∀ p fs, ChangesOnly (fun place => place = p.location fs.workingDirectory ∨
      place = (draft p).location fs.workingDirectory) fs (finalState (act p fs))) :
    Confined l fs₀ (finalState (onFiles (fun l => ofExcept (l.tableFile table) >>= act) s)) := by
  by_cases hi : Text.isIdentifier table
  · rw [onTable_files hi, h.1]
    exact h.1 ▸ h.step (.table hi) (hc _ s.files)
  · rwa [onTable_files_of_not hi]

/-- No call changes files that the database does not own. -/
theorem keeps_confined (l : FileLayout) (fs₀ : FileSystem) : Storage.Keeps (Confined l fs₀) where
  loadRegistry s h := by rwa [finalState_loadRegistry]
  loadTable table s h := by rwa [finalState_loadTable]
  saveRegistry r s h := by
    rw [saveRegistry_files, h.1]
    exact h.1 ▸ h.step .registry (FileSystem.changesOnly_saveDocument _ r s.files)
  saveTable table rows s h :=
    h.onTable fun p fs => FileSystem.changesOnly_saveDocument p rows fs
  removeTable table s h :=
    h.onTable fun p fs => (FileSystem.changesOnly_removeDocument p fs).mono fun _ => Or.inl

end FileStorage

/-! ## Commands -/

namespace Command

section
variable {σ : Type} [Storage σ]

/-- A command that does not save the registry makes no call but loads. -/
theorem storage_of_not_mutating (hr : ∀ s : σ, finalState (Storage.loadRegistry s) = s)
    (ht : ∀ t (s : σ), finalState (Storage.loadTable t s) = s) {c : Command}
    (hc : c.isMutating = false) (e : Engine σ) :
    (finalState (c.run e)).source.storage = e.source.storage := by
  have hload := ensures_of_finalState (hr e.source.storage)
  have hrows (t : String) := ensures_of_finalState (ht t e.source.storage)
  rw [run_eq]
  refine Ensures.final (P := fun e' : Engine σ => e'.source.storage = e.source.storage)
    (ensures_bind (Engine.ensures_loadPast ?_ fun _ _ h => hload.error h))
  intro loaded s hl
  cases hload.ok hl
  refine ensures_bind (ensures_ofExcept ?_ fun _ _ => rfl)
  intro p hp
  simp only [hc, Bool.false_eq_true, ite_false, bind_pure]
  cases planned hp with
  | createTable _ _ | dropTable _ | insert _ _ | update _ _ _ | delete _ _ => cases hc
  | listTables => exact rfl
  | infoTable _ =>
      exact ensures_bind (Engine.ensures_loadPast (fun _ _ h => (hrows _).ok h)
        fun _ _ h => (hrows _).error h)
  | select _ _ =>
      exact ensures_bind (Engine.ensures_scanTable (fun _ _ => rfl)
        (fun _ _ _ h => (hrows _).ok h) fun _ _ _ h => (hrows _).error h)

end

/-- Whatever is stored, and whatever names commands and the stored registry use, all that a run
may change are the documents of the registry and of tables with identifiers for names, and
their drafts. Commands that only read change nothing. -/
theorem run_confined (e : Engine FileStorage) (cs : List Command) :
    let s := e.source.storage
    let s' := (runAll (cs.map run) e).2.source.storage
    let d := s.files.workingDirectory
    (∀ place, s'.files.entry? place ≠ s.files.entry? place →
      place = s.layout.metadataFile.location d ∨
      place = (s.layout.metadataFile.withSuffix ".tmp").location d ∨
      ∃ t, Text.isIdentifier t ∧
        (place = (s.layout.dataDirectory.join (t ++ ".json")).location d ∨
          place = ((s.layout.dataDirectory.join (t ++ ".json")).withSuffix ".tmp").location d)) ∧
      s'.layout = s.layout ∧ s'.files.workingDirectory = d ∧
      ((∀ c ∈ cs, c.isMutating = false) → s' = s) := by
  intro s s' d
  have hs : FileStorage.Confined s.layout s.files s := ⟨rfl, .refl _ s.files⟩
  obtain ⟨hl, hc⟩ : FileStorage.Confined s.layout s.files s' :=
    (FileStorage.keeps_confined s.layout s.files).after_run hs cs
  refine ⟨fun place hplace => ?_, hl, hc.workingDirectory, fun hread => ?_⟩
  · have howns : s.layout.Owns d place :=
      Classical.byContradiction fun hn => hplace (hc.elsewhere place hn)
    obtain ⟨p, hp, hplace⟩ := howns
    cases hp with
    | registry => exact hplace.imp_right Or.inl
    | table hi => exact .inr (.inr ⟨_, hi, hplace⟩)
  · have hstep : ∀ act ∈ cs.map run, ∀ e : Engine FileStorage, e.source.storage = s →
        (finalState (act e)).source.storage = s := by
      intro act hact e he
      obtain ⟨c, hc, rfl⟩ := List.mem_map.mp hact
      rw [c.storage_of_not_mutating FileStorage.finalState_loadRegistry
        FileStorage.finalState_loadTable (hread c hc) e, he]
    exact runAll_preserves hstep rfl

end Command
end TableStore
