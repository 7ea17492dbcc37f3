import TableStore.Proofs.Coherence
import TableStore.Proofs.Layout

/-!
The calls of a storage in files under a root: what they do to the documents as bytes.
-/

namespace TableStore.FileStorage

open FileSystem (Grows SameTables)

variable {root : Path} {table : String} {fs fs' base : FileSystem} {l : FileLayout}
  {s s' : FileStorage}

/-- The storage in these files, laid out under a root. -/
abbrev under (root : Path) (fs : FileSystem) : FileStorage := ⟨.underRoot root, fs⟩

theorem under_files {s : FileStorage} (h : s.layout = .underRoot root) : under root s.files = s := by
  cases s
  cases h
  rfl

theorem tableFile_eq (h : Text.isIdentifier table) :
    l.tableFile table = .ok (l.tableDocument table) := if_pos h

theorem tableFile_of_not (h : ¬ Text.isIdentifier table) :
    l.tableFile table = .error (.invalidTableName table) := if_neg h

theorem tableFile_eq_ok {p : Path} (h : l.tableFile table = .ok p) :
    Text.isIdentifier table ∧ p = l.tableDocument table := by
  rw [FileLayout.tableFile] at h
  split at h
  · next hi => exact ⟨hi, (Except.ok.inj h).symm⟩
  · cases h

theorem ensures_onFiles {α : Type} {act : FileLayout → EStateM Error FileSystem α}
    {post : α → FileStorage → Prop} {fail : Error → FileStorage → Prop}
    (h : Ensures (act l) fs (fun a fs => post a ⟨l, fs⟩) fun e fs => fail e ⟨l, fs⟩) :
    Ensures (onFiles act) ⟨l, fs⟩ post fail := by
  rw [Ensures, onFiles, onPart] at *
  cases ha : act l fs with
  | ok a fs' => simpa only [ha] using h
  | error e fs' => simpa only [ha] using h

theorem onFiles_eq_ok {α : Type} {act : FileLayout → EStateM Error FileSystem α}
    {s s' : FileStorage} {a : α} :
    onFiles act s = .ok a s' ↔ act s.layout s.files = .ok a s'.files ∧ s'.layout = s.layout := by
  obtain ⟨l', fs'⟩ := s'
  rw [onFiles, onPart]
  cases act s.layout s.files with
  | ok b fs => simp [and_left_comm, and_comm, eq_comm]
  | error e fs => simp

theorem onFiles_eq_error {α : Type} {act : FileLayout → EStateM Error FileSystem α}
    {s s' : FileStorage} {e : Error} :
    onFiles act s = .error e s' ↔ act s.layout s.files = .error e s'.files ∧ s'.layout = s.layout := by
  obtain ⟨l', fs'⟩ := s'
  rw [onFiles, onPart]
  cases act s.layout s.files with
  | ok b fs => simp
  | error e' fs => simp [and_left_comm, and_comm, eq_comm]

theorem onFiles_congr {α : Type} {act act' : FileLayout → EStateM Error FileSystem α}
    {s : FileStorage} (h : act s.layout = act' s.layout) : onFiles act s = onFiles act' s := by
  simp only [onFiles, h]

theorem onTable_eq_ok {α : Type} (h : Text.isIdentifier table) {a : α}
    {act : Path → EStateM Error FileSystem α}
    (ha : act ((root.join "data").join (documentName table)) fs = .ok a fs') :
    onFiles (fun l => ofExcept (l.tableFile table) >>= act) (under root fs) =
      .ok a (under root fs') := by
  refine onFiles_eq_ok.mpr ⟨?_, rfl⟩
  rw [bind_apply, tableFile_eq h]
  exact ha

theorem finalState_onFiles {α : Type} (act : FileLayout → EStateM Error FileSystem α)
    (s : FileStorage) :
    finalState (onFiles act s) = { s with files := finalState (act s.layout s.files) } := by
  rw [onFiles, onPart]
  cases act s.layout s.files <;> rfl

theorem outcome_onFiles {α : Type} (act : FileLayout → EStateM Error FileSystem α)
    (s : FileStorage) : outcome (onFiles act s) = outcome (act s.layout s.files) := by
  rw [onFiles, onPart]
  cases act s.layout s.files <;> rfl

/-! ## Loads -/

theorem outcome_loadRegistry (h : fs'.read l.metadataFile = fs.read l.metadataFile) :
    outcome (Storage.loadRegistry (⟨l, fs'⟩ : FileStorage)) =
      outcome (Storage.loadRegistry (⟨l, fs⟩ : FileStorage)) := by
  refine (outcome_onFiles _ _).trans (.trans ?_ (outcome_onFiles _ _).symm)
  exact FileSystem.outcome_loadDocument h

theorem outcome_loadTable
    (h : Text.isIdentifier table → fs'.read (l.tableDocument table) = fs.read (l.tableDocument table)) :
    outcome (Storage.loadTable table (⟨l, fs'⟩ : FileStorage)) =
      outcome (Storage.loadTable table (⟨l, fs⟩ : FileStorage)) := by
  refine (outcome_onFiles _ _).trans (.trans ?_ (outcome_onFiles _ _).symm)
  by_cases hi : Text.isIdentifier table
  · simp only [tableFile_eq hi]
    exact FileSystem.outcome_loadDocument (h hi)
  · simp only [tableFile_of_not hi]
    rfl

theorem sameLoads (h : SameTables root (fun _ => False) fs fs') :
    Storage.SameLoads (under root fs) (under root fs') :=
  fun t => outcome_loadTable fun hi => h t hi id

theorem finalState_loadRegistry (s : FileStorage) : finalState (Storage.loadRegistry s) = s := by
  refine (finalState_onFiles _ s).trans ?_
  rw [FileSystem.finalState_loadDocument]

theorem finalState_loadTable (table : String) (s : FileStorage) :
    finalState (Storage.loadTable table s) = s := by
  refine (finalState_onFiles _ s).trans ?_
  rw [FileLayout.tableFile]
  split
  · exact congrArg _ (FileSystem.finalState_loadDocument _ _)
  · rfl

theorem loadRegistry_of_read {bytes : ByteArray} {r : Registry}
    (h : s.files.read s.layout.metadataFile = .ok bytes) (hr : Document.decode? bytes = some r) :
    Storage.loadRegistry s = .ok ⟨r, none⟩ s := by
  refine onFiles_eq_ok.mpr ⟨?_, rfl⟩
  simp only [FileSystem.loadDocument, h, hr]

/-! ## Saves and removals -/

theorem read_of_saveRegistry {r : Registry} (h : Storage.saveRegistry r s = .ok () s') :
    s'.layout = s.layout ∧
      s'.files.read s.layout.metadataFile = .ok (Document.encode r) := by
  obtain ⟨hsave, hl⟩ := onFiles_eq_ok.mp h
  exact ⟨hl, (FileSystem.saveDocument_ok hsave).1⟩

theorem read_of_saveTable {rows : List Row} (h : Storage.saveTable table rows s = .ok () s') :
    s'.layout = s.layout ∧ ∃ file, s.layout.tableFile table = .ok file ∧
      s'.files.read file = .ok (Document.encode rows) := by
  obtain ⟨hsave, hl⟩ := onFiles_eq_ok.mp h
  rw [bind_apply] at hsave
  cases hfile : s.layout.tableFile table with
  | error e =>
      rw [hfile] at hsave
      cases hsave
  | ok file =>
      rw [hfile] at hsave
      exact ⟨hl, file, rfl, (FileSystem.saveDocument_ok hsave).1⟩

theorem ensures_saveRegistry (r : Registry) :
    Ensures (Storage.saveRegistry r) (under root fs)
      (fun _ s => ∃ fs', s = under root fs' ∧ Grows fs fs' ∧
        fs'.registryBytes root = .ok (Document.encode r) ∧
        SameTables root (fun _ => False) fs fs')
      fun _ s => ∃ fs', s = under root fs' ∧ Grows fs fs' ∧
        fs'.registryBytes root = fs.registryBytes root ∧
        SameTables root (fun _ => False) fs fs' :=
  ensures_onFiles ((FileSystem.ensures_saveRegistry root r fs).mono
    (fun _ fs' h => ⟨fs', rfl, h⟩) fun _ fs' h => ⟨fs', rfl, h⟩)

theorem ensures_saveTable (table : String) (rows : List Row) :
    Ensures (Storage.saveTable table rows) (under root fs)
      (fun _ s => ∃ fs', s = under root fs' ∧ Text.isIdentifier table ∧ Grows fs fs' ∧
        fs'.registryBytes root = fs.registryBytes root ∧
        fs'.tableBytes root table = .ok (Document.encode rows) ∧ SameTables root (· = table) fs fs')
      fun _ s => ∃ fs', s = under root fs' ∧ Grows fs fs' ∧
        fs'.registryBytes root = fs.registryBytes root ∧
        SameTables root (fun _ => False) fs fs' := by
  refine ensures_onFiles (ensures_bind (ensures_ofExcept ?_ ?_))
  · intro file hf
    by_cases hi : Text.isIdentifier table
    · cases (tableFile_eq hi).symm.trans hf
      exact (FileSystem.ensures_saveTable root hi rows fs).mono
        (fun _ fs' h => ⟨fs', rfl, hi, h⟩) fun _ fs' h => ⟨fs', rfl, h⟩
    · cases (tableFile_of_not hi).symm.trans hf
  · intro e _
    exact ⟨fs, rfl, .refl fs, rfl, fun _ _ _ => rfl⟩

theorem ensures_removeTable (table : String) :
    Ensures (Storage.removeTable table) (under root fs)
      (fun _ s => ∃ fs', s = under root fs' ∧ Text.isIdentifier table ∧ Grows fs fs' ∧
        fs'.registryBytes root = fs.registryBytes root ∧
        fs'.tableBytes root table = .error .missing ∧ SameTables root (· = table) fs fs')
      fun _ s => s = under root fs := by
  refine ensures_onFiles (ensures_bind (ensures_ofExcept ?_ ?_))
  · intro file hf
    by_cases hi : Text.isIdentifier table
    · cases (tableFile_eq hi).symm.trans hf
      exact (FileSystem.ensures_removeTable root hi fs).mono
        (fun _ fs' h => ⟨fs', rfl, hi, h⟩) fun _ fs' h => by rw [h]
    · cases (tableFile_of_not hi).symm.trans hf
  · intro e _
    rfl

/-- Storages in files under a root with at least the directories of `base`. -/
def Within (root : Path) (base : FileSystem) (s : FileStorage) : Prop :=
  s.layout = .underRoot root ∧ Grows base s.files

/-- A storage in files changes only what it is told to, whatever the files are at first. -/
theorem calm (root : Path) (base : FileSystem) : Storage.Calm (Within root base) where
  loadRegistry := finalState_loadRegistry
  loadTable := finalState_loadTable
  saveRegistry r s hs := by
    obtain ⟨l, fs⟩ := s
    obtain ⟨rfl, hg⟩ := hs
    refine Ensures.final (P := fun s' => Within root base s' ∧ Storage.SameLoads (under root fs) s')
      ((ensures_saveRegistry r).mono ?_ ?_)
    · intro _ s' hpost
      obtain ⟨fs', rfl, hg', -, same⟩ := hpost
      exact ⟨⟨rfl, hg.trans hg'⟩, sameLoads same⟩
    · intro _ s' hpost
      obtain ⟨fs', rfl, hg', -, same⟩ := hpost
      exact ⟨⟨rfl, hg.trans hg'⟩, sameLoads same⟩
  saveTable table rows s hs := by
    obtain ⟨l, fs⟩ := s
    obtain ⟨rfl, hg⟩ := hs
    refine (ensures_saveTable table rows).mono ?_ ?_
    · intro _ s' hpost
      obtain ⟨fs', rfl, -, hg', -⟩ := hpost
      exact ⟨rfl, hg.trans hg'⟩
    · intro _ s' hpost
      obtain ⟨fs', rfl, hg', -, same⟩ := hpost
      exact ⟨⟨rfl, hg.trans hg'⟩, sameLoads same⟩
  removeTable table s hs := by
    obtain ⟨l, fs⟩ := s
    obtain ⟨rfl, hg⟩ := hs
    refine (ensures_removeTable table).mono ?_ ?_
    · intro _ s' hpost
      obtain ⟨fs', rfl, -, hg', -⟩ := hpost
      exact ⟨rfl, hg.trans hg'⟩
    · intro _ s' hs'
      cases hs'
      exact ⟨⟨rfl, hg⟩, fun _ => rfl⟩

end TableStore.FileStorage
