import TableStore.Proofs.CacheInvisible
import TableStore.Proofs.Encoding
import TableStore.Proofs.Grounded

/-!
The registry and the tables of an opened database, which are kept apart if they have different
places. A configuration that is accepted may still put the registry in the place of a table,
because paths are compared by their spelling when it is checked.
-/

namespace TableStore

open FileSystem (Grows ChangesOnly SameAt draft)

/-! ## Opening -/

namespace Config

variable {c : Config} {fs₀ fs : FileSystem} {engine : Engine FileStorage}

theorem openFiles_eq_ok (h : c.openFiles fs₀ = .ok engine fs) :
    c.validate = .ok () ∧ c.layout.Prepared fs ∧ engine = .create c.cacheEnabled ⟨c.layout, fs⟩ := by
  simp only [openFiles, bind_apply] at h
  cases hv : c.validate with
  | error e => rw [hv] at h; cases h
  | ok _ =>
      simp only [hv, ofExcept_ok_apply] at h
      have hprepare := FileLayout.prepare_grows c.layout fs₀
      cases hp : c.layout.prepare fs₀ with
      | error e fs₁ => rw [hp] at h; cases h
      | ok _ fs₁ =>
          rw [hp] at h
          cases h
          exact ⟨rfl, (hprepare.ok hp).2, rfl⟩

end Config

/-! ## Places of documents -/

namespace FileSystem

theorem ChangesOnly.sameAt {places : Location → Prop} {fs fs' : FileSystem} {p : Path}
    (h : ChangesOnly places fs fs') (hp : ¬ places (p.location fs.workingDirectory)) :
    fs.SameAt fs' p :=
  ⟨h.toSameDirectories, h.elsewhere _ hp⟩

/-- The document of a table is not where a draft is. -/
theorem location_table_ne_draft (l : FileLayout) {t : String} (h : Text.isIdentifier t) (q : Path)
    (d : Location) : (l.tableDocument t).location d ≠ (draft q).location d := by
  obtain ⟨front, last, -, -, -, above, -, hq⟩ := location_draft q d
  rw [FileLayout.tableDocument, Path.location_join _ (isName_document h), hq]
  intro he
  exact documentName_ne_draft (List.cons.inj he).1

end FileSystem

namespace FileStorage

variable {s : FileStorage} {l : FileLayout} {t : String}

/-- In an opened database the registry and a table do not disturb each other if they have
different places, and neither does the draft of the table if it has a place of its own. -/
theorem loads_apart {c : Config} {fs₀ fs : FileSystem} {engine : Engine FileStorage}
    (hopen : c.openFiles fs₀ = .ok engine fs) (hl : s.layout = c.layout) (hg : Grows fs s.files)
    (hi : Text.isIdentifier t)
    (hplace : c.layout.metadataFile.location fs.workingDirectory ≠
      (c.layout.dataDirectory.join (t ++ ".json")).location fs.workingDirectory) :
    (∀ r, outcome (Storage.loadTable t (finalState (Storage.saveRegistry r s))) =
        outcome (Storage.loadTable t s)) ∧
      outcome (Storage.loadRegistry (finalState (Storage.removeTable t s))) =
        outcome (Storage.loadRegistry s) ∧
      (c.layout.metadataFile.location fs.workingDirectory ≠
          ((c.layout.dataDirectory.join (t ++ ".json")).withSuffix ".tmp").location
            fs.workingDirectory →
        ∀ rows, outcome (Storage.loadRegistry (finalState (Storage.saveTable t rows s))) =
          outcome (Storage.loadRegistry s)) := by
  obtain ⟨-, hprepared, -⟩ := Config.openFiles_eq_ok hopen
  have hready : s.layout.Prepared s.files := hl ▸ hprepared.grows hg
  have hregistry := hready.grounded .registry
  have htable := hready.grounded (.table hi)
  rw [← hg.workingDirectory, ← hl] at hplace
  rw [← hg.workingDirectory, ← hl]
  refine ⟨fun r => ?_, ?_, fun hdraft rows => ?_⟩
  · rw [saveRegistry_files]
    have hc := FileSystem.changesOnly_saveDocument s.layout.metadataFile r s.files
    refine outcome_loadTable fun _ => (htable.read_eq (hc.sameAt ?_))
    rintro (h | h)
    · exact hplace h.symm
    · exact FileSystem.location_table_ne_draft _ hi _ _ h
  · rw [removeTable_files hi]
    have hc := FileSystem.changesOnly_removeDocument (s.layout.tableDocument t) s.files
    exact outcome_loadRegistry (hregistry.read_eq (hc.sameAt hplace))
  · rw [saveTable_files hi]
    have hc := FileSystem.changesOnly_saveDocument (s.layout.tableDocument t) rows s.files
    refine outcome_loadRegistry (hregistry.read_eq (hc.sameAt ?_))
    rintro (h | h)
    · exact hplace h
    · exact hdraft h

/-- An empty working directory in which a database has been opened. -/
def openedFiles : FileSystem := FileSystem.empty.set ["data", "work"] .directory

def defaultStorage : FileStorage := ⟨.default, openedFiles⟩

theorem loads_apart_default :
    Config.default.openFiles .empty = .ok (.create true defaultStorage) openedFiles ∧
      (∀ r, outcome (Storage.loadTable "t" (finalState (Storage.saveRegistry r defaultStorage))) =
        outcome (Storage.loadTable "t" defaultStorage)) ∧
      outcome (Storage.loadRegistry (finalState (Storage.removeTable "t" defaultStorage))) =
        outcome (Storage.loadRegistry defaultStorage) ∧
      ∀ rows, outcome (Storage.loadRegistry (finalState (Storage.saveTable "t" rows defaultStorage))) =
        outcome (Storage.loadRegistry defaultStorage) := by
  have hopen : Config.default.openFiles .empty = .ok (.create true defaultStorage) openedFiles := rfl
  obtain ⟨hsave, hremove, htable⟩ :=
    loads_apart (s := defaultStorage) (t := "t") hopen rfl (.refl openedFiles) (by decide)
      (by decide)
  exact ⟨hopen, hsave, hremove, htable (by decide)⟩

/-! A registry in the place of the table `t`. Its directory is spelled `./data`, which counts as
another one than `data` when the configuration is checked. -/

def mixed : Config := ⟨⟨⟨"./data/t.json"⟩, ⟨"data"⟩⟩, true⟩

def mixedStorage : FileStorage := ⟨mixed.layout, openedFiles⟩

theorem registry_of_rows :
    (Document.decode? (Document.encode ([] : List Row)) : Option Registry) = none := by
  rw [Document.encode, Document.decode?_toUTF8]
  rfl

/-- The configuration is accepted, and saving the table damages the registry. -/
theorem saveTable_mixed :
    mixed.openFiles .empty = .ok (.create true mixedStorage) openedFiles ∧
      outcome (Storage.loadRegistry mixedStorage) = .ok ⟨.empty, none⟩ ∧
      outcome (Storage.loadRegistry (finalState (Storage.saveTable "t" [] mixedStorage))) =
        .ok ⟨.empty, some (.storageCorrupt ⟨"./data/t.json"⟩ "not a document of its kind")⟩ := by
  refine ⟨rfl, rfl, ?_⟩
  have hread : (finalState (FileSystem.saveDocument (mixed.layout.tableDocument "t")
      ([] : List Row) openedFiles)).read ⟨"./data/t.json"⟩ = .ok (Document.encode ([] : List Row)) :=
    rfl
  rw [saveTable_files (by decide)]
  refine (outcome_onFiles _ _).trans ?_
  exact congrArg outcome (FileSystem.loadDocument_damaged registry_of_rows hread)

end FileStorage
end TableStore
