import TableStore.Proofs.Atomicity
import TableStore.Proofs.Encoding
import TableStore.Proofs.Files

/-!
What the documents of a storage load as, damaged ones and failing loads included. A call to a
storage in files either succeeds and has one effect on this, or fails and has none.
-/

namespace TableStore

structure Loads where
  registry : Except Error (Loaded Registry)
  table : String → Except Error (Loaded (List Row))

namespace Loads

theorem ext {l m : Loads} (hr : l.registry = m.registry) (ht : ∀ t, l.table t = m.table t) :
    l = m := by
  cases l; cases m
  simp only [mk.injEq]
  exact ⟨hr, funext ht⟩

/-- A table has been saved, or removed if there are no rows. -/
def put (l : Loads) (table : String) (rows : List Row) : Loads :=
  { l with table := fun t => if t = table then .ok ⟨rows, none⟩ else l.table t }

variable (l : Loads) (table t : String) (rows : List Row)

theorem table_put : (l.put table rows).table t = if t = table then .ok ⟨rows, none⟩ else l.table t :=
  rfl

theorem put_eq_self : l.put table rows = l ↔ l.table table = .ok ⟨rows, none⟩ := by
  constructor
  · intro h
    rw [← h, table_put, if_pos rfl]
  · intro h
    refine ext rfl fun t => ?_
    rw [table_put]
    split
    · next he => rw [he, h]
    · rfl

/-- Rows have been put in the place of those of a table, if there are any to put there. -/
def putIf : Option (List Row) → Loads
  | none => l
  | some rows => l.put table rows

theorem registry_putIf (write : Option (List Row)) :
    (l.putIf table write).registry = l.registry := by
  cases write <;> rfl

variable {l table t rows}

theorem table_put_of_ne (h : some table ≠ some t) : (l.put table rows).table t = l.table t := by
  rw [table_put, if_neg fun he => h (congrArg some he.symm)]

theorem table_putIf_of_ne {write : Option (List Row)} (h : some table ≠ some t) :
    (l.putIf table write).table t = l.table t := by
  cases write with
  | none => rfl
  | some rows => exact table_put_of_ne h

variable {loaded : Loaded (List Row)} (hl : l.table table = .ok loaded)
include hl

theorem put_ne_self (hr : rows ≠ loaded.value) : l.put table rows ≠ l := by
  rw [Ne, put_eq_self, hl]
  intro h
  cases h
  exact hr rfl

theorem put_eq_self_iff (hc : loaded.corruption = none) :
    l.put table rows = l ↔ rows = loaded.value := by
  constructor
  · intro h
    exact Classical.byContradiction fun hr => put_ne_self hl hr h
  · intro h
    rw [put_eq_self, hl, h, ← hc]

end Loads

/-- What the documents of a storage load as in a state. -/
def Storage.loads {σ : Type} [Storage σ] (s : σ) : Loads :=
  ⟨outcome (Storage.loadRegistry s), fun table => outcome (Storage.loadTable table s)⟩

namespace FileStorage

open FileSystem (SameTables)

variable {root : Path} {fs fs' : FileSystem} {table : String} {s : FileStorage}

/-- A damaged table loads as one without rows. -/
theorem value_of_corruption {loaded : Loaded (List Row)}
    (h : (Storage.loads s).table table = .ok loaded) :
    loaded.corruption = none ∨ loaded.value = [] := by
  obtain ⟨file, -, h⟩ := exceptBind_eq_ok.mp
    ((outcome_ofExcept_bind _ _).symm.trans ((outcome_onFiles _ s).symm.trans h))
  exact FileSystem.blank_of_corruption h

theorem loads_of_same (hr : fs'.registryBytes root = fs.registryBytes root)
    (ht : SameTables root (fun _ => False) fs fs') :
    Storage.loads (under root fs') = Storage.loads (under root fs) :=
  Loads.ext (outcome_loadRegistry hr) (sameLoads ht)

theorem loadRegistry_encode {r : Registry}
    (h : fs.registryBytes root = .ok (Document.encode r)) :
    Storage.loadRegistry (under root fs) = .ok ⟨r, none⟩ (under root fs) :=
  loadRegistry_of_read h (Document.decode?_encode_registry r)

theorem outcome_loadTable_encode (hi : Text.isIdentifier table) {rows : List Row}
    (h : fs.tableBytes root table = .ok (Document.encode rows)) :
    outcome (Storage.loadTable table (under root fs)) = .ok ⟨rows, none⟩ := by
  refine (outcome_onFiles _ _).trans ?_
  simp only [tableFile_eq hi]
  exact congrArg outcome (FileSystem.loadDocument_encode (Document.decode?_encode_rows rows) h)

theorem outcome_loadTable_missing (hi : Text.isIdentifier table)
    (h : fs.tableBytes root table = .error .missing) :
    outcome (Storage.loadTable table (under root fs)) = .ok ⟨[], none⟩ := by
  refine (outcome_onFiles _ _).trans ?_
  simp only [tableFile_eq hi]
  exact congrArg outcome (FileSystem.loadDocument_missing h)

theorem loads_of_put {rows : List Row} (hr : fs'.registryBytes root = fs.registryBytes root)
    (ht : outcome (Storage.loadTable table (under root fs')) = .ok ⟨rows, none⟩)
    (same : SameTables root (· = table) fs fs') :
    Storage.loads (under root fs') = (Storage.loads (under root fs)).put table rows := by
  refine Loads.ext (outcome_loadRegistry hr) fun t => ?_
  rw [Loads.table_put]
  split
  · next he =>
      subst he
      exact ht
  · next hne => exact outcome_loadTable fun hi => same t hi hne

theorem loads_saveRegistry_error (hl : s.layout = .underRoot root) {r : Registry} {e : Error}
    {s' : FileStorage} (h : Storage.saveRegistry r s = .error e s') :
    Storage.loads s' = Storage.loads s := by
  obtain ⟨l, fs⟩ := s
  cases hl
  obtain ⟨fs', rfl, -, hr, same⟩ := (ensures_saveRegistry r).error h
  exact loads_of_same hr same

theorem loads_saveTable (hl : s.layout = .underRoot root) (table : String) (rows : List Row) :
    Ensures (Storage.saveTable table rows) s
      (fun _ s' => s'.layout = .underRoot root ∧
        Storage.loads s' = (Storage.loads s).put table rows)
      fun _ s' => s'.layout = .underRoot root ∧ Storage.loads s' = Storage.loads s := by
  obtain ⟨l, fs⟩ := s
  cases hl
  refine (ensures_saveTable table rows).mono ?_ ?_
  · intro _ s' hpost
    obtain ⟨fs', rfl, hi, -, hr, ht, same⟩ := hpost
    exact ⟨rfl, loads_of_put hr (outcome_loadTable_encode hi ht) same⟩
  · intro _ s' hpost
    obtain ⟨fs', rfl, -, hr, same⟩ := hpost
    exact ⟨rfl, loads_of_same hr same⟩

theorem loads_removeTable (hl : s.layout = .underRoot root) (table : String) :
    Ensures (Storage.removeTable table) s
      (fun _ s' => s'.layout = .underRoot root ∧
        Storage.loads s' = (Storage.loads s).put table [])
      fun _ s' => s'.layout = .underRoot root ∧ Storage.loads s' = Storage.loads s := by
  obtain ⟨l, fs⟩ := s
  cases hl
  refine (ensures_removeTable table).mono ?_ ?_
  · intro _ s' hpost
    obtain ⟨fs', rfl, hi, -, hr, ht, same⟩ := hpost
    exact ⟨rfl, loads_of_put hr (outcome_loadTable_missing hi ht) same⟩
  · intro _ s' hs'
    cases hs'
    exact ⟨rfl, rfl⟩

/-- A storage in files fails cleanly, as far as its documents load. -/
theorem failsCleanly (root : Path) :
    Storage.FailsCleanly (fun s : FileStorage => s.layout = .underRoot root) Storage.loads where
  loadTable table s hl := by
    rw [finalState_loadTable]
    exact ⟨hl, rfl⟩
  saveTable table rows _ _ _ hl he := ((loads_saveTable hl table rows).error he).2
  removeTable table _ _ _ hl he := ((loads_removeTable hl table).error he).2

end FileStorage
end TableStore
