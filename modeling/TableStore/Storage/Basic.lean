import TableStore.Registry

/-!
What a database asks of a storage: the registry and the rows of each table as documents of
their own. Every save replaces a whole document.
-/

namespace TableStore

/-- A loaded document. If the stored one was damaged, `value` is the blank one, and the
report says so. -/
structure Loaded (α : Type) where
  value : α
  corruption : Option Error

/-- A storage with states `σ`. What is not stored loads as a blank document, and removing it
succeeds. -/
class Storage (σ : Type) where
  loadRegistry : EStateM Error σ (Loaded Registry)
  saveRegistry : Registry → EStateM Error σ Unit
  loadTable : String → EStateM Error σ (Loaded (List Row))
  saveTable : String → List Row → EStateM Error σ Unit
  removeTable : String → EStateM Error σ Unit

end TableStore
