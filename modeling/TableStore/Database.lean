import TableStore.Command
import TableStore.Storage.Files
import TableStore.Storage.Memory

/-!
Opening a database: an engine over a storage, ready for commands.
-/

namespace TableStore.Config

def openMemory (c : Config) : Engine MemoryStorage := .create c.cacheEnabled .empty

/-- A database in files. The configuration has to be valid, and the directories it names are
created. -/
def openFiles (c : Config) : EStateM Error FileSystem (Engine FileStorage) := do
  ofExcept c.validate
  c.layout.prepare
  return .create c.cacheEnabled ⟨c.layout, ← get⟩

end TableStore.Config
