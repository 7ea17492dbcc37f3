import TableStore.Error

/-!
The configuration of a database: where its files are, and whether it keeps scans.
-/

namespace TableStore

structure FileLayout where
  metadataFile : Path
  dataDirectory : Path
  deriving DecidableEq

structure Config where
  layout : FileLayout
  cacheEnabled : Bool
  deriving DecidableEq

namespace FileLayout

def default : FileLayout := ⟨⟨"db_meta.json"⟩, ⟨"data"⟩⟩

/-- The default layout under a root. -/
def underRoot (root : Path) : FileLayout :=
  ⟨root.join default.metadataFile.text, root.join default.dataDirectory.text⟩

/-- Equality up to the spelling of the paths. -/
def same (l m : FileLayout) : Bool :=
  l.metadataFile.same m.metadataFile && l.dataDirectory.same m.dataDirectory

end FileLayout

namespace Config

def default : Config := ⟨.default, true⟩

def underRoot (root : Path) : Config := ⟨.underRoot root, true⟩

/-- Equality up to the spelling of the paths. -/
def same (c d : Config) : Bool := c.layout.same d.layout && c.cacheEnabled == d.cacheEnabled

/-- Neither path may be empty, and the metadata file may not be a neighbour of the table
files, where it could be taken for one. -/
def validate (c : Config) : Except Error Unit :=
  if c.layout.metadataFile.text = "" then .error (.invalidConfig .emptyMetadataFile)
  else if c.layout.dataDirectory.text = "" then .error (.invalidConfig .emptyDataDirectory)
  else if c.layout.metadataFile.parent?.any c.layout.dataDirectory.same then
    .error (.invalidConfig .metadataAmongTables)
  else .ok ()

end Config
end TableStore
