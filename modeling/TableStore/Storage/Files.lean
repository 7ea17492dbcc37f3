import TableStore.Action
import TableStore.Config
import TableStore.Document.File
import TableStore.Storage.Basic

/-!
A storage in files: one document for the registry and one per table. A document is written
beside its place and then moved there, so that its place holds the old or the new document,
whole, at every moment.
-/

namespace TableStore

structure FileStorage where
  layout : FileLayout
  files : FileSystem

namespace FileSystem

/-- Where a document is written before it is moved to its place. -/
def draft (file : Path) : Path := file.withSuffix ".tmp"

/-- Loads a document. A file that is missing is a blank one; a file that holds something else
is reported. -/
def loadDocument {α : Type} [Document α] (file : Path) : EStateM Error FileSystem (Loaded α) :=
  fun fs =>
    match fs.read file with
    | .error .missing => .ok ⟨Document.blank, none⟩ fs
    | .error fault => .error (.storageRead file fault) fs
    | .ok bytes =>
      match Document.decode? bytes with
      | some value => .ok ⟨value, none⟩ fs
      | none => .ok ⟨Document.blank, some (.storageCorrupt file "not a document of its kind")⟩ fs

/-- Saves a document: writes the draft, then moves it to its place. -/
def saveDocument {α : Type} [Document α] (file : Path) (value : α) :
    EStateM Error FileSystem Unit :=
  fun fs =>
    match fs.write (draft file) (Document.encode value) with
    | .error fault => .error (.storageWrite (draft file) fault) fs
    | .ok fs =>
      match fs.rename (draft file) file with
      | .error fault => .error (.storageWrite file fault) fs
      | .ok fs => .ok () fs

def removeDocument (file : Path) : EStateM Error FileSystem Unit :=
  fun fs =>
    match fs.remove file with
    | .error .missing => .ok () fs
    | .error fault => .error (.storageWrite file fault) fs
    | .ok fs => .ok () fs

def ensureDirectory (directory : Path) : EStateM Error FileSystem Unit :=
  fun fs =>
    match makeDirectories directory fs with
    | .ok _ fs => .ok () fs
    | .error fault fs => .error (.storageWrite directory fault) fs

end FileSystem

namespace FileLayout

/-- The document of a table. Only identifiers name tables, so that no name leads out of the
data directory. -/
def tableFile (l : FileLayout) (table : String) : Except Error Path :=
  if Text.isIdentifier table then .ok (l.dataDirectory.join (table ++ ".json"))
  else .error (.invalidTableName table)

def prepare (l : FileLayout) : EStateM Error FileSystem Unit := do
  FileSystem.ensureDirectory l.dataDirectory
  match l.metadataFile.parent? with
  | some parent => if parent.text = "" then pure () else FileSystem.ensureDirectory parent
  | none => pure ()

end FileLayout

namespace FileStorage

def onFiles {α : Type} (act : FileLayout → EStateM Error FileSystem α) :
    EStateM Error FileStorage α :=
  fun s => onPart files (fun s files => { s with files := files }) (act s.layout) s

instance : Storage FileStorage where
  loadRegistry := onFiles fun l => FileSystem.loadDocument l.metadataFile
  saveRegistry r := onFiles fun l => FileSystem.saveDocument l.metadataFile r
  loadTable table := onFiles fun l => do
    FileSystem.loadDocument (← ofExcept (l.tableFile table))
  saveTable table rows := onFiles fun l => do
    FileSystem.saveDocument (← ofExcept (l.tableFile table)) rows
  removeTable table := onFiles fun l => do
    FileSystem.removeDocument (← ofExcept (l.tableFile table))

end FileStorage
end TableStore
