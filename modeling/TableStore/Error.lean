import TableStore.FileSystem.Basic
import TableStore.Value

/-!
Everything that can go wrong, by cause, with its message, its code and its classification.
-/

namespace TableStore

inductive ConfigFault where
  | emptyMetadataFile
  | emptyDataDirectory
  /-- The metadata file would be a neighbour of the table files. -/
  | metadataAmongTables
  /-- The configuration file is no configuration. -/
  | malformed (file : Path) (detail : String)
  | other (message : String)
  deriving DecidableEq

namespace ConfigFault

def message : ConfigFault → String
  | emptyMetadataFile => "storage.metadata_file must not be empty"
  | emptyDataDirectory => "storage.data_dir must not be empty"
  | metadataAmongTables =>
    "storage.metadata_file must not live directly inside storage.data_dir"
  | malformed file detail => s!"{file.text}: {detail}"
  | other message => message

end ConfigFault

inductive Error where
  | internal (message : String)
  | invalidConfig (fault : ConfigFault)
  | storageRead (file : Path) (fault : Fault)
  /-- A document holds something else than its kind of data. -/
  | storageCorrupt (file : Path) (detail : String)
  /-- A file could not be written or removed. -/
  | storageWrite (file : Path) (fault : Fault)
  | tableNotFound (table : String)
  | columnNotFound (table column : String)
  | tableExists (table : String)
  | invalidTableName (name : String)
  | invalidColumnName (table column : String)
  | unknownType (table column typeName : String)
  | duplicateColumn (table column : String)
  | arityMismatch (table : String) (expected actual : Nat)
  | typeMismatch (table column : String) (expected actual : DataType)
  | readOnlyColumn (table column : String)
  | emptySetClause (table : String)
  | idExhausted (table : String) (maxId : Int64)
  deriving DecidableEq

inductive ErrorCode where
  | unknown
  | internal
  | invalidArgument
  | io
  | storageCorrupt
  | storageWriteFailure
  | notFound
  | alreadyExists
  | invalidSchema
  | arityMismatch
  | typeMismatch
  | idExhausted
  deriving DecidableEq

namespace ErrorCode

def all : List ErrorCode :=
  [unknown, internal, invalidArgument, io, storageCorrupt, storageWriteFailure, notFound,
    alreadyExists, invalidSchema, arityMismatch, typeMismatch, idExhausted]

def name : ErrorCode → String
  | unknown => "Unknown"
  | internal => "Internal"
  | invalidArgument => "InvalidArgument"
  | io => "Io"
  | storageCorrupt => "StorageCorrupt"
  | storageWriteFailure => "StorageWriteFailure"
  | notFound => "NotFound"
  | alreadyExists => "AlreadyExists"
  | invalidSchema => "InvalidSchema"
  | arityMismatch => "ArityMismatch"
  | typeMismatch => "TypeMismatch"
  | idExhausted => "IdExhausted"

def number : ErrorCode → Nat
  | unknown => 0x0000
  | internal => 0x0001
  | invalidArgument => 0x0003
  | io => 0x0100
  | storageCorrupt => 0x0104
  | storageWriteFailure => 0x0105
  | notFound => 0x0200
  | alreadyExists => 0x0201
  | invalidSchema => 0x0202
  | arityMismatch => 0x0300
  | typeMismatch => 0x0301
  | idExhausted => 0x0302

def category (c : ErrorCode) : String :=
  match c.number / 256 with
  | 0 => "General"
  | 1 => "Storage"
  | 2 => "Schema"
  | 3 => "Data"
  | _ => "Unknown"

end ErrorCode

namespace Error

def message : Error → String
  | internal message => s!"internal error: {message}"
  | invalidConfig fault => s!"invalid configuration: {fault.message}"
  | storageRead file fault => s!"failed to read {file.text}: {fault.message}"
  | storageCorrupt file detail =>
    s!"file {file.text} is corrupted or has an invalid format: {detail}"
  | storageWrite file fault => s!"failed to write {file.text}: {fault.message}"
  | tableNotFound table => s!"table '{table}' does not exist"
  | columnNotFound table column => s!"column '{column}' does not exist in table '{table}'"
  | tableExists table => s!"table '{table}' already exists"
  | invalidTableName name => s!"invalid table name '{name}'"
  | invalidColumnName table column => s!"invalid column name '{column}' in table '{table}'"
  | unknownType _ column typeName =>
    s!"invalid data type '{typeName}' for column '{column}' (supported: int, str, bool)"
  | duplicateColumn table column => s!"duplicate column name '{column}' in table '{table}'"
  | arityMismatch table expected actual =>
    s!"table '{table}' expects {expected} values, got {actual}"
  | typeMismatch table column expected actual =>
    s!"column '{column}' of table '{table}' expects {expected.name}, got {actual.name}"
  | readOnlyColumn table column => s!"column '{column}' of table '{table}' is read-only"
  | emptySetClause table => s!"update of table '{table}' has no assignments"
  | idExhausted table maxId => s!"table '{table}' has no identifiers left after {maxId.toInt}"

def code : Error → ErrorCode
  | internal _ => .internal
  | invalidConfig _ => .invalidArgument
  | storageRead _ _ => .io
  | storageCorrupt _ _ => .storageCorrupt
  | storageWrite _ _ => .storageWriteFailure
  | tableNotFound _ | columnNotFound _ _ => .notFound
  | tableExists _ => .alreadyExists
  | invalidTableName _ | invalidColumnName _ _ | unknownType _ _ _ | duplicateColumn _ _ =>
    .invalidSchema
  | arityMismatch _ _ _ => .arityMismatch
  | typeMismatch _ _ _ _ => .typeMismatch
  | readOnlyColumn _ _ | emptySetClause _ => .invalidArgument
  | idExhausted _ _ => .idExhausted

def isNotFound (e : Error) : Bool := e.code = .notFound

def isSchemaError (e : Error) : Bool := e.code = .alreadyExists || e.code = .invalidSchema

/-- The request was refused, as against a failure of the storage or of the program. -/
def isValidation (e : Error) : Bool :=
  match e.code with
  | .internal | .unknown | .io | .storageCorrupt | .storageWriteFailure => false
  | _ => true

def table? : Error → Option String
  | tableNotFound table | columnNotFound table _ | tableExists table | invalidTableName table
  | invalidColumnName table _ | unknownType table _ _ | duplicateColumn table _
  | arityMismatch table _ _ | typeMismatch table _ _ _ | readOnlyColumn table _
  | emptySetClause table | idExhausted table _ => some table
  | internal _ | invalidConfig _ | storageRead _ _ | storageCorrupt _ _ | storageWrite _ _ => none

end Error
end TableStore
