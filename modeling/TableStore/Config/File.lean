import TableStore.Action
import TableStore.Config
import TableStore.Toml.Document

/-!
Configurations in TOML files. What a file does not say keeps its default, and what it says
besides is passed over.
-/

namespace TableStore

namespace Toml

/-- The values of named fields, if the value can hold fields. An array gives them by position,
and a date or time gives none. -/
def fields? (names : List String) : Toml → Option (List (Option Toml))
  | table _ members => some (names.map (find? · members))
  | array items => some (byPosition items)
  | tables earlier last => some (byPosition (earlier ++ [table .header last]))
  | moment => some (names.map fun _ => none)
  | _ => none
where
  byPosition (items : List Toml) : List (Option Toml) :=
    (List.range names.length).map (items[·]?)

/-- The path that a field gives, or the default if the field is missing. -/
def pathOr? (absent : Path) : Option Toml → Option Path
  | none => some absent
  | some (text s) => some ⟨s⟩
  | some _ => none

def booleanOr? (absent : Bool) : Option Toml → Option Bool
  | none => some absent
  | some (boolean b) => some b
  | some _ => none

end Toml

namespace FileLayout

def ofToml? (t : Toml) : Option FileLayout := do
  match ← t.fields? ["metadata_file", "data_dir"] with
  | [metadataFile, dataDirectory] =>
    return ⟨← Toml.pathOr? default.metadataFile metadataFile,
      ← Toml.pathOr? default.dataDirectory dataDirectory⟩
  | _ => none

end FileLayout

namespace Config

def cacheEnabledOfToml? (t : Toml) : Option Bool := do
  match ← t.fields? ["enabled"] with
  | [enabled] => Toml.booleanOr? default.cacheEnabled enabled
  | _ => none

def ofToml? (members : Toml.Members) : Option Config :=
  return ⟨← (Toml.find? "storage" members).elim (some default.layout) FileLayout.ofToml?,
    ← (Toml.find? "cache" members).elim (some default.cacheEnabled) cacheEnabledOfToml?⟩

def parse? (cs : List Char) : Option Config := Toml.parse? cs >>= ofToml?

def print (c : Config) : String :=
  "[storage]\nmetadata_file = " ++ String.ofList (Toml.Text.write c.layout.metadataFile.text) ++
    "\ndata_dir = " ++ String.ofList (Toml.Text.write c.layout.dataDirectory.text) ++
    "\n\n[cache]\nenabled = " ++ (if c.cacheEnabled then "true" else "false") ++ "\n"

/-- Loads a configuration and validates it. -/
def load (file : Path) (fs : FileSystem) : Except Error Config :=
  match fs.read file with
  | .error fault => .error (.storageRead file fault)
  | .ok bytes =>
    match String.fromUTF8? bytes with
    | none => .error (.storageRead file .notText)
    | some text =>
      match parse? text.toList with
      | none => .error (.invalidConfig (.malformed file "not a configuration"))
      | some c => c.validate.map fun _ => c

/-- Saves a configuration, valid or not, after creating the directories above the file. -/
def save (c : Config) (file : Path) : EStateM Error FileSystem Unit :=
  fun fs =>
    match prepare fs with
    | .error fault fs => .error (.storageWrite file fault) fs
    | .ok _ fs =>
      match fs.write file c.print.toUTF8 with
      | .error fault => .error (.storageWrite file fault) fs
      | .ok fs => .ok () fs
where
  prepare : EStateM Fault FileSystem Unit :=
    match file.parent? with
    | some parent =>
      if parent.text = "" then pure () else FileSystem.makeDirectories parent
    | none => pure ()

end Config
end TableStore
