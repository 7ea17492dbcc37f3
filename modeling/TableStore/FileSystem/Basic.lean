import TableStore.KeyedList
import TableStore.Path

/-!
File systems as values: files and directories at locations, a working directory, and the
operations that a storage uses, each of which either takes effect or changes nothing. There
are no links, so a path that leads anywhere leads where its text says.
-/

namespace TableStore

inductive Fault where
  | missing
  | busy
  | taken
  | notDirectory
  | isDirectory
  | nameTooLong
  /-- A path holds the character that ends paths. -/
  | zeroInPath
  /-- A text was wanted, and the bytes encode none. -/
  | notText
  /-- A failure known by its text alone. -/
  | other (text : String)
  deriving DecidableEq

namespace Fault

def message : Fault → String
  | missing => "No such file or directory (os error 2)"
  | busy => "Device or resource busy (os error 16)"
  | taken => "File exists (os error 17)"
  | notDirectory => "Not a directory (os error 20)"
  | isDirectory => "Is a directory (os error 21)"
  | nameTooLong => "File name too long (os error 36)"
  | zeroInPath => "file name contained an unexpected NUL byte"
  | notText => "stream did not contain valid UTF-8"
  | other text => text

end Fault

/-- A place in the tree of files: the names on the way up to the root, its own name first. -/
abbrev Location := List String

inductive Entry where
  | file (contents : ByteArray)
  | directory

def Entry.isDirectory : Entry → Bool
  | file _ => false
  | directory => true

/-- The files and directories below the root, and the directory where relative paths start. -/
structure FileSystem where
  entries : KeyedList Location Entry
  workingDirectory : Location

namespace FileSystem

/-- The longest name in bytes. -/
def maxName : Nat := 255

/-- The longest path in bytes. -/
def maxPath : Nat := 4095

/-- An empty working directory and nothing else. -/
def empty : FileSystem := ⟨KeyedList.empty.insert ["work"] .directory, ["work"]⟩

def entry? (fs : FileSystem) (location : Location) : Option Entry :=
  if location = [] then some .directory else fs.entries.get? location

/-- What the name stands for in a directory. -/
def find? (fs : FileSystem) (directory : Location) (name : String) : Except Fault (Option Entry) :=
  if maxName < name.utf8ByteSize then .error .nameTooLong
  else .ok (fs.entry? (name :: directory))

def set (fs : FileSystem) (location : Location) (entry : Entry) : FileSystem :=
  { fs with entries := fs.entries.insert location entry }

def clear (fs : FileSystem) (location : Location) : FileSystem :=
  { fs with entries := fs.entries.erase location }

/-- Goes from a directory along segments that must all lead to directories. -/
def walk (fs : FileSystem) : Location → List String → Except Fault Location
  | directory, [] => .ok directory
  | directory, segment :: rest =>
    if segment = "" || segment = "." then walk fs directory rest
    else if segment = ".." then walk fs directory.tail rest
    else do
      match ← fs.find? directory segment with
      | none => .error .missing
      | some (.file _) => .error .notDirectory
      | some .directory => walk fs (segment :: directory) rest

/-- Where a path leads: to a directory that is there for certain, or to a name in one, which
may be written with slashes behind it. -/
inductive Target where
  | directory (location : Location)
  | name (directory : Location) (name : String) (slash : Bool)

/-- Follows all of a path but its last segment. -/
def resolve (fs : FileSystem) (p : Path) : Except Fault Target :=
  if p.text.toList.contains '\x00' then .error .zeroInPath
  else if p.text = "" then .error .missing
  else if maxPath < p.text.utf8ByteSize then .error .nameTooLong
  else
    let start := if p.parts.1 = .root then [] else fs.workingDirectory
    let body := p.segments.reverse
    match body.dropWhile (· == "") with
    | [] => .ok (.directory start)
    | last :: above => do
      let directory ← fs.walk start above.reverse
      if last = "." then .ok (.directory directory)
      else if last = ".." then .ok (.directory directory.tail)
      else .ok (.name directory last (body.head? == some ""))

def isDirectory (fs : FileSystem) (p : Path) : Bool :=
  match fs.resolve p with
  | .error _ => false
  | .ok (.directory _) => true
  | .ok (.name directory name _) => (fs.entry? (name :: directory)).any Entry.isDirectory

def read (fs : FileSystem) (p : Path) : Except Fault ByteArray := do
  match ← fs.resolve p with
  | .directory _ => .error .isDirectory
  | .name directory name slash =>
    match ← fs.find? directory name with
    | none => .error .missing
    | some .directory => .error .isDirectory
    | some (.file contents) => if slash then .error .notDirectory else .ok contents

/-- Creates a file, or replaces what is in one. -/
def write (fs : FileSystem) (p : Path) (contents : ByteArray) : Except Fault FileSystem := do
  match ← fs.resolve p with
  | .directory _ => .error .isDirectory
  | .name directory name slash =>
    if slash then .error .isDirectory
    else
      match ← fs.find? directory name with
      | some .directory => .error .isDirectory
      | _ => .ok (fs.set (name :: directory) (.file contents))

/-- Moves a file, over another file if there is one. -/
def rename (fs : FileSystem) (source target : Path) : Except Fault FileSystem := do
  match ← fs.resolve source, ← fs.resolve target with
  | .name directory name slash, .name directory' name' slash' =>
    match ← fs.find? directory name with
    | none => .error .missing
    | some .directory => .error .isDirectory
    | some (.file contents) =>
      let there ← fs.find? directory' name'
      if slash || slash' then .error .notDirectory
      else if there.any Entry.isDirectory then .error .isDirectory
      else .ok ((fs.clear (name :: directory)).set (name' :: directory') (.file contents))
  | _, _ => .error .busy

def remove (fs : FileSystem) (p : Path) : Except Fault FileSystem := do
  match ← fs.resolve p with
  | .directory _ => .error .isDirectory
  | .name directory name slash =>
    match ← fs.find? directory name with
    | none => .error .missing
    | some .directory => .error .isDirectory
    | some (.file _) =>
      if slash then .error .notDirectory else .ok (fs.clear (name :: directory))

def makeDirectory (fs : FileSystem) (p : Path) : Except Fault FileSystem := do
  match ← fs.resolve p with
  | .directory _ => .error .taken
  | .name directory name _ =>
    match ← fs.find? directory name with
    | some _ => .error .taken
    | none => .ok (fs.set (name :: directory) .directory)

/-- Creates a directory, after those above it if one of them is missing. A directory that is
there already is as good as a new one. What was created before a failure stays. -/
def makeAfter (above : EStateM Fault FileSystem Unit) (p : Path) : EStateM Fault FileSystem Unit :=
  fun fs =>
    match fs.makeDirectory p with
    | .ok fs => .ok () fs
    | .error .missing =>
      match above fs with
      | .error e fs => .error e fs
      | .ok _ fs =>
        match fs.makeDirectory p with
        | .ok fs => .ok () fs
        | .error e => if fs.isDirectory p then .ok () fs else .error e fs
    | .error e => if fs.isDirectory p then .ok () fs else .error e fs

/-- Creates the directories with these bodies, the last of them first; an empty path ends the
chain. -/
def makeChain (anchor : Path.Anchor) : List (List String) → EStateM Fault FileSystem Unit
  | [] => pure ()
  | body :: above =>
    let p := Path.ofParts anchor body.reverse
    if p.text = "" then pure () else makeAfter (makeChain anchor above) p

def makeDirectories (p : Path) : EStateM Fault FileSystem Unit :=
  if p.text = "" then pure ()
  else makeAfter (makeChain p.parts.1 (Path.parentBodies p.parts.2.reverse)) p

end FileSystem
end TableStore
