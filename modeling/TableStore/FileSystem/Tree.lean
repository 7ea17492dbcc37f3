import TableStore.Action
import TableStore.FileSystem.Basic

/-!
Whole trees of files: what lies below the working directory, and changes made to it by hand,
past any storage.
-/

namespace TableStore.FileSystem

/-- The path of a location below a directory, relative to it. -/
def relative? (directory location : Location) : Option String :=
  if directory.isSuffixOf location && directory.length < location.length then
    some ("/".intercalate (location.take (location.length - directory.length)).reverse)
  else none

/-- Everything below the working directory by its relative path, in the order of the paths. -/
def listing (fs : FileSystem) : List (String × Entry) :=
  (fs.entries.entries.filterMap fun e => (relative? fs.workingDirectory e.1).map (·, e.2)).mergeSort
    fun a b => a.1 ≤ b.1

/-- Removes what a path leads to, a directory with all that lies below it. -/
def removeTree (fs : FileSystem) (p : Path) : FileSystem :=
  match fs.resolve p with
  | .ok (.name directory name _) =>
    (fs.entries.keys.filter (name :: directory).isSuffixOf).foldl clear fs
  | _ => fs

/-- Puts a file or a directory in place, together with the directories above it. -/
def place (fs : FileSystem) (p : Path) : Entry → FileSystem
  | .directory => finalState (makeDirectories p fs)
  | .file contents =>
    let fs := match p.parent? with
      | some above => finalState (makeDirectories above fs)
      | none => fs
    match fs.write p contents with
    | .ok fs => fs
    | .error _ => fs

end TableStore.FileSystem
