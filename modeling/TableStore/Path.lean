/-!
File paths. A path keeps the text it was written as, and messages show that text. Two
paths are the same if they agree up to repeated and trailing slashes and up to `.` segments
other than a leading one; a `..` segment counts.
-/

namespace TableStore

structure Path where
  text : String
  deriving DecidableEq

namespace Path

/-- Where a path starts: at the root, at a leading `.`, or at its first name. -/
inductive Anchor where
  | root
  | here
  | plain
  deriving DecidableEq

/-- The segments between slashes, empty ones included. -/
def splitSlashes : List Char → List (List Char)
  | [] => [[]]
  | c :: cs =>
    if c = '/' then [] :: splitSlashes cs
    else match splitSlashes cs with
      | [] => [[c]]
      | segment :: rest => (c :: segment) :: rest

def segments (p : Path) : List String := (splitSlashes p.text.toList).map String.ofList

def parts (p : Path) : Anchor × List String :=
  match p.segments with
  | "" :: rest => if rest.isEmpty then (.plain, []) else (.root, rest)
  | "." :: rest => (.here, rest)
  | segments => (.plain, segments)

def ofParts (anchor : Anchor) (body : List String) : Path :=
  match anchor with
  | .root => ⟨"/" ++ "/".intercalate body⟩
  | .here => ⟨"/".intercalate ("." :: body)⟩
  | .plain => ⟨"/".intercalate body⟩

/-- Whether a segment names a file or the directory above; the others stay where they are. -/
def isStep (segment : String) : Bool := segment != "" && segment != "."

def steps (p : Path) : List String := p.parts.2.filter isStep

def same (p q : Path) : Bool := p.parts.1 = q.parts.1 && p.steps = q.steps

/-- The bodies of the paths above, the nearest first. All bodies here have their last segment
first. -/
def parentBodies : List String → List (List String)
  | [] => []
  | segment :: rest =>
    if isStep segment then rest.dropWhile (!isStep ·) :: parentBodies rest
    else parentBodies rest

/-- The path without its last step, or without a leading `.` if that is all; the root and the
empty path have none. -/
def parent? (p : Path) : Option Path :=
  match parentBodies p.parts.2.reverse, p.parts.1 with
  | body :: _, anchor => some (ofParts anchor body.reverse)
  | [], .here => some ⟨""⟩
  | [], _ => none

def join (directory : Path) (name : String) : Path :=
  if directory.text = "" || directory.text.toList.getLast? = some '/' then
    ⟨directory.text ++ name⟩
  else ⟨directory.text ++ "/" ++ name⟩

/-- The path with a suffix added to its text as it stands. -/
def withSuffix (p : Path) (suffix : String) : Path := ⟨p.text ++ suffix⟩

end Path
end TableStore
