/-!
Tables in TOML. A table is written under a header, inside braces, or in parts by dotted keys,
and how it was begun decides what may still be added to it.
-/

namespace TableStore

inductive Toml.Origin where
  /-- By a header of its own. -/
  | header
  /-- By the header of a table inside it. -/
  | implied
  /-- By a dotted key. -/
  | dotted
  /-- In braces, which completes it. -/
  | inline
  deriving DecidableEq

inductive Toml where
  | text (s : String)
  | boolean (b : Bool)
  | number
  | moment
  | array (items : List Toml)
  | table (origin : Toml.Origin) (members : List (String × Toml))
  /-- An array of tables with headers of their own, of which the last is still open. -/
  | tables (earlier : List Toml) (last : List (String × Toml))

namespace Toml

abbrev Members := List (String × Toml)

def find? (key : String) (ms : Members) : Option Toml := (ms.find? fun m => m.1 = key).map (·.2)

def put (key : String) (value : Toml) (ms : Members) : Members :=
  if (find? key ms).isSome then ms.map fun m => if m.1 = key then (key, value) else m
  else ms ++ [(key, value)]

/-- Changes the table at a path of keys below a table of the given origin. Tables that are not
there are begun, and of an array of tables the last is meant. A dotted key (`dotted`) does not
reach into a table that has a header, and nothing reaches into braces. -/
def under (dotted : Bool) : List String → (Origin → Members → Option Members) →
    Origin → Members → Option Members
  | [], change, origin, ms => change origin ms
  | key :: path, change, _, ms =>
    let origin := if dotted then .dotted else .implied
    match find? key ms with
    | none => (under dotted path change origin []).map fun inner => put key (.table origin inner) ms
    | some (.table origin inner) =>
      if origin = .inline ∨ (dotted ∧ origin = .header) then none
      else (under dotted path change origin inner).map fun inner => put key (.table origin inner) ms
    | some (.tables earlier last) =>
      (under dotted path change .header last).map fun last => put key (.tables earlier last) ms
    | some _ => none

/-- Sets a dotted key, of which `above` are all parts but the last. No key is set twice, and
the table that it is set in was begun by a dotted key exactly if there are parts above. -/
def assign (above : List String) (key : String) (value : Toml) (ms : Members) : Option Members :=
  under true above (fun origin ms =>
    if decide (origin = .dotted) = above.isEmpty ∨ (find? key ms).isSome then none
    else some (put key value ms)) .header ms

/-- A dotted key, split before its last part, with its value. -/
structure Assignment where
  above : List String
  key : String
  value : Toml

def assignAll (ms : Members) (assignments : List Assignment) : Option Members :=
  assignments.foldlM (fun ms a => assign a.above a.key a.value ms) ms

/-- The header of a table, or of the next table in an array of tables. -/
structure Header where
  repeats : Bool
  above : List String
  key : String

/-- Adds the table with a header to a document. A table has one header at most; one that was
only implied gets it now. -/
def addSection (ms : Members) (header : Header) (assignments : List Assignment) :
    Option Members :=
  under false header.above (fun _ ms => do
    match header.repeats, find? header.key ms with
    | false, none =>
      let inner ← assignAll [] assignments
      return put header.key (.table .header inner) ms
    | false, some (.table .implied inner) =>
      let inner ← assignAll inner assignments
      return put header.key (.table .header inner) ms
    | true, none =>
      let last ← assignAll [] assignments
      return put header.key (.tables [] last) ms
    | true, some (.tables earlier last) =>
      let next ← assignAll [] assignments
      return put header.key (.tables (earlier ++ [.table .header last]) next) ms
    | _, _ => none) .header ms

end Toml
end TableStore
