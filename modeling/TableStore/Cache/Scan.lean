import TableStore.Cache.Stats
import TableStore.KeyedList

/-!
A cache of loaded values. What a read loads is kept under the fingerprint of the read until
everything is dropped at once; a value that is kept is never replaced.
-/

namespace TableStore

structure Fingerprint where
  table : String
  filter : Option String
  deriving DecidableEq

namespace Fingerprint

def text (f : Fingerprint) : String :=
  match f.filter with
  | none => f.table
  | some filter => f.table ++ "[" ++ filter ++ "]"

end Fingerprint

/-- A cache of values. One that retains nothing looks up and counts all the same. -/
structure ScanCache (ν : Type) where
  retains : Bool
  entries : KeyedList Fingerprint ν
  stats : CacheStats

namespace ScanCache

variable {ν ε σ : Type}

def create (retains : Bool) : ScanCache ν := ⟨retains, .empty, .zero⟩

/-- Looks a value up, without counting. -/
def peek (c : ScanCache ν) (key : Fingerprint) : Option ν := c.entries.get? key

def contains (c : ScanCache ν) (key : Fingerprint) : Bool := c.entries.contains key

def size (c : ScanCache ν) : Nat := c.entries.length

def isEmpty (c : ScanCache ν) : Bool := c.entries.isEmpty

def get (c : ScanCache ν) (key : Fingerprint) : Option ν × ScanCache ν :=
  (c.peek key, { c with stats := c.stats.countLookup (c.peek key).isSome })

def keep (c : ScanCache ν) (key : Fingerprint) (value : ν) : ScanCache ν :=
  if c.retains then
    { c with entries := c.entries.insert key value, stats := c.stats.countInsert }
  else c

def invalidate (c : ScanCache ν) : ScanCache ν :=
  { c with entries := .empty, stats := c.stats.countInvalidation }

/-- The value of a key, loaded if it is not there. A failed load keeps nothing. -/
def getOrLoad (key : Fingerprint) (load : EStateM ε σ ν) : EStateM ε (ScanCache ν × σ) ν :=
  fun (cache, s) =>
    match cache.get key with
    | (some value, cache) => .ok value (cache, s)
    | (none, cache) =>
      match load s with
      | .ok value s => .ok value (cache.keep key value, s)
      | .error e s => .error e (cache, s)

end ScanCache
end TableStore
