import TableStore.Binary64

/-!
The counters of a cache. They count modulo 2 ^ 64.
-/

namespace TableStore

structure CacheStats where
  /-- Look-ups, each of which is a hit or a miss. -/
  accesses : UInt64
  hits : UInt64
  misses : UInt64
  inserts : UInt64
  invalidations : UInt64
  deriving DecidableEq

namespace CacheStats

def zero : CacheStats := ⟨0, 0, 0, 0, 0⟩

def countLookup (s : CacheStats) (hit : Bool) : CacheStats :=
  if hit then { s with accesses := s.accesses + 1, hits := s.hits + 1 }
  else { s with accesses := s.accesses + 1, misses := s.misses + 1 }

def countInsert (s : CacheStats) : CacheStats := { s with inserts := s.inserts + 1 }

def countInvalidation (s : CacheStats) : CacheStats :=
  { s with invalidations := s.invalidations + 1 }

section
variable (s : CacheStats) (hit : Bool)

@[simp] theorem accesses_countLookup : (s.countLookup hit).accesses = s.accesses + 1 := by
  cases hit <;> rfl

@[simp] theorem hits_countLookup :
    (s.countLookup hit).hits = s.hits + .ofNat hit.toNat := by
  cases hit with
  | false => exact (UInt64.add_zero s.hits).symm
  | true => rfl

@[simp] theorem misses_countLookup :
    (s.countLookup hit).misses = s.misses + .ofNat (!hit).toNat := by
  cases hit with
  | false => rfl
  | true => exact (UInt64.add_zero s.misses).symm

@[simp] theorem inserts_countLookup : (s.countLookup hit).inserts = s.inserts := by
  cases hit <;> rfl

@[simp] theorem invalidations_countLookup :
    (s.countLookup hit).invalidations = s.invalidations := by
  cases hit <;> rfl

end

/-- The share of look-ups that were hits, and zero before the first. -/
def hitRatio (s : CacheStats) : Binary64 :=
  if s.accesses = 0 then ⟨0, 0⟩
  else (Binary64.ofNat s.hits.toNat).div (Binary64.ofNat s.accesses.toNat)

/-- The counters in words, with the hit ratio in per cent to one decimal. -/
def summary (s : CacheStats) : String :=
  s!"accesses={s.accesses.toNat} hits={s.hits.toNat} misses={s.misses.toNat} " ++
    s!"hit_ratio={(s.hitRatio.mulNat 100).oneDecimal}% " ++
    s!"inserts={s.inserts.toNat} invalidations={s.invalidations.toNat}"

end CacheStats
end TableStore
