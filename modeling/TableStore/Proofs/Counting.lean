import TableStore.Cache.Stats

/-!
Counters and what they count. A counter stands for a number if it is that number modulo 2 ^ 64,
and of a history it counts the entries that have a property.
-/

namespace TableStore

theorem add_one_eq_ofNat {counter : UInt64} {n : Nat} (h : counter = .ofNat n) :
    counter + 1 = .ofNat (n + 1) := by
  rw [h, UInt64.ofNat_add]
  rfl

theorem countP_cons_toNat {α : Type} (p : α → Bool) (a : α) (l : List α) :
    (a :: l).countP p = l.countP p + (p a).toNat := by
  rw [List.countP_cons]
  cases p a <;> rfl

namespace CacheStats

/-- Every look-up is a hit or a miss. -/
theorem outcomes_countLookup {s : CacheStats} (h : s.accesses = s.hits + s.misses) (hit : Bool) :
    (s.countLookup hit).accesses = (s.countLookup hit).hits + (s.countLookup hit).misses := by
  rw [accesses_countLookup, hits_countLookup, misses_countLookup, h]
  cases hit with
  | false =>
      change s.hits + s.misses + 1 = s.hits + 0 + (s.misses + 1)
      rw [UInt64.add_zero, UInt64.add_assoc]
  | true =>
      change s.hits + s.misses + 1 = s.hits + 1 + (s.misses + 0)
      rw [UInt64.add_zero, UInt64.add_assoc, UInt64.add_assoc, UInt64.add_comm 1]

end CacheStats
end TableStore
