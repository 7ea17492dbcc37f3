import TableStore.Proofs.Loads

/-!
What is read of the files under a root, whatever wrote them: hand-made documents, damaged ones and
such as cannot be opened are allowed. A storage in files follows what is read of it.
-/

namespace TableStore.FileStorage

variable {root : Path} {s s' : FileStorage} {d : Contents} {table : String}

/-- Every document under the root that loads, loads as what the contents have. -/
structure Reads (root : Path) (s : FileStorage) (d : Contents) : Prop where
  layout : s.layout = .underRoot root
  registry : ∀ l, (Storage.loads s).registry = .ok l → l.value = d.registry
  tables : ∀ t l, (Storage.loads s).table t = .ok l → l.value = d.rows t

theorem exists_value {α : Type} (blank : α) (x : Except Error (Loaded α)) :
    ∃ a, ∀ l, x = .ok l → l.value = a := by
  cases x with
  | ok l =>
      refine ⟨l.value, fun l' h => ?_⟩
      cases h
      rfl
  | error e => exact ⟨blank, nofun⟩

/-- Something is read of any files. -/
theorem exists_reads (hl : s.layout = .underRoot root) : ∃ d, Reads root s d := by
  obtain ⟨r, hr⟩ := exists_value .empty (Storage.loads s).registry
  choose rows hrows using fun t => exists_value [] ((Storage.loads s).table t)
  exact ⟨⟨r, fun t => some (rows t)⟩, hl, hr, hrows⟩

theorem Reads.of_loads (h : Reads root s d) (hl : s'.layout = .underRoot root)
    (hs : Storage.loads s' = Storage.loads s) : Reads root s' d := by
  refine ⟨hl, ?_, ?_⟩
  · rw [hs]
    exact h.registry
  · rw [hs]
    exact h.tables

theorem Reads.of_put (h : Reads root s d) {rows : List Row} {d' : Contents}
    (hl : s'.layout = .underRoot root) (hs : Storage.loads s' = (Storage.loads s).put table rows)
    (hr : d'.registry = d.registry) (hd : ∀ t, d'.rows t = if t = table then rows else d.rows t) :
    Reads root s' d' := by
  refine ⟨hl, ?_, fun t l ht => ?_⟩
  · rw [hs, hr]
    exact h.registry
  · rw [hs, Loads.table_put] at ht
    rw [hd]
    split at ht
    · next he =>
        cases ht
        rw [if_pos he]
    · next hne =>
        rw [if_neg hne]
        exact h.tables t l ht

theorem Reads.turns_load {α : Type} {act : EStateM Error FileStorage (Loaded α)} {a : α}
    (h : Reads root s d) (hs : finalState (act s) = s)
    (hv : ∀ l, outcome (act s) = .ok l → l.value = a) :
    Storage.Turns (Reads root) (fun _ => True) act s d d fun loaded => loaded.value = a := by
  refine ensures_of_cases ?_ ?_
  · intro l s' hl
    have hstate : s' = s := by rwa [hl] at hs
    rw [hstate]
    exact ⟨hv l (outcome_of_ok hl), h, id⟩
  · intro e s' he
    have hstate : s' = s := by rwa [he] at hs
    rw [hstate]
    exact ⟨h, trivial⟩

/-- A storage in files does to what is read of it what contents do by themselves, or fails. -/
theorem reads_follows (root : Path) : Storage.Follows (Reads root) fun _ => True where
  loadRegistry s d h := h.turns_load (finalState_loadRegistry s) h.registry
  saveRegistry r s d h := by
    obtain ⟨l, fs⟩ := s
    cases h.layout
    refine (ensures_saveRegistry r).mono ?_ ?_
    · intro _ s' hpost
      obtain ⟨fs', rfl, -, hr, same⟩ := hpost
      refine ⟨trivial, ⟨rfl, fun l hl => ?_, fun t l hl => ?_⟩, id⟩
      · cases (outcome_of_ok (loadRegistry_encode hr)).symm.trans hl
        rfl
      · exact h.tables t l ((sameLoads same t).symm.trans hl)
    · intro _ s' hpost
      obtain ⟨fs', rfl, -, hr, same⟩ := hpost
      exact ⟨h.of_loads rfl (loads_of_same hr same), trivial⟩
  loadTable table s d h := h.turns_load (finalState_loadTable table s) (h.tables table)
  saveTable table rows s d h := by
    refine (loads_saveTable h.layout table rows).mono ?_ ?_
    · intro _ s' hpost
      exact ⟨trivial, h.of_put hpost.1 hpost.2 rfl fun t => d.rows_put table t rows, id⟩
    · intro _ s' hpost
      exact ⟨h.of_loads hpost.1 hpost.2, trivial⟩
  removeTable table s d h := by
    refine (loads_removeTable h.layout table).mono ?_ ?_
    · intro _ s' hpost
      exact ⟨trivial, h.of_put hpost.1 hpost.2 rfl fun t => d.rows_remove table t, id⟩
    · intro _ s' hpost
      exact ⟨h.of_loads hpost.1 hpost.2, trivial⟩

end TableStore.FileStorage
