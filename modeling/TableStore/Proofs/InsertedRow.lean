import TableStore.Proofs.Insertion

/-!
The row that an insertion adds, against what the insertion reports. The schema may be any that a
document holds: its columns may repeat, and the identity column may be among the data columns. The
row is the reported one unless values compete for a column or all identities are negative.
-/

namespace TableStore

/-! ## New rows -/

/-- The row has the identity that its insertion reports, and under the name of every data column
the value given for it. -/
structure Reported (s : Schema) (values : List Value) (id : Int64) (row : Row) : Prop where
  identity : row.id? = some id
  stored : ∀ p ∈ s.dataColumns.zip values, row.get? p.1.name = some p.2

/-- No two values compete for a column: neither two of the request, nor one of them and the new
identity. -/
structure Compatible (s : Schema) (values : List Value) (id : Int64) : Prop where
  identity : ∀ p ∈ s.dataColumns.zip values, p.1.name = idColumn → p.2 = .integer id
  repeated : ∀ p ∈ s.dataColumns.zip values, ∀ q ∈ s.dataColumns.zip values,
    p.1.name = q.1.name → p.2 = q.2

variable {s : Schema} {values : List Value} {id : Int64}

theorem Row.id?_eq_some {r : Row} : r.id? = some id ↔ r.get? idColumn = some (.integer id) := by
  rw [id?]
  cases r.get? idColumn with
  | none => simp
  | some v => cases v <;> simp [Value.asInteger?]

theorem Successor.not_mem {ids : List Int64} (h : Successor ids id) : id ∉ ids :=
  fun hm => Int64.lt_irrefl (h.lt id hm)

/-- A new identity is positive unless there are identities and all of them are negative. -/
theorem Successor.positive_iff {ids : List Int64} (h : Successor ids id) :
    firstRowId ≤ id ↔ ids = [] ∨ ∃ i ∈ ids, 0 ≤ i := by
  have hone : firstRowId.toInt = 1 := rfl
  have hzero : (0 : Int64).toInt = 0 := rfl
  simp only [Int64.le_iff_toInt_le, hone, hzero]
  cases h with
  | first none one =>
      subst one
      exact iff_of_true (Int.le_refl 1) (.inl none)
  | @next largest mem bound succ =>
      constructor
      · intro hid
        exact .inr ⟨largest, mem, by omega⟩
      · rintro (hnone | ⟨i, hi, hpos⟩)
        · rw [hnone] at mem
          cases mem
        · have hle := Int64.le_iff_toInt_le.mp (bound i hi)
          omega

theorem mem_pairs {p : String × Value} :
    p ∈ (s.dataColumns.map Column.name).zip values ↔
      ∃ q ∈ s.dataColumns.zip values, q.1.name = p.1 ∧ q.2 = p.2 := by
  rw [List.zip_map_left, List.mem_map]
  simp [Prod.ext_iff]

/-- Under the name of a data column, a new row has one of the values that are given for it. -/
theorem get?_newRow_of_mem {p : Column × Value} (hp : p ∈ s.dataColumns.zip values) :
    ∃ q ∈ s.dataColumns.zip values, q.1.name = p.1.name ∧
      (newRow id s.dataColumns values).get? p.1.name = some q.2 := by
  have hkey : p.1.name ∈ ((s.dataColumns.map Column.name).zip values).map Prod.fst :=
    List.mem_map.mpr ⟨(p.1.name, p.2), mem_pairs.mpr ⟨p, hp, rfl, rfl⟩, rfl⟩
  obtain ⟨v, hv, hget⟩ := KeyedList.get?_insertAll_of_mem hkey
  obtain ⟨q, hq, hname, rfl⟩ := mem_pairs.mp hv
  exact ⟨q, hq, hname, hget⟩

/-- If no value is given for the identity column, it has the new identity. -/
theorem get?_idColumn_newRow (h : ∀ p ∈ s.dataColumns.zip values, p.1.name ≠ idColumn) :
    (newRow id s.dataColumns values).get? idColumn = some (.integer id) := by
  refine (KeyedList.get?_insertAll_of_not_mem ?_).trans rfl
  intro hm
  obtain ⟨p, hp, hname⟩ := List.mem_map.mp hm
  obtain ⟨q, hq, hq', -⟩ := mem_pairs.mp hp
  exact h q hq (hq'.trans hname)

theorem Compatible.get?_newRow (h : Compatible s values id) {p : Column × Value}
    (hp : p ∈ s.dataColumns.zip values) :
    (newRow id s.dataColumns values).get? p.1.name = some p.2 := by
  obtain ⟨q, hq, hname, hget⟩ := get?_newRow_of_mem hp
  rw [hget, h.repeated q hq p hp hname]

theorem Compatible.id?_newRow (h : Compatible s values id) :
    (newRow id s.dataColumns values).id? = some id := by
  rw [Row.id?_eq_some]
  by_cases hid : ∃ p ∈ s.dataColumns.zip values, p.1.name = idColumn
  · obtain ⟨p, hp, hname⟩ := hid
    rw [← hname, h.get?_newRow hp, h.identity p hp hname]
  · exact get?_idColumn_newRow fun p hp hname => hid ⟨p, hp, hname⟩

/-- In a schema as definitions make it, no values compete for a column. -/
theorem Schema.WellFormed.compatible (h : s.WellFormed)
    (arity : values.length = s.dataColumns.length) : Compatible s values id where
  identity p hp hname := by
    have hcolumn : p.1 ∈ s.dataColumns := (List.of_mem_zip (a := p.1) (b := p.2) hp).1
    exact absurd (List.mem_map.mpr ⟨p.1, hcolumn, hname⟩) h.fresh
  repeated p hp q hq hname := by
    have hcolumns : (s.dataColumns.zip values).map Prod.fst = s.dataColumns :=
      List.map_fst_zip (by omega)
    have hnames : ((s.dataColumns.zip values).map fun p => p.1.name).Nodup := by
      have hdistinct := h.distinct
      rwa [← hcolumns, List.map_map] at hdistinct
    rw [List.inj_on_of_nodup_map hnames hp hq hname]

/-- The row that an insertion adds is the reported one exactly if nothing competes for a column. -/
theorem reported_newRow :
    Reported s values id (newRow id s.dataColumns values) ↔ Compatible s values id := by
  constructor
  · intro h
    refine ⟨fun p hp hname => ?_, fun p hp q hq hname => ?_⟩
    · have hstored := h.stored p hp
      rw [hname, Row.id?_eq_some.mp h.identity] at hstored
      exact (Option.some.inj hstored).symm
    · have hstored := h.stored p hp
      rw [hname, h.stored q hq] at hstored
      exact (Option.some.inj hstored).symm
  · intro h
    exact ⟨h.id?_newRow, fun _ hp => h.get?_newRow hp⟩

namespace Engine

variable {σ : Type} [Storage σ] {holds : σ → Contents → Prop} {failed : σ → Prop}
  {registry : Registry} {table : String}

/-- What a successful insertion reports and what it stores, for any schema and any rows. No other
row has the new identity. The identity is positive unless there are identities and all of them are
negative; the new row is the reported one unless values compete for a column. -/
theorem insert_reported (law : Storage.Follows holds failed) {d : Contents} {e e' : Engine σ}
    (hd : holds e.source.storage d) (h : insert registry table values e = .ok id e') :
    let identities := (d.rows table).filterMap Row.id?
    ∃ s row, registry.get? table = some s ∧
      holds e'.source.storage (d.put table (d.rows table ++ [row])) ∧
      id ∉ identities ∧
      (firstRowId ≤ id ↔ identities = [] ∨ ∃ i ∈ identities, 0 ≤ i) ∧
      (Reported s values id row ↔ Compatible s values id) := by
  intro identities
  rw [insert_eq_visit] at h
  obtain ⟨⟨write, hdecided, hleaves⟩, -⟩ := (ensures_visit law hd).ok h
  obtain ⟨s, found, -, hid, rfl⟩ := insertion_eq_ok.mp hdecided
  have new := nextId_eq_ok.mp hid
  exact ⟨s, _, found, hleaves.1, new.not_mem, new.positive_iff, reported_newRow⟩

/-- A table whose identity column stands between two columns of one name. -/
def mixedTable : MemoryStorage :=
  { MemoryStorage.empty with
    registry := .insert .empty ⟨"t", [⟨"n", .integer⟩, .id, ⟨"n", .integer⟩]⟩
    tables := .ofList [("t", [.withId 4])] }

/-- The values agree where they compete. -/
theorem insert_reported_mixedTable :
    let e := Engine.create true mixedTable
    let run := insert mixedTable.registry "t" [.integer 6, .integer 5, .integer 6] e
    let identities := (mixedTable.contents.rows "t").filterMap Row.id?
    outcome run = .ok 5 ∧
      ∃ s row, mixedTable.registry.get? "t" = some s ∧
        (finalState run).source.storage.contents =
          mixedTable.contents.put "t" (mixedTable.contents.rows "t" ++ [row]) ∧
        5 ∉ identities ∧ (firstRowId ≤ 5 ↔ identities = [] ∨ ∃ i ∈ identities, 0 ≤ i) ∧
        (Reported s [.integer 6, .integer 5, .integer 6] 5 row ↔
          Compatible s [.integer 6, .integer 5, .integer 6] 5) := by
  have hrun : outcome (insert mixedTable.registry "t" [.integer 6, .integer 5, .integer 6]
      (Engine.create true mixedTable)) = .ok 5 := by decide
  exact ⟨hrun, insert_reported MemoryStorage.follows rfl (ok_of_outcome hrun)⟩

/-- The insertion reports the identity 5, but the row that it adds has the identity 7. -/
theorem insert_misreports :
    let e := Engine.create true mixedTable
    let run := insert mixedTable.registry "t" [.integer 6, .integer 7, .integer 6] e
    outcome run = .ok 5 ∧
      ((finalState run).source.storage.contents.rows "t").map Row.id? = [some 4, some 7] := by
  decide

end Engine
end TableStore
