import TableStore.Proofs.Requests
import TableStore.Proofs.Visit
import TableStore.Proofs.WellFormed

/-!
Insertions from end to end: which error is reported, which identity a new row gets, and which
rows are written.
-/

namespace TableStore

/-! ## New identities -/

/-- One more than the largest identity, as integers and so without wrapping around, and 1 if there
is none. -/
inductive Successor (ids : List Int64) (id : Int64) : Prop where
  | first (none : ids = []) (one : id = 1)
  | next {largest : Int64} (mem : largest ∈ ids) (bound : ∀ i ∈ ids, i ≤ largest)
      (succ : id.toInt = largest.toInt + 1)

theorem Int64.le_maxValue (i : Int64) : i ≤ Int64.maxValue := by
  have hmax : Int64.maxValue.toInt = 2 ^ 63 - 1 := rfl
  have hlt := i.toInt_lt
  rw [Int64.le_iff_toInt_le]
  omega

variable {table : String} {rows : List Row} {id : Int64} {e : Error}

theorem nextId_eq_error :
    nextId table rows = .error e ↔
      Int64.maxValue ∈ rows.filterMap Row.id? ∧ e = .idExhausted table Int64.maxValue := by
  rw [nextId]
  cases hm : (rows.filterMap Row.id?).max? with
  | none => simp [List.max?_eq_none_iff.mp hm]
  | some m =>
      obtain ⟨hmem, hle⟩ := List.max?_eq_some_iff.mp hm
      by_cases h : m = Int64.maxValue
      · subst h
        simp [hmem, eq_comm]
      · have hnot : Int64.maxValue ∉ rows.filterMap Row.id? := fun hmax =>
          h (Int64.le_antisymm m.le_maxValue (hle _ hmax))
        simp only [if_neg h, reduceCtorEq, hnot, false_and]

theorem nextId_eq_ok : nextId table rows = .ok id ↔ Successor (rows.filterMap Row.id?) id := by
  rw [nextId]
  constructor
  · intro h
    split at h
    · next hm =>
        cases h
        exact .first (List.max?_eq_none_iff.mp hm) rfl
    · next m hm =>
        obtain ⟨hmem, hle⟩ := List.max?_eq_some_iff.mp hm
        split at h
        · cases h
        · next hne =>
            cases h
            exact .next hmem hle (Int64.toInt_add_one hne)
  · intro h
    cases h with
    | first none one =>
        subst one
        rw [none]
        rfl
    | @next m mem bound succ =>
        have hne : m ≠ Int64.maxValue := by
          rintro rfl
          have hmax : Int64.maxValue.toInt = 2 ^ 63 - 1 := rfl
          have hlt := id.toInt_lt
          omega
        rw [List.max?_eq_some_iff.mpr ⟨mem, bound⟩]
        simp only [if_neg hne, Except.ok.injEq]
        exact Int64.toInt_inj.mp ((Int64.toInt_add_one hne).trans succ.symm)

theorem Successor.lt {ids : List Int64} (h : Successor ids id) : ∀ i ∈ ids, i < id := by
  cases h with
  | first none one =>
      rw [none]
      nofun
  | next mem bound succ =>
      intro i hi
      have hle := Int64.le_iff_toInt_le.mp (bound i hi)
      rw [Int64.lt_iff_toInt_lt]
      omega

/-! ## Insertions -/

/-- There are as many values as data columns, and each has the type of its column. -/
structure Accepts (s : Schema) (values : List Value) : Prop where
  arity : values.length = s.dataColumns.length
  types : ∀ p ∈ s.dataColumns.zip values, p.2.dataType = p.1.type

/-- What an insertion into a table with these rows ends with, and the rows that it writes. -/
inductive Inserting (registry : Registry) (table : String) (values : List Value)
    (rows : List Row) : Except Error Int64 → Option (List Row) → Prop where
  | tableNotFound (absent : registry.get? table = none) :
      Inserting registry table values rows (.error (.tableNotFound table)) none
  | arityMismatch {s} (found : registry.get? table = some s)
      (arity : values.length ≠ s.dataColumns.length) :
      Inserting registry table values rows
        (.error (.arityMismatch table s.dataColumns.length values.length)) none
  | typeMismatch {s e} (found : registry.get? table = some s)
      (arity : values.length = s.dataColumns.length)
      (wrong : FirstWith (WrongValue table) (s.dataColumns.zip values) e) :
      Inserting registry table values rows (.error e) none
  | idExhausted {s} (found : registry.get? table = some s) (accepted : Accepts s values)
      (taken : Int64.maxValue ∈ rows.filterMap Row.id?) :
      Inserting registry table values rows (.error (.idExhausted table Int64.maxValue)) none
  | inserted {s id row} (found : registry.get? table = some s) (accepted : Accepts s values)
      (new : Successor (rows.filterMap Row.id?) id)
      (columns : row.columns.entries =
        (idColumn, .integer id) :: (s.dataColumns.map Column.name).zip values) :
      Inserting registry table values rows (.ok id) (some (rows ++ [row]))

/-- The checks of an insertion, and what it does with the rows of its table. -/
def insertion (registry : Registry) (table : String) (values : List Value) :
    Except Error (List Row → Except Error (Int64 × Option (List Row))) := do
  let schema ← registry.schema table
  checkValues table schema.dataColumns values
  return fun rows => do
    let id ← nextId table rows
    return (id, some (rows ++ [newRow id schema.dataColumns values]))

variable {registry : Registry} {values : List Value}

theorem accepts_iff {s : Schema} :
    Accepts s values ↔ checkValues table s.dataColumns values = .ok () := by
  simp only [checkValues_eq_ok, Value.conformsTo_iff]
  exact ⟨fun h => ⟨h.arity, h.types⟩, fun h => ⟨h.1, h.2⟩⟩

theorem insertion_apply (registry : Registry) (table : String) (values : List Value)
    (rows : List Row) :
    (insertion registry table values >>= fun next => next rows) = (do
      let s ← registry.schema table
      checkValues table s.dataColumns values
      let id ← nextId table rows
      return (id, some (rows ++ [newRow id s.dataColumns values]))) := by
  simp only [insertion, bind_assoc, pure_bind]

theorem insertion_eq_error :
    (insertion registry table values >>= fun next => next rows) = .error e ↔
      registry.get? table = none ∧ e = .tableNotFound table ∨
        ∃ s, registry.get? table = some s ∧
          (checkValues table s.dataColumns values = .error e ∨
            checkValues table s.dataColumns values = .ok () ∧ nextId table rows = .error e) := by
  rw [insertion_apply, exceptBind_eq_error, Registry.schema_eq_error]
  simp only [Registry.schema_eq_ok, exceptThen_eq_error]
  simp [exceptBind_eq_error, pure, Except.pure]

theorem insertion_eq_ok {write : Option (List Row)} :
    (insertion registry table values >>= fun next => next rows) = .ok (id, write) ↔
      ∃ s, registry.get? table = some s ∧ checkValues table s.dataColumns values = .ok () ∧
        nextId table rows = .ok id ∧
        some (rows ++ [newRow id s.dataColumns values]) = write := by
  rw [insertion_apply, exceptBind_eq_ok]
  simp only [Registry.schema_eq_ok, exceptThen_eq_ok]
  simp [exceptBind_eq_ok, pure, Except.pure]

/-- The relation is the graph of what is decided. -/
theorem inserting_iff
    (fresh : ∀ s, registry.get? table = some s → idColumn ∉ s.dataColumns.map Column.name)
    (distinct : ∀ s, registry.get? table = some s → (s.dataColumns.map Column.name).Nodup)
    {out : Except Error Int64} {write : Option (List Row)} :
    let decided := insertion registry table values >>= fun next => next rows
    Inserting registry table values rows out write ↔
      out = decided.map Prod.fst ∧ write = written decided := by
  intro decided
  constructor
  · intro h
    cases h with
    | tableNotFound absent => exact ends_of_error (insertion_eq_error.mpr (.inl ⟨absent, rfl⟩))
    | arityMismatch found arity =>
        refine ends_of_error (insertion_eq_error.mpr (.inr ⟨_, found, .inl ?_⟩))
        exact checkValues_eq_error.mpr (.inl ⟨arity, rfl⟩)
    | typeMismatch found arity wrong =>
        refine ends_of_error (insertion_eq_error.mpr (.inr ⟨_, found, .inl ?_⟩))
        exact checkValues_eq_error.mpr (.inr ⟨arity, wrong⟩)
    | idExhausted found accepted taken =>
        refine ends_of_error (insertion_eq_error.mpr (.inr ⟨_, found, .inr ⟨?_, ?_⟩⟩))
        · exact accepts_iff.mp accepted
        · exact nextId_eq_error.mpr ⟨taken, rfl⟩
    | @inserted s id row found accepted new columns =>
        have hrow : newRow id s.dataColumns values = row := congrArg Row.mk (KeyedList.ext
          ((columns_newRow (fresh s found) (distinct s found) accepted.arity).trans columns.symm))
        exact ends_of_ok (insertion_eq_ok.mpr
          ⟨s, found, accepts_iff.mp accepted, nextId_eq_ok.mpr new, by rw [hrow]⟩)
  · rintro ⟨rfl, rfl⟩
    cases hd : decided with
    | error e =>
        obtain ⟨absent, rfl⟩ | ⟨s, found, hv | ⟨hv, hid⟩⟩ := insertion_eq_error.mp hd
        · exact .tableNotFound absent
        · obtain ⟨arity, rfl⟩ | ⟨arity, wrong⟩ := checkValues_eq_error.mp hv
          · exact .arityMismatch found arity
          · exact .typeMismatch found arity wrong
        · obtain ⟨taken, rfl⟩ := nextId_eq_error.mp hid
          exact .idExhausted found (accepts_iff.mpr hv) taken
    | ok result =>
        obtain ⟨s, found, hv, hid, hw⟩ := insertion_eq_ok.mp hd
        have accepted := accepts_iff.mpr hv
        rw [written, ← hw]
        exact .inserted found accepted (nextId_eq_ok.mp hid)
          (columns_newRow (fresh s found) (distinct s found) accepted.arity)

namespace Engine

variable {σ : Type} [Storage σ]

theorem insert_eq_visit (registry : Registry) (table : String) (values : List Value) :
    insert registry table values =
      (visit table (insertion registry table values) : EStateM Error (Engine σ) Int64) := by
  simp only [insert, visit, insertion, ofExcept_bind, ofExcept_pure, bind_assoc, pure_bind, change,
    saveRows]

/-- An insertion from end to end. Unless a call of the storage fails, what it ends with and what
it writes are what the request, the schema of the table and its rows say, and nothing else is
possible. The rows that are there may be any; a new identity is above all that they have. -/
theorem insert_exact {holds : σ → Contents → Prop} {failed : σ → Prop}
    (law : Storage.Follows holds failed) {d : Contents} {e : Engine σ}
    (hd : holds e.source.storage d)
    (fresh : ∀ s, registry.get? table = some s → idColumn ∉ s.dataColumns.map Column.name)
    (distinct : ∀ s, registry.get? table = some s → (s.dataColumns.map Column.name).Nodup)
    (succeeds : ¬ failed (finalState (insert registry table values e)).source.storage) :
    let run := insert registry table values e
    ∃ write, Leaves holds d table e (finalState run) write ∧
      (∀ out write', Inserting registry table values (d.rows table) out write' ↔
        out = outcome run ∧ write' = write) ∧
      ∀ id, outcome run = .ok id → ∀ i ∈ (d.rows table).filterMap Row.id?, i < id := by
  rw [insert_eq_visit] at succeeds ⊢
  obtain ⟨hout, hleaves⟩ := (visit_decided law hd).resolve_right succeeds
  refine ⟨_, hleaves, ?_, ?_⟩
  · intro out write'
    rw [hout]
    exact inserting_iff fresh distinct
  · intro id hid
    obtain ⟨⟨_, write⟩, hd, rfl⟩ := exceptMap_eq_ok.mp (hout.symm.trans hid)
    obtain ⟨s, -, -, hid, -⟩ := insertion_eq_ok.mp hd
    exact (nextId_eq_ok.mp hid).lt

/-- A table with a negative identity that occurs twice, and rows without one. -/
def strayRows : List Row :=
  [.withId (-3), .empty, .ofPairs [(idColumn, .text "7")], .withId (-3)]

def strayTable : MemoryStorage :=
  { MemoryStorage.empty with
    registry := .insert .empty ⟨"t", [.id, ⟨"note", .text⟩]⟩
    tables := .ofList [("t", strayRows)] }

theorem insert_exact_strayTable :
    let e := Engine.create true strayTable
    let run := insert strayTable.registry "t" [.text "b"] e
    outcome run = .ok (-2) ∧
      ∃ write, Leaves (fun m d => m.contents = d) strayTable.contents "t" e (finalState run) write ∧
        (∀ out write', Inserting strayTable.registry "t" [.text "b"] strayRows out write' ↔
          out = outcome run ∧ write' = write) ∧
        ∀ id, outcome run = .ok id → ∀ i ∈ strayRows.filterMap Row.id?, i < id := by
  have hs : strayTable.registry.get? "t" = some ⟨"t", [.id, ⟨"note", .text⟩]⟩ := by decide
  refine ⟨by decide, insert_exact MemoryStorage.follows rfl ?_ ?_ id⟩
  · intro s h
    cases hs.symm.trans h
    decide
  · intro s h
    cases hs.symm.trans h
    decide

end Engine
end TableStore
