import TableStore.Proofs.Requests
import TableStore.Proofs.Visit
import TableStore.Proofs.WellFormed

/-!
Updates from end to end: which error is reported, which rows are changed and how, and what is
written.
-/

namespace TableStore

/-! ## Updated rows -/

/-- The assigned columns are set, the others are as they were. Columns keep their places; those
that were missing come after them, in the order of the assignments. -/
structure Assigned (assignments : SetClause) (r r' : Row) : Prop where
  set : ∀ p ∈ assignments.entries, r'.get? p.1 = some p.2
  kept : ∀ c, c ∉ assignments.keys → r'.get? c = r.get? c
  names : r'.names = r.names ++ assignments.keys.filter (· ∉ r.names)

/-- A row is changed if the filter lets it through as it was before. -/
def Updated (assignments : SetClause) (filter : Option Predicate) (r r' : Row) : Prop :=
  if selects filter r then Assigned assignments r r' else r' = r

variable {assignments : SetClause} {filter : Option Predicate} {r r' : Row} {rows : List Row}

theorem assigned_insertAll : Assigned assignments r (r.insertAll assignments.entries) where
  set _ hp := KeyedList.get?_insertAll_of_pair_mem assignments.nodup hp
  kept _ hc := KeyedList.get?_insertAll_of_not_mem hc
  names := KeyedList.keys_insertAll assignments.nodup

/-- The assignments determine the row. -/
theorem Assigned.unique {r'' : Row} (h : Assigned assignments r r')
    (h' : Assigned assignments r r'') : r' = r'' := by
  refine congrArg Row.mk (KeyedList.ext_get? (h.names.trans h'.names.symm) fun c => ?_)
  by_cases hc : c ∈ assignments.keys
  · obtain ⟨p, hp, rfl⟩ := List.mem_map.mp hc
    exact (h.set p hp).trans (h'.set p hp).symm
  · exact (h.kept c hc).trans (h'.kept c hc).symm

theorem assigned_iff : Assigned assignments r r' ↔ r.insertAll assignments.entries = r' :=
  ⟨fun h => assigned_insertAll.unique h, fun h => h ▸ assigned_insertAll⟩

theorem forall₂_updated_iff {rows' : List Row} :
    List.Forall₂ (Updated assignments filter) rows rows' ↔
      updatedRows assignments filter rows = rows' := by
  have hrow : Updated assignments filter = fun r r' =>
      (if selects filter r then r.insertAll assignments.entries else r) = r' := by
    funext r r'
    rw [Updated]
    split
    · exact propext assigned_iff
    · exact propext eq_comm
  rw [hrow, updatedRows, ← List.forall₂_map_left_iff (R := Eq), List.forall₂_eq_eq_eq]

/-! ## Updates -/

/-- There are assignments, and nothing is wrong with any of them. -/
structure Assignable (table : String) (s : Schema) (assignments : SetClause) : Prop where
  nonempty : assignments.entries ≠ []
  right : ∀ p ∈ assignments.entries, ∀ e, ¬ WrongAssignment table s p e

/-- What an update of a table with these rows ends with, and the rows that it writes. -/
inductive Updating (registry : Registry) (table : String) (assignments : SetClause)
    (filter : Option Predicate) (rows : List Row) :
    Except Error Mutation → Option (List Row) → Prop where
  | tableNotFound (absent : registry.get? table = none) :
      Updating registry table assignments filter rows (.error (.tableNotFound table)) none
  | emptySetClause {s} (found : registry.get? table = some s)
      (empty : assignments.entries = []) :
      Updating registry table assignments filter rows (.error (.emptySetClause table)) none
  | wrongAssignment {s e} (found : registry.get? table = some s)
      (wrong : FirstWith (WrongAssignment table s) assignments.entries e) :
      Updating registry table assignments filter rows (.error e) none
  | wrongFilter {s e} (found : registry.get? table = some s)
      (assignable : Assignable table s assignments) (wrong : WrongFilter s filter e) :
      Updating registry table assignments filter rows (.error e) none
  | noMatch {s} (found : registry.get? table = some s)
      (assignable : Assignable table s assignments) (right : ∀ e, ¬ WrongFilter s filter e)
      (unmatched : ∀ r ∈ rows, ¬ selects filter r) :
      Updating registry table assignments filter rows (.ok .noMatch) none
  | applied {s rows'} (found : registry.get? table = some s)
      (assignable : Assignable table s assignments) (right : ∀ e, ¬ WrongFilter s filter e)
      (matched : ∃ r ∈ rows, selects filter r)
      (updated : List.Forall₂ (Updated assignments filter) rows rows') :
      Updating registry table assignments filter rows
        (.ok (.applied ((rows.filter (selects filter)).filterMap Row.id?))) (some rows')

/-- The result of an update whose request is in order, and the rows to write if any matches. -/
def updateRows (assignments : SetClause) (filter : Option Predicate) (rows : List Row) :
    Mutation × Option (List Row) :=
  if rows.any (selects filter) then
    (.applied (((rows.filter (selects filter)).map fun r =>
      r.insertAll assignments.entries).filterMap Row.id?), some (updatedRows assignments filter rows))
  else (.noMatch, none)

/-- The checks of an update, and what it does with the rows of its table. -/
def updating (registry : Registry) (table : String) (assignments : SetClause)
    (filter : Option Predicate) :
    Except Error (List Row → Except Error (Mutation × Option (List Row))) := do
  let schema ← registry.schema table
  checkAssignments table schema assignments
  checkFilter filter schema
  return fun rows => .ok (updateRows assignments filter rows)

variable {registry : Registry} {table : String} {s : Schema} {e : Error}

theorem assignable_iff :
    Assignable table s assignments ↔ checkAssignments table s assignments = .ok () :=
  ⟨fun h => checkAssignments_eq_ok.mpr ⟨h.nonempty, h.right⟩, fun h =>
    ⟨(checkAssignments_eq_ok.mp h).1, (checkAssignments_eq_ok.mp h).2⟩⟩

/-- The identity column cannot be assigned, whether the schema has one or not. -/
theorem Assignable.idColumn_not_mem (h : Assignable table s assignments) :
    idColumn ∉ assignments.entries.map Prod.fst := by
  intro hm
  obtain ⟨⟨_, v⟩, hp, rfl⟩ := List.mem_map.mp hm
  cases hc : s.column? idColumn with
  | none => exact h.right _ hp _ (.unknown hc)
  | some c => exact h.right _ hp _ (.readOnly hc)

theorem Assignable.updateRows_eq (h : Assignable table s assignments) :
    updateRows assignments filter rows =
      if rows.any (selects filter) then
        (.applied ((rows.filter (selects filter)).filterMap Row.id?),
          some (updatedRows assignments filter rows))
      else (.noMatch, none) := by
  have hids : (Row.id? ∘ fun r => r.insertAll assignments.entries) = Row.id? :=
    funext fun _ => Row.id?_insertAll h.idColumn_not_mem
  rw [updateRows, List.filterMap_map, hids]

/-- The contents after an update, whether there was something to write or not. -/
theorem Assignable.rows_updateRows (h : Assignable table s assignments)
    (filter : Option Predicate) (d : Contents) :
    ((updateRows assignments filter (d.rows table)).2.elim d (d.put table)).rows table =
      updatedRows assignments filter (d.rows table) := by
  rw [h.updateRows_eq]
  split
  · exact (d.rows_put table table _).trans (if_pos rfl)
  · next hnone => exact (updatedRows_of_not_any hnone).symm

theorem updating_eq_error :
    (updating registry table assignments filter >>= fun next => next rows) = .error e ↔
      registry.get? table = none ∧ e = .tableNotFound table ∨
        ∃ s, registry.get? table = some s ∧
          (checkAssignments table s assignments = .error e ∨
            checkAssignments table s assignments = .ok () ∧ checkFilter filter s = .error e) := by
  simp only [updating, bind_assoc, pure_bind]
  rw [exceptBind_eq_error, Registry.schema_eq_error]
  simp only [Registry.schema_eq_ok, exceptThen_eq_error, reduceCtorEq, and_false, or_false]

theorem updating_eq_ok {result : Mutation × Option (List Row)} :
    (updating registry table assignments filter >>= fun next => next rows) = .ok result ↔
      ∃ s, registry.get? table = some s ∧ checkAssignments table s assignments = .ok () ∧
        checkFilter filter s = .ok () ∧ updateRows assignments filter rows = result := by
  simp only [updating, bind_assoc, pure_bind]
  rw [exceptBind_eq_ok]
  simp only [Registry.schema_eq_ok, exceptThen_eq_ok, Except.ok.injEq]

/-- The relation is the graph of what is decided. -/
theorem updating_iff {out : Except Error Mutation} {write : Option (List Row)} :
    let decided := updating registry table assignments filter >>= fun next => next rows
    Updating registry table assignments filter rows out write ↔
      out = decided.map Prod.fst ∧ write = written decided := by
  intro decided
  constructor
  · intro h
    cases h with
    | tableNotFound absent => exact ends_of_error (updating_eq_error.mpr (.inl ⟨absent, rfl⟩))
    | emptySetClause found empty =>
        refine ends_of_error (updating_eq_error.mpr (.inr ⟨_, found, .inl ?_⟩))
        exact checkAssignments_eq_error.mpr (.inl ⟨empty, rfl⟩)
    | wrongAssignment found wrong =>
        refine ends_of_error (updating_eq_error.mpr (.inr ⟨_, found, .inl ?_⟩))
        exact checkAssignments_eq_error.mpr (.inr wrong)
    | wrongFilter found assignable wrong =>
        refine ends_of_error (updating_eq_error.mpr (.inr ⟨_, found, .inr ⟨?_, ?_⟩⟩))
        · exact assignable_iff.mp assignable
        · exact checkFilter_eq_error.mpr wrong
    | noMatch found assignable right unmatched =>
        have hnone : ¬ rows.any (selects filter) := by simpa using unmatched
        have hrows : updateRows assignments filter rows = (.noMatch, none) := if_neg hnone
        exact ends_of_ok (updating_eq_ok.mpr
          ⟨_, found, assignable_iff.mp assignable, checkFilter_eq_ok.mpr right, hrows⟩)
    | applied found assignable right matched updated =>
        have hany : rows.any (selects filter) := List.any_eq_true.mpr matched
        have hrows : updateRows assignments filter rows = _ := assignable.updateRows_eq
        rw [if_pos hany, forall₂_updated_iff.mp updated] at hrows
        exact ends_of_ok (updating_eq_ok.mpr
          ⟨_, found, assignable_iff.mp assignable, checkFilter_eq_ok.mpr right, hrows⟩)
  · rintro ⟨rfl, rfl⟩
    cases hd : decided with
    | error e =>
        obtain ⟨absent, rfl⟩ | ⟨s, found, ha | ⟨ha, hf⟩⟩ := updating_eq_error.mp hd
        · exact .tableNotFound absent
        · obtain ⟨empty, rfl⟩ | wrong := checkAssignments_eq_error.mp ha
          · exact .emptySetClause found empty
          · exact .wrongAssignment found wrong
        · exact .wrongFilter found (assignable_iff.mpr ha) (checkFilter_eq_error.mp hf)
    | ok result =>
        obtain ⟨s, found, ha, hf, rfl⟩ := updating_eq_ok.mp hd
        have assignable := assignable_iff.mpr ha
        have right := checkFilter_eq_ok.mp hf
        rw [assignable.updateRows_eq]
        by_cases hany : rows.any (selects filter)
        · rw [if_pos hany]
          exact .applied found assignable right (List.any_eq_true.mp hany)
            (forall₂_updated_iff.mpr rfl)
        · rw [if_neg hany]
          exact .noMatch found assignable right (by simpa using hany)

/-- No update changes what is in the identity column of any row. -/
theorem Updating.identities {out : Except Error Mutation} {rows' : List Row}
    (h : Updating registry table assignments filter rows out (some rows')) :
    rows'.map (·.get? idColumn) = rows.map (·.get? idColumn) := by
  cases h with
  | applied found assignable right matched updated =>
      rw [← forall₂_updated_iff.mp updated, updatedRows, List.map_map]
      refine List.map_congr_left fun r _ => ?_
      simp only [Function.comp_apply]
      split
      · exact KeyedList.get?_insertAll_of_not_mem assignable.idColumn_not_mem
      · rfl

namespace Engine

variable {σ : Type} [Storage σ]

theorem update_eq_visit (registry : Registry) (table : String) (assignments : SetClause)
    (filter : Option Predicate) :
    update registry table assignments filter =
      (visit table (updating registry table assignments filter) :
        EStateM Error (Engine σ) Mutation) := by
  simp only [update, visit, updating, ofExcept_bind, ofExcept_pure, bind_assoc, pure_bind,
    ofExcept_ok]
  congr; funext schema; congr; funext _; congr; funext _; congr; funext rows
  rw [updateRows]
  split
  · simp only [change, saveRows, bind_assoc]
    rfl
  · rfl

/-- An update from end to end. Unless a call of the storage fails, what it ends with and what it
writes are what the request, the schema of the table and its rows say, and nothing else is
possible. The schema and the rows may be any. If nothing is written, the cache is as before. -/
theorem update_exact {holds : σ → Contents → Prop} {failed : σ → Prop}
    (law : Storage.Follows holds failed) {d : Contents} {e : Engine σ}
    (hd : holds e.source.storage d)
    (succeeds : ¬ failed (finalState (update registry table assignments filter e)).source.storage) :
    let run := update registry table assignments filter e
    ∃ write, Leaves holds d table e (finalState run) write ∧
      (∀ out write', Updating registry table assignments filter (d.rows table) out write' ↔
        out = outcome run ∧ write' = write) ∧
      ∀ rows', write = some rows' →
        rows'.map (·.get? idColumn) = (d.rows table).map (·.get? idColumn) := by
  rw [update_eq_visit] at succeeds ⊢
  obtain ⟨hout, hleaves⟩ := (visit_decided law hd).resolve_right succeeds
  refine ⟨_, hleaves, ?_, ?_⟩
  · intro out write'
    rw [hout]
    exact updating_iff
  · intro rows' hw
    exact (updating_iff.mpr ⟨hout, hw.symm⟩).identities

/-- A table without an identity column, one of whose columns occurs twice, and rows that lack some
of the columns. -/
def looseTable : MemoryStorage :=
  { MemoryStorage.empty with
    registry := .insert .empty ⟨"t", [⟨"n", .integer⟩, ⟨"s", .text⟩, ⟨"n", .text⟩]⟩
    tables := .ofList [("t", [.ofPairs [("n", .integer 1)], .ofPairs [("s", .text "a")],
      .ofPairs [("s", .text "a"), (idColumn, .integer 4), ("n", .integer 1)]])] }

/-- The assignments change the column that the filter looks at. -/
theorem update_exact_looseTable :
    let e := Engine.create true looseTable
    let assignments : SetClause := .ofList [("n", .integer 2), ("s", .text "b")]
    let filter := some ⟨"n", .integer 1⟩
    let run := update looseTable.registry "t" assignments filter e
    outcome run = .ok (.applied [4]) ∧
      ∃ write, Leaves (fun m d => m.contents = d) looseTable.contents "t" e (finalState run) write ∧
        (∀ out write',
          Updating looseTable.registry "t" assignments filter (looseTable.contents.rows "t") out
            write' ↔ out = outcome run ∧ write' = write) ∧
        ∀ rows', write = some rows' → rows'.map (·.get? idColumn) =
          (looseTable.contents.rows "t").map (·.get? idColumn) :=
  ⟨by decide, update_exact MemoryStorage.follows rfl id⟩

end Engine
end TableStore
