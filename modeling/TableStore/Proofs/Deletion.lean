import TableStore.Proofs.CurrentScans
import TableStore.Proofs.Insertion

/-!
Deletions from end to end, and what selections and insertions find after them. A deletion takes
away the rows that a selection by its filter gives, and leaves every other row as it is.
-/

namespace TableStore

/-! ## Deleted rows -/

/-- The result of a deletion whose request is in order, and the rows to write if any matches. -/
def deleteRows (filter : Option Predicate) (rows : List Row) : Mutation × Option (List Row) :=
  if rows.any (selects filter) then
    (.applied ((rows.filter (selects filter)).filterMap Row.id?), some (keptRows filter rows))
  else (.noMatch, none)

/-- The checks of a deletion, and what it does with the rows of its table. -/
def deleting (registry : Registry) (table : String) (filter : Option Predicate) :
    Except Error (List Row → Except Error (Mutation × Option (List Row))) := do
  let schema ← registry.schema table
  checkFilter filter schema
  return fun rows => .ok (deleteRows filter rows)

variable {registry : Registry} {table : String} {filter : Option Predicate} {s : Schema}
  {rows : List Row}

theorem deleting_eq_ok {result : Mutation × Option (List Row)} :
    (deleting registry table filter >>= fun next => next rows) = .ok result ↔
      ∃ s, registry.get? table = some s ∧ (∀ err, ¬ WrongFilter s filter err) ∧
        deleteRows filter rows = result := by
  simp only [deleting, bind_assoc, pure_bind]
  rw [exceptBind_eq_ok]
  simp only [Registry.schema_eq_ok, exceptThen_eq_ok, checkFilter_eq_ok, Except.ok.injEq]

/-- Something matches exactly if something is selected. -/
theorem any_selects : rows.any (selects filter) ↔ rows.filter (selects filter) ≠ [] := by
  simp

theorem deleteRows_of_selected (h : rows.filter (selects filter) ≠ []) :
    deleteRows filter rows =
      (.applied ((rows.filter (selects filter)).filterMap Row.id?), some (keptRows filter rows)) :=
  if_pos (any_selects.mpr h)

theorem deleteRows_of_none (h : rows.filter (selects filter) = []) :
    deleteRows filter rows = (.noMatch, none) :=
  if_neg fun hany => any_selects.mp hany h

theorem filter_keptRows (filter other : Option Predicate) (rows : List Row) :
    (keptRows filter rows).filter (selects other) =
      (rows.filter (selects other)).filter (!selects filter ·) := by
  rw [keptRows, List.filter_filter, List.filter_filter]
  refine List.filter_congr fun r _ => ?_
  exact Bool.and_comm _ _

theorem filter_keptRows_self : (keptRows filter rows).filter (selects filter) = [] := by
  rw [keptRows, List.filter_filter]
  simp

theorem keptRows_of_none (h : rows.filter (selects filter) = []) : keptRows filter rows = rows := by
  refine List.filter_eq_self.mpr fun r hr => ?_
  have hnot := List.filter_eq_nil_iff.mp h r hr
  simpa using hnot

/-- Without a filter nothing is kept. -/
theorem keptRows_none : keptRows none rows = [] := by
  refine List.filter_eq_nil_iff.mpr fun r _ => ?_
  simp [selects]

theorem deleteRows_keptRows : deleteRows filter (keptRows filter rows) = (.noMatch, none) :=
  deleteRows_of_none filter_keptRows_self

/-- The contents after a deletion, whether there was something to write or not. -/
theorem rows_deleteRows (table : String) (filter : Option Predicate) (d : Contents) :
    ((deleteRows filter (d.rows table)).2.elim d (d.put table)).rows table =
      keptRows filter (d.rows table) := by
  by_cases h : (d.rows table).filter (selects filter) = []
  · rw [deleteRows_of_none h, keptRows_of_none h]
    rfl
  · rw [deleteRows_of_selected h]
    exact (d.rows_put table table _).trans (if_pos rfl)

namespace Engine

variable {σ : Type} [Storage σ] {holds : σ → Contents → Prop} {failed : σ → Prop}

theorem delete_eq_visit (registry : Registry) (table : String) (filter : Option Predicate) :
    delete registry table filter =
      (visit table (deleting registry table filter) : EStateM Error (Engine σ) Mutation) := by
  simp only [delete, visit, deleting, ofExcept_bind, ofExcept_pure, bind_assoc, pure_bind,
    ofExcept_ok]
  congr; funext schema; congr; funext _; congr; funext rows
  rw [deleteRows]
  split
  · simp only [change, saveRows, bind_assoc]
    rfl
  · rfl

/-- What is found once the rows that a filter lets through have been deleted. -/
structure Cleared (failed : σ → Prop) (registry : Registry) (table : String) (s : Schema)
    (filter : Option Predicate) (e e' : Engine σ) : Prop where
  selection : Yields failed (select registry table filter) e' []
  deletion : Yields failed (delete registry table filter) e' .noMatch
  /-- Other selections give what they gave before, without the deleted rows. -/
  others : ∀ other before, (∀ err, ¬ WrongFilter s other err) →
    outcome (select registry table other e) = .ok before →
      Yields failed (select registry table other) e' (before.filter (!selects filter ·))
  /-- Once all rows are gone, identities start again. -/
  restart : filter = none → ∀ values, Accepts s values →
    Yields failed (insert registry table values) e' firstRowId

theorem cleared (law : Storage.Follows holds failed) {d d' : Contents} {e e' : Engine σ}
    (h : e.Current holds d) (h' : e'.Current holds d')
    (hrows : d'.rows table = keptRows filter (d.rows table))
    (found : registry.get? table = some s) (valid : ∀ err, ¬ WrongFilter s filter err) :
    Cleared failed registry table s filter e e' where
  selection := by
    have hselect := (turns_select law h' found valid).yields
    rwa [hrows, filter_keptRows_self] at hselect
  deletion := by
    have hdeleted : deleteRows filter (d'.rows table) = (.noMatch, none) := by
      rw [hrows, deleteRows_keptRows]
    rw [delete_eq_visit]
    exact yields_visit law h'.held (deleting_eq_ok.mpr ⟨s, found, valid, hdeleted⟩)
  others other before hother hbefore := by
    have hselect := (turns_select law h' found hother).yields
    rw [hrows, filter_keptRows] at hselect
    have hvalue := (Ensures.ok (turns_select law h found hother) (ok_of_outcome hbefore)).1
    rwa [hvalue]
  restart hnone values accepted := by
    rw [insert_eq_visit]
    have hempty : d'.rows table = [] := by
      rw [hrows, hnone, keptRows_none]
    refine yields_visit law h'.held (insertion_eq_ok.mpr ⟨s, found, accepts_iff.mp accepted, ?_, rfl⟩)
    rw [hempty]
    rfl

/-- A deletion from end to end, after a selection by the same filter. The engine may have been
asked to do anything before, over a storage with any contents. Unless a call of the storage fails,
the deletion takes away exactly the rows that have been selected and reports their identities; if
there are none, it writes nothing and the cache is as before. -/
theorem delete_exact (law : Storage.Follows holds failed) {initial : σ} {d₀ : Contents}
    (hinitial : holds initial d₀) {e : Engine σ} (reached : e.Reached initial)
    (found : registry.get? table = some s) (valid : ∀ err, ¬ WrongFilter s filter err) :
    let selection := select registry table filter e
    let run := delete registry table filter (finalState selection)
    ¬ failed (finalState run).source.storage →
      ∃ d selected, holds e.source.storage d ∧
        selected = (d.rows table).filter (selects filter) ∧
        outcome selection = .ok selected ∧
        outcome run =
          .ok (if selected = [] then .noMatch else .applied (selected.filterMap Row.id?)) ∧
        Leaves holds d table (finalState selection) (finalState run)
          (if selected = [] then none else some ((d.rows table).filter (!selects filter ·))) ∧
        Cleared failed registry table s filter e (finalState run) := by
  intro selection run succeeds
  obtain ⟨d, hd⟩ := reached.current law hinitial
  have hselect := turns_select law hd found valid
  have hselected : (finalState selection).Current holds d := hselect.current
  have hrun : run = visit table (deleting registry table filter) (finalState selection) :=
    congrFun (delete_eq_visit registry table filter) _
  rw [hrun] at succeeds ⊢
  have hunfailed : ¬ failed (finalState selection).source.storage :=
    fun hf => succeeds (failed_visit law hselected.held hf)
  obtain ⟨hout, hleaves⟩ := (visit_decided law hselected.held).resolve_right succeeds
  rw [deleting_eq_ok.mpr ⟨s, found, valid, rfl⟩] at hout hleaves
  have hafter := cleared law hd (hleaves.current hselected) (rows_deleteRows table filter d) found valid
  refine ⟨d, _, hd.held, rfl, hselect.yields hunfailed, ?_, ?_, hafter⟩
  · rw [hout]
    split
    · next hnone => rw [deleteRows_of_none hnone]; rfl
    · next hsome => rw [deleteRows_of_selected hsome]; rfl
  · split
    · next hnone => rwa [deleteRows_of_none hnone] at hleaves
    · next hsome => rwa [deleteRows_of_selected hsome] at hleaves

/-- A table with a row that occurs twice, and one without an identity. -/
def repeatedTable : MemoryStorage :=
  { MemoryStorage.empty with
    registry := .insert .empty ⟨"t", [.id, ⟨"n", .integer⟩]⟩
    tables := .ofList [("t", [.ofPairs [(idColumn, .integer 4), ("n", .integer 1)],
      .ofPairs [("n", .integer 1)], .ofPairs [(idColumn, .integer (-3)), ("n", .integer 2)],
      .ofPairs [(idColumn, .integer 4), ("n", .integer 1)]])] }

/-- All rows have been selected before, so that the cache has a scan of the table. -/
def repeatedEngine : Engine MemoryStorage :=
  (finalState ((Command.select "t" none).perform
    ⟨repeatedTable.registry, .create true repeatedTable⟩)).engine

theorem delete_exact_repeatedTable :
    let registry := repeatedTable.registry
    let s : Schema := ⟨"t", [.id, ⟨"n", .integer⟩]⟩
    let filter := some ⟨"n", .integer 1⟩
    let selection := select registry "t" filter repeatedEngine
    let run := delete registry "t" filter (finalState selection)
    outcome run = .ok (.applied [4, 4]) ∧
      ∃ d selected, repeatedEngine.source.storage.contents = d ∧
        selected = (d.rows "t").filter (selects filter) ∧
        outcome selection = .ok selected ∧
        outcome run =
          .ok (if selected = [] then .noMatch else .applied (selected.filterMap Row.id?)) ∧
        Leaves (fun m d => m.contents = d) d "t" (finalState selection) (finalState run)
          (if selected = [] then none else some ((d.rows "t").filter (!selects filter ·))) ∧
        Cleared (fun _ => False) registry "t" s filter repeatedEngine (finalState run) := by
  have reached : repeatedEngine.Reached repeatedTable := .perform _ _ (.create true)
  have valid : checkFilter (some ⟨"n", .integer 1⟩) ⟨"t", [.id, ⟨"n", .integer⟩]⟩ = .ok () := by
    decide
  exact ⟨by decide, delete_exact MemoryStorage.follows rfl reached (by decide)
    (checkFilter_eq_ok.mp valid) id⟩

end Engine
end TableStore
