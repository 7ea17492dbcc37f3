import TableStore.Proofs.Contents
import TableStore.Proofs.Plan

/-!
Operations that fail change nothing: neither the registry that the caller holds, nor a
document, nor a cached scan. All that is asked of the storage is that its own failures change
no document.
-/

namespace TableStore

/-! ## What checks complain about -/

/-- Fails, if at all, for a reason that lies in the request. -/
def OnlyRefuses {α : Type} (x : Except Error α) : Prop := ∀ e, x = .error e → e.isValidation

namespace OnlyRefuses

variable {α β : Type} {x y : Except Error α}

theorem ok (a : α) : OnlyRefuses (.ok a) := fun _ h => nomatch h

theorem error {e : Error} (he : e.isValidation) : OnlyRefuses (.error e : Except Error α) := by
  intro _ h
  cases h
  exact he

theorem bind {f : α → Except Error β} (hx : OnlyRefuses x) (hf : ∀ a, OnlyRefuses (f a)) :
    OnlyRefuses (x >>= f) := by
  intro e h
  cases x with
  | ok a => exact hf a e h
  | error err =>
      cases h
      exact hx e rfl

theorem map (hx : OnlyRefuses x) (f : α → β) : OnlyRefuses (x.map f) :=
  fun e h => hx e (exceptMap_eq_error.mp h)

theorem ite {p : Prop} [Decidable p] (hx : OnlyRefuses x) (hy : OnlyRefuses y) :
    OnlyRefuses (if p then x else y) := by
  by_cases hp : p
  · rw [if_pos hp]
    exact hx
  · rw [if_neg hp]
    exact hy

theorem forM {f : α → Except Error Unit} (hf : ∀ a, OnlyRefuses (f a)) (l : List α) :
    OnlyRefuses (l.forM f) := by
  induction l with
  | nil => exact ok ()
  | cons a l ih => exact (hf a).bind fun _ => ih

end OnlyRefuses

theorem Registry.onlyRefuses_schema (r : Registry) (table : String) :
    OnlyRefuses (r.schema table) := by
  rw [schema]
  cases r.get? table with
  | none => exact .error rfl
  | some s => exact .ok s

theorem Schema.onlyRefuses_columnType (s : Schema) (name : String) :
    OnlyRefuses (s.columnType name) := by
  rw [columnType]
  cases s.column? name with
  | none => exact .error rfl
  | some c => exact .ok c.type

theorem Schema.onlyRefuses_defineColumns (table : String) (taken : List String)
    (specs : List ColumnSpec) : OnlyRefuses (defineColumns table taken specs) := by
  induction specs generalizing taken with
  | nil => exact .ok []
  | cons spec rest ih =>
      rw [defineColumns]
      apply OnlyRefuses.ite (.error rfl)
      cases DataType.parse? spec.typeName with
      | none => exact .error rfl
      | some type => exact .ite (.error rfl) ((ih _).map _)

theorem Schema.onlyRefuses_define (table : String) (specs : List ColumnSpec) :
    OnlyRefuses (define table specs) :=
  .ite (.error rfl) ((onlyRefuses_defineColumns table _ specs).map _)

theorem onlyRefuses_checkFilter (filter : Option Predicate) (s : Schema) :
    OnlyRefuses (checkFilter filter s) := by
  cases filter with
  | none => exact .ok ()
  | some p => exact (s.onlyRefuses_columnType p.column).bind fun _ => .ite (.ok ()) (.error rfl)

theorem onlyRefuses_checkValues (table : String) (columns : List Column) (values : List Value) :
    OnlyRefuses (checkValues table columns values) :=
  .ite (.error rfl) (.forM (fun _ => .ite (.ok ()) (.error rfl)) _)

theorem onlyRefuses_checkAssignments (table : String) (s : Schema) (assignments : SetClause) :
    OnlyRefuses (checkAssignments table s assignments) := by
  apply OnlyRefuses.ite (.error rfl)
  apply OnlyRefuses.forM
  intro p
  exact (s.onlyRefuses_columnType p.1).bind fun _ => .ite (.error rfl) (.ite (.ok ()) (.error rfl))

theorem onlyRefuses_nextId (table : String) (rows : List Row) : OnlyRefuses (nextId table rows) := by
  rw [nextId]
  cases (rows.filterMap Row.id?).max? with
  | none => exact .ok firstRowId
  | some id => exact .ite (.error rfl) (.ok (id + 1))

/-- A request that is refused is refused for a reason of its own. -/
theorem Command.onlyRefuses_plan (c : Command) (r : Registry) : OnlyRefuses (c.plan r) := by
  cases c with
  | createTable table specs =>
      exact .ite (.error rfl) ((Schema.onlyRefuses_define table specs).map _)
  | dropTable table => exact (r.onlyRefuses_schema table).map _
  | listTables => exact .ok _
  | infoTable table => exact (r.onlyRefuses_schema table).bind fun _ => .ok _
  | insert table values =>
      refine (r.onlyRefuses_schema table).bind fun s => ?_
      exact (onlyRefuses_checkValues table s.dataColumns values).bind fun _ => .ok _
  | select table filter | delete table filter =>
      refine (r.onlyRefuses_schema table).bind fun s => ?_
      exact (onlyRefuses_checkFilter filter s).bind fun _ => .ok _
  | update table assignments filter =>
      refine (r.onlyRefuses_schema table).bind fun s => ?_
      refine (onlyRefuses_checkAssignments table s assignments).bind fun _ => ?_
      exact (onlyRefuses_checkFilter filter s).bind fun _ => .ok _

/-- A table that is read is refused for a reason of its own, too. -/
theorem Command.onlyRefuses_visit {c : Command} {r : Registry} {table : String} {visit : Visit}
    (h : c.plan r = .ok (.visit table visit)) (rows : List Row) : OnlyRefuses (visit rows) := by
  cases planned h with
  | infoTable _ => exact .ok _
  | insert _ _ => exact (onlyRefuses_nextId table rows).bind fun _ => .ok _
  | update _ _ _ | delete _ _ => exact .ite (.ok _) (.ok _)

/-! ## Failures -/

/-- In the states that are `sound`, a call that fails leaves the documents as they were, and so
does a load. -/
structure Storage.FailsCleanly {σ δ : Type} [Storage σ] (sound : σ → Prop) (docs : σ → δ) :
    Prop where
  loadTable : ∀ table s, sound s →
    sound (finalState (Storage.loadTable table s)) ∧
      docs (finalState (Storage.loadTable table s)) = docs s
  saveTable : ∀ table rows s e s', sound s → Storage.saveTable table rows s = .error e s' →
    docs s' = docs s
  removeTable : ∀ table s e s', sound s → Storage.removeTable table s = .error e s' →
    docs s' = docs s

theorem Storage.Follows.failsCleanly {σ : Type} [Storage σ] {docs : σ → Contents}
    {failed : σ → Prop} (law : Storage.Follows (fun s d => docs s = d) failed) :
    Storage.FailsCleanly (fun _ => True) docs where
  loadTable table s _ := by
    have h := law.loadTable table s _ rfl
    cases hl : Storage.loadTable table s with
    | ok loaded s' => exact ⟨trivial, (h.ok hl).2.1⟩
    | error e s' => exact ⟨trivial, (h.error hl).1⟩
  saveTable table rows s _ _ _ he := ((law.saveTable table rows s _ rfl).error he).1
  removeTable table s _ _ _ he := ((law.removeTable table s _ rfl).error he).1

/-- Some call that concerns a table fails with this error. -/
def Storage.Raises (σ : Type) [Storage σ] (e : Error) : Prop :=
  (∃ table, ∃ s s' : σ, Storage.loadTable table s = .error e s') ∨
  (∃ table rows, ∃ s s' : σ, Storage.saveTable table rows s = .error e s') ∨
  ∃ table, ∃ s s' : σ, Storage.removeTable table s = .error e s'

variable {σ δ : Type} [Storage σ] {sound : σ → Prop} {docs : σ → δ}

/-- The documents and the cached scans of two engines are the same. -/
def Engine.Unchanged (docs : σ → δ) (e e' : Engine σ) : Prop :=
  docs e'.source.storage = docs e.source.storage ∧ e'.cache.entries = e.cache.entries

/-- A plan that fails has changed nothing, and it fails because the storage does or because of
what it read. -/
theorem Plan.unchanged_of_error (law : Storage.FailsCleanly sound docs) (p : Plan) (e : Engine σ)
    (hs : sound e.source.storage) :
    Ensures p.onEngine e (fun _ _ => True) fun err e' => e.Unchanged docs e' ∧
      (Storage.Raises σ err ∨
        ∃ table visit rows, p = .visit table visit ∧ visit rows = .error err) := by
  cases p with
  | answer reply => trivial
  | scan key reply =>
      refine ensures_bind (Engine.ensures_scanTable (fun _ _ => trivial) (fun _ _ _ _ => trivial) ?_)
      intro err s _ hl
      have hd := law.loadTable key.table e.source.storage hs
      rw [hl] at hd
      exact ⟨⟨hd.2, rfl⟩, .inl (.inl ⟨_, _, _, hl⟩)⟩
  | visit table visit =>
      have hd := law.loadTable table e.source.storage hs
      refine ensures_bind (Engine.ensures_loadPast ?_ ?_)
      · intro loaded s hl
        rw [hl] at hd
        refine ensures_bind (ensures_ofExcept ?_ ?_)
        · intro found _
          obtain ⟨reply, write⟩ := found
          cases write with
          | none => trivial
          | some rows =>
              refine ensures_bind (Engine.ensures_change (fun _ _ => trivial) ?_)
              intro err s' hw
              exact ⟨⟨(law.saveTable _ _ _ _ _ hd.1 hw).trans hd.2, rfl⟩,
                .inl (.inr (.inl ⟨_, _, _, _, hw⟩))⟩
        · intro err hn
          exact ⟨⟨hd.2, rfl⟩, .inr ⟨_, _, _, rfl, hn⟩⟩
      · intro err s hl
        rw [hl] at hd
        exact ⟨⟨hd.2, rfl⟩, .inl (.inl ⟨_, _, _, hl⟩)⟩
  | create schema =>
      refine ensures_bind (Engine.ensures_change (fun _ _ => trivial) ?_)
      intro err s hw
      exact ⟨⟨law.saveTable _ _ _ _ _ hs hw, rfl⟩, .inl (.inr (.inl ⟨_, _, _, _, hw⟩))⟩
  | drop schema =>
      refine ensures_bind (Engine.ensures_change (fun _ _ => trivial) ?_)
      intro err s hw
      exact ⟨⟨law.removeTable _ _ _ _ hs hw, rfl⟩, .inl (.inr (.inr ⟨_, _, _, hw⟩))⟩

namespace Command

/-- A command that fails leaves the registry of its caller, the documents and the cached scans
as they were. No internal error is its own: the storage has failed with it. -/
theorem perform_atomic (law : Storage.FailsCleanly sound docs) (c : Command) {w w' : Workspace σ}
    {e : Error} (hs : sound w.engine.source.storage) (h : c.perform w = .error e w') :
    w'.registry = w.registry ∧
      docs w'.engine.source.storage = docs w.engine.source.storage ∧
      w'.engine.cache.entries = w.engine.cache.entries ∧
      ∀ message, e = .internal message → Storage.Raises σ e := by
  rw [perform_eq_follow, Workspace.follow] at h
  split at h
  · next hp =>
      cases h
      refine ⟨rfl, rfl, rfl, ?_⟩
      intro message hm
      cases hm
      cases c.onlyRefuses_plan w.registry _ hp
  · next p hp =>
      split at h
      · cases h
      · next he =>
          cases h
          obtain ⟨⟨hd, hc⟩, hr⟩ := (p.unchanged_of_error law w.engine hs).error he
          refine ⟨rfl, hd, hc, ?_⟩
          intro message hm
          cases hm
          obtain hr | ⟨table, visit, rows, rfl, hv⟩ := hr
          · exact hr
          · cases onlyRefuses_visit hp rows _ hv

/-- An insertion that can load its table and not save it. -/
def blockedInsertion : Workspace (Faulty MemoryStorage) :=
  ⟨Registry.empty.insert ⟨"t", [.id]⟩,
    ⟨(ScanCache.create true).keep ⟨"t", none⟩ [Row.withId 1],
      ⟨⟨⟨.empty, KeyedList.empty.insert "t" [Row.withId 1], 0, 0, 0, 0⟩,
        [none, some (.storageWrite ⟨"t.json"⟩ .busy)]⟩, []⟩⟩⟩

theorem perform_atomic_blockedInsertion :
    ∃ w', (insert "t" []).perform blockedInsertion = .error (.storageWrite ⟨"t.json"⟩ .busy) w' ∧
      w'.registry = blockedInsertion.registry ∧
      w'.engine.source.storage.storage.contents =
        blockedInsertion.engine.source.storage.storage.contents ∧
      w'.engine.cache.entries = blockedInsertion.engine.cache.entries := by
  refine ⟨_, rfl, ?_⟩
  obtain ⟨hr, hd, hc, -⟩ := perform_atomic (Faulty.follows MemoryStorage.follows).failsCleanly
    (insert "t" []) (w := blockedInsertion) trivial rfl
  exact ⟨hr, hd, hc⟩

end Command
end TableStore
