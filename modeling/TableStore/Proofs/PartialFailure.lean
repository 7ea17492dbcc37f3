import TableStore.Proofs.Loads

/-!
Commands to a database in files that fail. A command that could be performed may still fail when
the registry is saved after it, and what it did to its table stays. All other failures change
nothing.
-/

namespace TableStore

variable {root : Path} {e e' : Engine FileStorage}

/-! ## Plans -/

namespace Plan

/-- What the documents load as after a plan, if it can be carried out. -/
def loadsAfter (l : Loads) : Plan → Except Error Loads
  | answer _ | scan _ _ => .ok l
  | visit table next => do
    let loaded ← l.table table
    let (_, write) ← next loaded.value
    return l.putIf table write
  | create schema | drop schema => .ok (l.put schema.name [])

/-- A plan that is carried out has its effect on what the documents load as. -/
theorem loads_onEngine (p : Plan) (hl : e.source.storage.layout = .underRoot root) :
    Ensures p.onEngine e
      (fun _ e' => e'.source.storage.layout = .underRoot root ∧
        p.loadsAfter (Storage.loads e.source.storage) = .ok (Storage.loads e'.source.storage))
      fun _ _ => True := by
  have hload (table : String) :=
    ensures_of_finalState (FileStorage.finalState_loadTable table e.source.storage)
  cases p with
  | answer reply => exact ⟨hl, rfl⟩
  | scan key reply =>
      refine ensures_bind (Engine.ensures_scanTable (fun _ _ => ⟨hl, rfl⟩) ?_ fun _ _ _ _ => trivial)
      intro loaded s _ h
      cases (hload key.table).ok h
      exact ⟨hl, rfl⟩
  | visit table next =>
      refine ensures_bind (Engine.ensures_loadPast ?_ fun _ _ _ => trivial)
      intro loaded s h
      cases (hload table).ok h
      have ht : (Storage.loads e.source.storage).table table = .ok loaded := outcome_of_ok h
      refine ensures_bind (ensures_ofExcept ?_ fun _ _ => trivial)
      intro found hn
      obtain ⟨reply, write⟩ := found
      simp only [loadsAfter, ht, bind, Except.bind, hn]
      cases write with
      | none => exact ⟨hl, rfl⟩
      | some rows =>
          refine ensures_bind (Engine.ensures_change ?_ fun _ _ _ => trivial)
          intro s hw
          obtain ⟨hl', hs⟩ := (FileStorage.loads_saveTable hl table rows).ok hw
          exact ⟨hl', congrArg Except.ok hs.symm⟩
  | create schema =>
      refine ensures_bind (Engine.ensures_change ?_ fun _ _ _ => trivial)
      intro s hw
      obtain ⟨hl', hs⟩ := (FileStorage.loads_saveTable hl schema.name []).ok hw
      exact ⟨hl', congrArg Except.ok hs.symm⟩
  | drop schema =>
      refine ensures_bind (Engine.ensures_change ?_ fun _ _ _ => trivial)
      intro s hw
      obtain ⟨hl', hs⟩ := (FileStorage.loads_removeTable hl schema.name).ok hw
      exact ⟨hl', congrArg Except.ok hs.symm⟩

end Plan

/-! ## Commands -/

namespace Command

/-- Whether a command that is performed changes what its table loads as. -/
def Alters (l : Loads) : Command → Prop
  | createTable table _ | dropTable table => l.table table ≠ .ok ⟨[], none⟩
  | insert _ _ => True
  | update table assignments filter => ∃ loaded, l.table table = .ok loaded ∧
      updatedRows assignments filter loaded.value ≠ loaded.value
  | delete table filter => ∃ loaded, l.table table = .ok loaded ∧ loaded.value.any (selects filter)
  | listTables | infoTable _ | select _ _ => False

/-- The command itself succeeds, whatever becomes of the registry after it. -/
def Performs (c : Command) (e : Engine FileStorage) : Prop :=
  ∃ r e₀ result e₁, Engine.loadRegistry e = .ok r e₀ ∧ run.holding c r e₀ = .ok result e₁

variable {c : Command} {l l' : Loads} {registry : Registry} {p : Plan}

theorem loadsAfter_visit {table : String} {next : Visit}
    (h : (Plan.visit table next).loadsAfter l = .ok l') :
    ∃ loaded reply write, l.table table = .ok loaded ∧ next loaded.value = .ok (reply, write) ∧
      l' = l.putIf table write := by
  obtain ⟨loaded, hl, h⟩ := exceptBind_eq_ok.mp h
  obtain ⟨⟨reply, write⟩, hn, h⟩ := exceptBind_eq_ok.mp h
  cases h
  exact ⟨loaded, reply, write, hl, hn, rfl⟩

theorem length_keptRows {filter : Option Predicate} {rows : List Row}
    (h : rows.any (selects filter)) : (keptRows filter rows).length < rows.length := by
  obtain ⟨r, hr, hs⟩ := List.any_eq_true.mp h
  exact List.length_filter_lt_length_iff_exists.mpr ⟨r, hr, by simp [hs]⟩

section
variable {table : String} {assignments : SetClause} {filter : Option Predicate}
  {loaded : Loaded (List Row)} {reply : Reply} {write : Option (List Row)}
  (hl : l.table table = .ok loaded)
include hl

theorem alters_update : (update table assignments filter).Alters l ↔
    updatedRows assignments filter loaded.value ≠ loaded.value := by
  simp only [Alters, hl, Except.ok.injEq, exists_eq_left']

theorem alters_delete :
    (delete table filter).Alters l ↔ loaded.value.any (selects filter) := by
  simp only [Alters, hl, Except.ok.injEq, exists_eq_left']

theorem insert_ne_self {s : Schema} {values : List Value}
    (hn : Visit.insert table s values loaded.value = .ok (reply, write)) :
    l.putIf table write ≠ l := by
  obtain ⟨id, -, hn⟩ := exceptBind_eq_ok.mp hn
  cases hn
  apply Loads.put_ne_self hl
  intro he
  have hlength := congrArg List.length he
  simp at hlength

theorem update_eq_self_iff (hc : loaded.corruption = none ∨ loaded.value = [])
    (hn : Visit.update assignments filter loaded.value = .ok (reply, write)) :
    l.putIf table write = l ↔ updatedRows assignments filter loaded.value = loaded.value := by
  rw [Visit.update] at hn
  by_cases hany : loaded.value.any (selects filter)
  · rw [if_pos hany] at hn
    cases hn
    apply Loads.put_eq_self_iff hl
    -- A damaged table has no rows, and so none that the filter lets through.
    apply hc.resolve_right
    intro hnil
    rw [hnil] at hany
    cases hany
  · rw [if_neg hany] at hn
    cases hn
    exact iff_of_true rfl (updatedRows_of_not_any hany)

theorem delete_eq_self_iff (hn : Visit.delete filter loaded.value = .ok (reply, write)) :
    l.putIf table write = l ↔ ¬ loaded.value.any (selects filter) := by
  rw [Visit.delete] at hn
  by_cases hany : loaded.value.any (selects filter)
  · rw [if_pos hany] at hn
    cases hn
    refine iff_of_false (Loads.put_ne_self hl fun he => ?_) fun hnot => hnot hany
    exact absurd (congrArg List.length he) (Nat.ne_of_lt (length_keptRows hany))
  · rw [if_neg hany] at hn
    cases hn
    exact iff_of_true rfl hany

end

/-- What a command that is performed changes: its own table, if anything. -/
theorem alters_of_planned (hp : Planned registry c p) (h : p.loadsAfter l = .ok l')
    (hc : ∀ t loaded, l.table t = .ok loaded → loaded.corruption = none ∨ loaded.value = []) :
    l'.registry = l.registry ∧ (∀ t, c.table? ≠ some t → l'.table t = l.table t) ∧
      (l' = l ↔ ¬ c.Alters l) := by
  cases hp with
  | listTables | select _ _ =>
      cases h
      exact ⟨rfl, fun _ _ => rfl, iff_of_true rfl id⟩
  | createTable _ hdefined =>
      cases h
      cases Schema.define_name hdefined
      exact ⟨rfl, fun _ => Loads.table_put_of_ne,
        (Loads.put_eq_self _ _ _).trans Classical.not_not.symm⟩
  | dropTable hfound =>
      cases h
      cases Registry.schema_name hfound
      exact ⟨rfl, fun _ => Loads.table_put_of_ne,
        (Loads.put_eq_self _ _ _).trans Classical.not_not.symm⟩
  | infoTable _ =>
      obtain ⟨loaded, reply, write, -, hn, rfl⟩ := loadsAfter_visit h
      cases hn
      exact ⟨rfl, fun _ _ => rfl, iff_of_true rfl id⟩
  | insert _ _ =>
      obtain ⟨loaded, reply, write, hl, hn, rfl⟩ := loadsAfter_visit h
      exact ⟨l.registry_putIf _ _, fun _ => Loads.table_putIf_of_ne,
        iff_of_false (insert_ne_self hl hn) fun hnot => hnot trivial⟩
  | update _ _ _ =>
      obtain ⟨loaded, reply, write, hl, hn, rfl⟩ := loadsAfter_visit h
      refine ⟨l.registry_putIf _ _, fun _ => Loads.table_putIf_of_ne, ?_⟩
      rw [update_eq_self_iff hl (hc _ _ hl) hn, alters_update hl, Classical.not_not]
  | delete _ _ =>
      obtain ⟨loaded, reply, write, hl, hn, rfl⟩ := loadsAfter_visit h
      refine ⟨l.registry_putIf _ _, fun _ => Loads.table_putIf_of_ne, ?_⟩
      rw [delete_eq_self_iff hl hn, alters_delete hl]

/-! ## Runs -/

theorem storage_loadRegistry (e : Engine FileStorage) :
    Ensures Engine.loadRegistry e (fun _ e' => e'.source.storage = e.source.storage)
      fun _ e' => e'.source.storage = e.source.storage := by
  have hload := ensures_of_finalState (FileStorage.finalState_loadRegistry e.source.storage)
  exact Engine.ensures_loadPast (fun _ _ h => hload.ok h) fun _ _ h => hload.error h

theorem loadRegistry_eq_ok {s : FileStorage} {loaded : Loaded Registry}
    (h : Storage.loadRegistry e.source.storage = .ok loaded s) :
    Engine.loadRegistry e = .ok loaded.value ((e.withStorage s).withReport loaded.corruption) := by
  refine Ensures.eq_ok (Engine.ensures_loadPast ?_ ?_)
  · intro loaded' s' h'
    cases h.symm.trans h'
    exact ⟨rfl, rfl⟩
  · intro err s' h'
    cases h.symm.trans h'

theorem loads_holding (c : Command) (r : Registry)
    (hl : e.source.storage.layout = .underRoot root) :
    Ensures (run.holding c r) e
      (fun _ e' => e'.source.storage.layout = .underRoot root ∧ ∃ p, c.plan r = .ok p ∧
        p.loadsAfter (Storage.loads e.source.storage) = .ok (Storage.loads e'.source.storage))
      fun _ e' => Storage.loads e'.source.storage = Storage.loads e.source.storage := by
  rw [holding_eq]
  refine ensures_bind (ensures_ofExcept ?_ fun _ _ => rfl)
  intro p hp
  refine ensures_bind (ensures_of_cases ?_ ?_)
  · intro reply e' h
    obtain ⟨hl', hafter⟩ := (p.loads_onEngine hl).ok h
    exact ⟨hl', p, hp, hafter⟩
  · intro err e' h
    exact ((p.unchanged_of_error (FileStorage.failsCleanly root) e hl).error h).1.1

theorem run_eq_holding (c : Command) :
    c.run = (do
      let r ← Engine.loadRegistry
      let result ← run.holding c r
      if c.isMutating then
        Engine.saveRegistry result.2
        return result.1
      else return result.1 : EStateM Error (Engine FileStorage) Reply) := rfl

theorem loads_saving (hl : e.source.storage.layout = .underRoot root) (mutating : Bool)
    (result : Reply × Registry) :
    Ensures (if mutating then do
        Engine.saveRegistry result.2
        return result.1
      else return result.1) e (fun _ _ => True)
      fun _ e' => Storage.loads e'.source.storage = Storage.loads e.source.storage := by
  cases mutating with
  | false => trivial
  | true =>
      exact ensures_bind (Engine.ensures_saveRegistry (fun _ _ => trivial) fun _ _ hw =>
        FileStorage.loads_saveRegistry_error hl hw)

/-- A run fails before the command is performed, and has changed nothing, or after it. -/
theorem loads_of_run_error {c : Command} (hl : e.source.storage.layout = .underRoot root)
    {err : Error} (h : c.run e = .error err e') :
    ¬ c.Performs e ∧ Storage.loads e'.source.storage = Storage.loads e.source.storage ∨
      c.Performs e ∧ ∃ r p, c.plan r = .ok p ∧
        p.loadsAfter (Storage.loads e.source.storage) = .ok (Storage.loads e'.source.storage) := by
  rw [run_eq_holding, bind_apply] at h
  have hregistry := storage_loadRegistry e
  cases hload : (Engine.loadRegistry e : EStateM.Result Error (Engine FileStorage) Registry) with
  | error err₀ e₀ =>
      rw [hload] at h
      cases h
      refine .inl ⟨?_, congrArg Storage.loads (hregistry.error hload)⟩
      intro hperforms
      obtain ⟨r, e₀, result, e₁, hl', -⟩ := hperforms
      cases hload.symm.trans hl'
  | ok r e₀ =>
      have hs : e₀.source.storage = e.source.storage := hregistry.ok hload
      have hholding := loads_holding (e := e₀) c r (by rw [hs]; exact hl)
      rw [hs] at hholding
      rw [hload] at h
      replace h := (bind_apply (run.holding c r) _ e₀).symm.trans h
      cases hrun : run.holding c r e₀ with
      | error err₁ e₁ =>
          rw [hrun] at h
          cases h
          refine .inl ⟨?_, hholding.error hrun⟩
          intro hperforms
          obtain ⟨r', e₀', result, e₁', hl', hrun'⟩ := hperforms
          cases hload.symm.trans hl'
          cases hrun.symm.trans hrun'
      | ok result e₁ =>
          rw [hrun] at h
          obtain ⟨hl₁, p, hp, hafter⟩ := hholding.ok hrun
          refine .inr ⟨⟨r, e₀, result, e₁, hload, hrun⟩, r, p, hp, ?_⟩
          rw [hafter, (loads_saving hl₁ c.isMutating result).error h]

/-- A command fails without having changed what the documents load as, unless it was performed
and altered its table, which is when the registry could not be saved after it. -/
theorem loads_of_failed_run {c : Command} (hl : e.source.storage.layout = .underRoot root)
    {err : Error} (h : c.run e = .error err e') :
    (Storage.loads e'.source.storage).registry = (Storage.loads e.source.storage).registry ∧
      (∀ t, c.table? ≠ some t →
        (Storage.loads e'.source.storage).table t = (Storage.loads e.source.storage).table t) ∧
      (Storage.loads e'.source.storage = Storage.loads e.source.storage ↔
        ¬ (c.Performs e ∧ c.Alters (Storage.loads e.source.storage))) := by
  obtain ⟨hfailed, hsame⟩ | ⟨hperforms, r, p, hp, hafter⟩ := loads_of_run_error hl h
  · rw [hsame]
    exact ⟨rfl, fun _ _ => rfl, iff_of_true rfl fun h => hfailed h.1⟩
  · obtain ⟨hr, ht, halters⟩ := alters_of_planned (planned hp) hafter
      fun _ _ => FileStorage.value_of_corruption
    refine ⟨hr, ht, halters.trans (not_congr ?_)⟩
    exact ⟨fun h => ⟨hperforms, h⟩, fun h => h.2⟩

/-! The registry of a database with one table cannot be saved, because there is a directory in
the place of its draft. -/

def oneTable : Registry := .insert .empty ⟨"t", [.id]⟩

def unsavableFiles : FileSystem where
  entries := .ofList [(["work"], .directory), (["data", "work"], .directory),
    (["db_meta.json", "work"], .file (Document.encode oneTable)),
    (["db_meta.json.tmp", "work"], .directory)]
  workingDirectory := ["work"]

def unsavable : Engine FileStorage := .create true (FileStorage.under ⟨""⟩ unsavableFiles)

/-- The row is saved, then the registry is not. -/
def filesAfterInsertion : FileSystem :=
  unsavableFiles.set ["t.json", "data", "work"] (.file (Document.encode [Row.withId 1]))

def unsavableAfterInsertion : Engine FileStorage where
  cache := unsavable.cache.invalidate
  source := ⟨FileStorage.under ⟨""⟩ filesAfterInsertion, []⟩

theorem run_insert_unsavable :
    (insert "t" []).run unsavable =
      .error (.storageWrite ⟨"db_meta.json.tmp"⟩ .isDirectory) unsavableAfterInsertion := by
  have hread : unsavableFiles.registryBytes ⟨""⟩ = .ok (Document.encode oneTable) := rfl
  have hload : Engine.loadRegistry unsavable = _ :=
    loadRegistry_eq_ok (FileStorage.loadRegistry_encode hread)
  rw [run_eq_holding, bind_apply, hload]
  rfl

/-- The insertion fails, and its table has changed. -/
theorem insert_unsavable_changes :
    (insert "t" []).run unsavable =
        .error (.storageWrite ⟨"db_meta.json.tmp"⟩ .isDirectory) unsavableAfterInsertion ∧
      (Storage.loads unsavable.source.storage).table "t" = .ok ⟨[], none⟩ ∧
      (Storage.loads unsavableAfterInsertion.source.storage).table "t" =
        .ok ⟨[Row.withId 1], none⟩ := by
  have hi : Text.isIdentifier "t" := by decide
  have hbefore : unsavableFiles.tableBytes ⟨""⟩ "t" = .error .missing := rfl
  have hafter : filesAfterInsertion.tableBytes ⟨""⟩ "t" =
      .ok (Document.encode [Row.withId 1]) := rfl
  exact ⟨run_insert_unsavable, FileStorage.outcome_loadTable_missing hi hbefore,
    FileStorage.outcome_loadTable_encode hi hafter⟩

theorem loads_of_failed_run_unsavable :
    (insert "t" []).run unsavable =
        .error (.storageWrite ⟨"db_meta.json.tmp"⟩ .isDirectory) unsavableAfterInsertion ∧
      (Storage.loads unsavableAfterInsertion.source.storage).registry =
        (Storage.loads unsavable.source.storage).registry ∧
      (∀ t, (insert "t" []).table? ≠ some t →
        (Storage.loads unsavableAfterInsertion.source.storage).table t =
          (Storage.loads unsavable.source.storage).table t) ∧
      (Storage.loads unsavableAfterInsertion.source.storage =
          Storage.loads unsavable.source.storage ↔
        ¬ ((insert "t" []).Performs unsavable ∧
          (insert "t" []).Alters (Storage.loads unsavable.source.storage))) :=
  ⟨run_insert_unsavable, loads_of_failed_run rfl run_insert_unsavable⟩

end Command
end TableStore
