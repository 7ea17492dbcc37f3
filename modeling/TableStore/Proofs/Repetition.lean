import TableStore.Proofs.CurrentScans
import TableStore.Proofs.Readings
import TableStore.Proofs.Updating

/-!
Updates that are made twice. The second one finds the assigned columns as it would leave them, so
that it changes nothing; whether it matches the rows of the first one depends on what is assigned
to the column of the filter.
-/

namespace TableStore

variable {assignments : SetClause} {filter : Option Predicate} {r r' : Row} {rows : List Row}

/-! ## Rows -/

/-- The assignments give the column of the filter another value than the filter asks for. -/
def Deselects (assignments : SetClause) (filter : Option Predicate) : Prop :=
  ∃ p v, filter = some p ∧ (p.column, v) ∈ assignments.entries ∧ v ≠ p.value

/-- To assign the same once more changes nothing, and adds no column. -/
theorem Assigned.again (h : Assigned assignments r r') : Assigned assignments r' r' where
  set := h.set
  kept _ _ := rfl
  names := by
    have hnone : assignments.keys.filter (· ∉ r'.names) = [] := by
      refine List.filter_eq_nil_iff.mpr fun c hc => ?_
      rw [h.names]
      by_cases hr : c ∈ r.names
      · simp [hr]
      · simp [hr, hc]
    rw [hnone, List.append_nil]

theorem Assigned.selects_of_deselects (h : Assigned assignments r r')
    (hd : Deselects assignments filter) : selects filter r' = false := by
  obtain ⟨p, v, rfl, hv, hne⟩ := hd
  have hset : r'.get? p.column = some v := h.set _ hv
  rw [selects, Predicate.holds, hset]
  simpa using hne

/-- A row that has been selected is selected again, unless the assignments prevent it. -/
theorem Assigned.selects_of_selects (h : Assigned assignments r r')
    (hd : ¬ Deselects assignments filter) (hr : selects filter r) : selects filter r' := by
  cases filter with
  | none => rfl
  | some p =>
      rw [selects, Predicate.holds, decide_eq_true_iff] at hr ⊢
      by_cases hc : p.column ∈ assignments.keys
      · obtain ⟨⟨c, v⟩, hv, hc⟩ := List.mem_map.mp hc
        cases hc
        have hvalue : v = p.value := Classical.byContradiction fun hne => hd ⟨p, v, rfl, hv, hne⟩
        rw [← hvalue]
        exact h.set _ hv
      · rw [h.kept _ hc, hr]

/-- A row is updated once more as if nothing were assigned. -/
theorem Updated.again (h : Updated assignments filter r r') : Updated assignments filter r' r' := by
  rw [Updated] at h ⊢
  split at h
  · split
    · exact h.again
    · rfl
  · rw [h]
    split
    · contradiction
    · rfl

theorem Updated.selects_eq (h : Updated assignments filter r r')
    (hd : ¬ Deselects assignments filter) : selects filter r' = selects filter r := by
  rw [Updated] at h
  split at h
  · next hr => rw [hr, h.selects_of_selects hd hr]
  · rw [h]

theorem Updated.selects_of_deselects (h : Updated assignments filter r r')
    (hd : Deselects assignments filter) : selects filter r' = false := by
  rw [Updated] at h
  split at h
  · exact h.selects_of_deselects hd
  · next hr =>
      rw [h]
      exact Bool.eq_false_iff.mpr hr

theorem Updated.id?_eq (h : Updated assignments filter r r')
    (hid : idColumn ∉ assignments.keys) : r'.id? = r.id? := by
  rw [Updated] at h
  split at h
  · rw [Row.id?, h.kept _ hid, Row.id?]
  · rw [h]

/-! ## Tables -/

section
variable {rows' : List Row} (h : List.Forall₂ (Updated assignments filter) rows rows')
include h

theorem updatedRows_again : updatedRows assignments filter rows' = rows' := by
  refine forall₂_updated_iff.mp ?_
  induction h with
  | nil => exact .nil
  | cons hr _ ih => exact .cons hr.again ih

theorem any_selects_again (hd : ¬ Deselects assignments filter) :
    rows'.any (selects filter) = rows.any (selects filter) := by
  induction h with
  | nil => rfl
  | cons hr _ ih => rw [List.any_cons, List.any_cons, hr.selects_eq hd, ih]

theorem any_selects_of_deselects (hd : Deselects assignments filter) :
    rows'.any (selects filter) = false := by
  induction h with
  | nil => rfl
  | cons hr _ ih => rw [List.any_cons, hr.selects_of_deselects hd, ih, Bool.false_or]

theorem identities_again (hd : ¬ Deselects assignments filter) (hid : idColumn ∉ assignments.keys) :
    (rows'.filter (selects filter)).filterMap Row.id? =
      (rows.filter (selects filter)).filterMap Row.id? := by
  induction h with
  | nil => rfl
  | cons hr _ ih =>
      simp only [List.filter_cons, hr.selects_eq hd]
      split
      · simp only [List.filterMap_cons, hr.id?_eq hid, ih]
      · exact ih

end

theorem forall₂_updatedRows (assignments : SetClause) (filter : Option Predicate)
    (rows : List Row) :
    List.Forall₂ (Updated assignments filter) rows (updatedRows assignments filter rows) :=
  forall₂_updated_iff.mpr rfl

variable {registry : Registry} {table : String} {s : Schema} {m : Mutation}
  {write : Option (List Row)}

theorem updateRows_of_deselects (hd : Deselects assignments filter) (rows : List Row) :
    updateRows assignments filter (updatedRows assignments filter rows) = (.noMatch, none) := by
  have hnone := any_selects_of_deselects (forall₂_updatedRows assignments filter rows) hd
  exact if_neg (Bool.eq_false_iff.mp hnone)

theorem Assignable.updateRows_again (h : Assignable table s assignments)
    (hd : ¬ Deselects assignments filter) (rows : List Row) :
    updateRows assignments filter (updatedRows assignments filter rows) =
      updateRows assignments filter rows := by
  have hupdated := forall₂_updatedRows assignments filter rows
  rw [h.updateRows_eq, h.updateRows_eq, any_selects_again hupdated hd,
    identities_again hupdated hd h.idColumn_not_mem, updatedRows_again hupdated]

/-- What is decided when an update is made once more, on the rows that the first one has left. -/
theorem updating_again {d : Contents}
    (first : (updating registry table assignments filter >>= fun next => next (d.rows table)) =
      .ok (m, write)) :
    let rows := (write.elim d (d.put table)).rows table
    ∃ m' write', (updating registry table assignments filter >>= fun next => next rows) =
        .ok (m', write') ∧
      (Deselects assignments filter ∧ m' = .noMatch ∧ write' = none ∨
        ¬ Deselects assignments filter ∧ m' = m ∧ write' = write) := by
  obtain ⟨s, found, ha, hf, hfirst⟩ := updating_eq_ok.mp first
  have assignable := assignable_iff.mpr ha
  have hrows := assignable.rows_updateRows filter d
  rw [hfirst] at hrows
  simp only [hrows]
  by_cases hd : Deselects assignments filter
  · have hagain := updateRows_of_deselects hd (d.rows table)
    exact ⟨_, _, updating_eq_ok.mpr ⟨s, found, ha, hf, hagain⟩, .inl ⟨hd, rfl, rfl⟩⟩
  · have hagain := (assignable.updateRows_again hd (d.rows table)).trans hfirst
    exact ⟨_, _, updating_eq_ok.mpr ⟨s, found, ha, hf, hagain⟩, .inr ⟨hd, rfl, rfl⟩⟩

/-! ## Storages -/

variable {σ τ : Type} [Storage σ] {holds : σ → Contents → Prop} {failed : σ → Prop}

/-- How a storage keeps the rows of a table: a load leaves them as they are kept, and a save that
succeeds determines it. -/
structure Storage.Renders (holds : σ → Contents → Prop) (table : String) (kept : σ → τ)
    (image : List Row → τ) : Prop where
  load : ∀ s d, holds s d → kept (finalState (Storage.loadTable table s)) = kept s
  save : ∀ rows s d, holds s d → Ensures (Storage.saveTable table rows) s
    (fun _ s' => kept s' = image rows) fun _ s' => kept s' = kept s

/-- A file is left by a load, and a save determines its text. -/
theorem FileStorage.renders (root : Path) (hi : Text.isIdentifier table) :
    Storage.Renders (FileStorage.Reads root) table (fun s => s.files.tableBytes root table)
      fun rows => .ok (Document.encode rows) where
  load s d _ := by rw [finalState_loadTable]
  save rows s d h := by
    obtain ⟨l, fs⟩ := s
    cases h.layout
    refine (ensures_saveTable table rows).mono ?_ ?_
    · intro _ s' hpost
      obtain ⟨fs', rfl, -, -, -, ht, -⟩ := hpost
      exact ht
    · intro _ s' hpost
      obtain ⟨fs', rfl, -, -, same⟩ := hpost
      exact same table hi id

namespace Engine

variable {d : Contents} {e e₁ : Engine σ}

/-- How the rows are kept after a visit depends on what it writes. -/
theorem ensures_kept {α : Type} {kept : σ → τ} {image : List Row → τ}
    {check : Except Error (List Row → Except Error (α × Option (List Row)))}
    (law : Storage.Follows holds failed) (hr : Storage.Renders holds table kept image)
    (hd : holds e.source.storage d) :
    Ensures (visit table check) e
      (fun value e' => ∃ write,
        (check >>= fun next => next (d.rows table)) = .ok (value, write) ∧
          kept e'.source.storage = write.elim (kept e.source.storage) image)
      fun _ e' => kept e'.source.storage = kept e.source.storage := by
  refine ensures_bind (ensures_ofExcept ?_ fun _ _ => rfl)
  rintro next rfl
  have hload := law.loadTable table e.source.storage d hd
  have hkept := hr.load e.source.storage d hd
  refine ensures_bind (ensures_loadPast ?_ ?_)
  · intro loaded s hl
    obtain ⟨hrows, hs, -⟩ := hload.ok hl
    rw [hl] at hkept
    rw [hrows]
    refine ensures_bind (ensures_ofExcept ?_ fun _ _ => hkept)
    rintro ⟨value, write⟩ hn
    cases write with
    | none => exact ⟨none, hn, hkept⟩
    | some rows =>
        have hsave := hr.save rows s d hs
        refine ensures_bind (ensures_change ?_ ?_)
        · intro s' hw
          exact ⟨some rows, hn, hsave.ok hw⟩
        · intro err s' hw
          exact (hsave.error hw).trans hkept
  · intro err s hl
    rwa [hl] at hkept

/-- If the rows are written again, they are kept as they were. -/
theorem kept_update_update {kept : σ → τ} {image : List Row → τ}
    (law : Storage.Follows holds failed) (hr : Storage.Renders holds table kept image)
    (hd : holds e.source.storage d)
    (h : update registry table assignments filter e = .ok m e₁) :
    kept (finalState (update registry table assignments filter e₁)).source.storage =
      kept e₁.source.storage := by
  rw [update_eq_visit] at h ⊢
  obtain ⟨write, first, hkept⟩ := (ensures_kept law hr hd).ok h
  obtain ⟨⟨write₁, hfirst, hleaves⟩, -⟩ := (ensures_visit law hd).ok h
  cases first.symm.trans hfirst
  obtain ⟨m', write', second, hwrite⟩ := updating_again first
  refine Ensures.final (P := fun e' => kept e'.source.storage = kept e₁.source.storage)
    ((ensures_kept law hr hleaves.held).mono ?_ fun _ _ hsame => hsame)
  rintro value e' ⟨write'', hsecond, hkept'⟩
  cases second.symm.trans hsecond
  rw [hkept']
  obtain ⟨-, -, rfl⟩ | ⟨-, -, rfl⟩ := hwrite
  · rfl
  · cases write' with
    | none => rfl
    | some rows => exact hkept.symm

/-- An update made again leaves the text of the file, whatever it was before the first one. -/
theorem tableBytes_update_update {root : Path} {e e₁ : Engine FileStorage}
    (hl : e.source.storage.layout = .underRoot root) (hi : Text.isIdentifier table)
    (h : update registry table assignments filter e = .ok m e₁) :
    let e₂ := finalState (update registry table assignments filter e₁)
    e₂.source.storage.files.tableBytes root table =
      e₁.source.storage.files.tableBytes root table := by
  obtain ⟨d, hd⟩ := FileStorage.exists_reads hl
  exact kept_update_update (FileStorage.reads_follows root) (FileStorage.renders root hi) hd h

theorem holds_update_update (law : Storage.Follows holds failed) (hd : holds e.source.storage d)
    (h : update registry table assignments filter e = .ok m e₁) :
    ∃ d₁ m', holds e₁.source.storage d₁ ∧
      holds (finalState (update registry table assignments filter e₁)).source.storage d₁ ∧
      Yields failed (update registry table assignments filter) e₁ m' ∧
      (Deselects assignments filter ∧ m' = .noMatch ∨ ¬ Deselects assignments filter ∧ m' = m) := by
  rw [update_eq_visit] at h ⊢
  obtain ⟨⟨write, first, hleaves⟩, -⟩ := (ensures_visit law hd).ok h
  obtain ⟨m', write', second, hwrite⟩ := updating_again first
  have hd₁ := hleaves.held
  refine ⟨_, m', hd₁, ?_, yields_visit law hd₁ second, ?_⟩
  · refine Ensures.final (P := fun e' => holds e'.source.storage (write.elim d (d.put table)))
      ((ensures_visit law hd₁).mono ?_ ?_)
    · rintro value e' ⟨⟨write'', hsecond, hleaves'⟩, -⟩
      cases second.symm.trans hsecond
      have hafter := hleaves'.held
      obtain ⟨-, -, rfl⟩ | ⟨-, -, rfl⟩ := hwrite
      · exact hafter
      · cases write' with
        | none => exact hafter
        | some rows => rwa [Option.elim_some, Option.elim_some, Contents.put_put] at hafter
    · rintro err e' (⟨-, hleaves', -⟩ | ⟨hs, -⟩)
      · exact hleaves'.1
      · exact hs
  · obtain ⟨hdes, hm, -⟩ | ⟨hdes, hm, -⟩ := hwrite
    · exact .inl ⟨hdes, hm⟩
    · exact .inr ⟨hdes, hm⟩

/-- An update that succeeds and is then made again, for any schema and any rows. Even if a call of
the storage fails, the contents are as the first one has left them, and the rows are kept in the
storage as they were. Nothing matches again exactly if nothing matched before or the assignments
prevent it; otherwise the same is reported. -/
theorem update_repeated (law : Storage.Follows holds failed) (hd : holds e.source.storage d)
    (h : update registry table assignments filter e = .ok m e₁) :
    let again := update registry table assignments filter
    ∃ d₁, holds e₁.source.storage d₁ ∧ holds (finalState (again e₁)).source.storage d₁ ∧
      (m = .noMatch ∨ Deselects assignments filter → Yields failed again e₁ .noMatch) ∧
      (m ≠ .noMatch ∧ ¬ Deselects assignments filter → Yields failed again e₁ m) ∧
      ∀ (τ : Type) (kept : σ → τ) image, Storage.Renders holds table kept image →
        kept (finalState (again e₁)).source.storage = kept e₁.source.storage := by
  intro again
  obtain ⟨d₁, m', hd₁, hd₂, hyields, hm⟩ := holds_update_update law hd h
  refine ⟨d₁, hd₁, hd₂, ?_, ?_, fun τ kept image hr => kept_update_update law hr hd h⟩
  · intro hcase
    obtain ⟨-, rfl⟩ | ⟨hdes, rfl⟩ := hm
    · exact hyields
    · rwa [hcase.resolve_right hdes] at hyields
  · rintro ⟨-, hdes⟩
    obtain ⟨hdes', -⟩ | ⟨-, rfl⟩ := hm
    · exact absurd hdes' hdes
    · exact hyields

/-- The first update adds a column to one of the rows. -/
theorem update_repeated_looseTable :
    let e := Engine.create true looseTable
    let assignments : SetClause := .ofList [("n", .integer 2)]
    let filter := some ⟨"s", .text "a"⟩
    let again := update looseTable.registry "t" assignments filter
    let e₁ := finalState (again e)
    outcome (again e) = .ok (.applied [4]) ∧
      ∃ d₁, e₁.source.storage.contents = d₁ ∧
        (finalState (again e₁)).source.storage.contents = d₁ ∧
        (.applied [4] = Mutation.noMatch ∨ Deselects assignments filter →
          Yields (fun _ => False) again e₁ .noMatch) ∧
        (.applied [4] ≠ Mutation.noMatch ∧ ¬ Deselects assignments filter →
          Yields (fun _ => False) again e₁ (.applied [4])) ∧
        ∀ (τ : Type) (kept : MemoryStorage → τ) image,
          Storage.Renders (fun m d => m.contents = d) "t" kept image →
            kept (finalState (again e₁)).source.storage = kept e₁.source.storage := by
  have hrun : outcome (update looseTable.registry "t" (.ofList [("n", .integer 2)])
      (some ⟨"s", .text "a"⟩) (Engine.create true looseTable)) = .ok (.applied [4]) := by decide
  exact ⟨hrun, update_repeated MemoryStorage.follows rfl (ok_of_outcome hrun)⟩

end Engine
end TableStore
