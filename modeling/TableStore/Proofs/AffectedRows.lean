import TableStore.Proofs.Deletion
import TableStore.Proofs.Updating

/-!
The number of rows that an update or a deletion reports, against the rows that it changes, which
are the selected ones. A report counts identities, so that it leaves out the rows without one,
although they are changed like the others.
-/

namespace TableStore

/-! ## Reports -/

/-- The report counts those of the rows that have an identity, and so all of them only if all have
one. -/
structure Mutation.Counts (m : Mutation) (rows : List Row) : Prop where
  affected : m.affected = rows.countP (·.id?.isSome)
  complete : m.affected = rows.length ↔ ∀ r ∈ rows, r.id?.isSome

variable {registry : Registry} {table : String} {s : Schema} {assignments : SetClause}
  {filter : Option Predicate} {rows : List Row}

theorem Mutation.counts_applied (rows : List Row) :
    (applied (rows.filterMap Row.id?)).Counts rows := by
  have hcount : (applied (rows.filterMap Row.id?)).affected = rows.countP (·.id?.isSome) :=
    List.length_filterMap_eq_countP
  refine ⟨hcount, ?_⟩
  rw [hcount]
  exact List.countP_eq_length

theorem Mutation.counts_noMatch : noMatch.Counts [] :=
  ⟨rfl, iff_of_true rfl nofun⟩

theorem counts_deleteRows (filter : Option Predicate) (rows : List Row) :
    (deleteRows filter rows).1.Counts (rows.filter (selects filter)) := by
  by_cases h : rows.filter (selects filter) = []
  · rw [deleteRows_of_none h, h]
    exact Mutation.counts_noMatch
  · rw [deleteRows_of_selected h]
    exact Mutation.counts_applied _

theorem Assignable.counts_updateRows (h : Assignable table s assignments)
    (filter : Option Predicate) (rows : List Row) :
    (updateRows assignments filter rows).1.Counts (rows.filter (selects filter)) := by
  rw [h.updateRows_eq]
  split
  · exact Mutation.counts_applied _
  · next hnone =>
      rw [any_selects, not_not] at hnone
      rw [hnone]
      exact Mutation.counts_noMatch

namespace Engine

variable {σ : Type} [Storage σ] {holds : σ → Contents → Prop} {failed : σ → Prop}

/-- What an update or a deletion reports after a selection by the same filter. The engine may have
been asked to do anything before, over a storage with any contents. The rows that have been
selected are exactly those that are changed or taken away, and the report counts those of them that
have an identity. -/
theorem affected_exact (law : Storage.Follows holds failed) {initial : σ} {d₀ : Contents}
    (hinitial : holds initial d₀) {e e₁ : Engine σ} (reached : e.Reached initial)
    {selected : List Row} (hselect : select registry table filter e = .ok selected e₁) :
    ∃ d, holds e₁.source.storage d ∧ selected = (d.rows table).filter (selects filter) ∧
      (∀ assignments m e₂, update registry table assignments filter e₁ = .ok m e₂ →
        m.Counts selected ∧ ∃ d₂, holds e₂.source.storage d₂ ∧
          List.Forall₂ (Updated assignments filter) (d.rows table) (d₂.rows table)) ∧
      ∀ m e₂, delete registry table filter e₁ = .ok m e₂ →
        m.Counts selected ∧ ∃ d₂, holds e₂.source.storage d₂ ∧
          d₂.rows table = (d.rows table).filter (!selects filter ·) := by
  obtain ⟨d, hd⟩ := reached.current law hinitial
  obtain ⟨s, found, valid⟩ := valid_of_select hselect
  obtain ⟨rfl, hd₁, -⟩ := (turns_select law hd found valid).ok hselect
  refine ⟨d, hd₁.held, rfl, ?_, ?_⟩
  · intro assignments m e₂ hupdate
    rw [update_eq_visit] at hupdate
    obtain ⟨⟨write, hdecided, hleaves⟩, -⟩ := (ensures_visit law hd₁.held).ok hupdate
    obtain ⟨s, -, ha, -, hrows⟩ := updating_eq_ok.mp hdecided
    have assignable := assignable_iff.mpr ha
    have hcounts := assignable.counts_updateRows filter (d.rows table)
    have hafter := assignable.rows_updateRows filter d
    rw [hrows] at hcounts hafter
    exact ⟨hcounts, _, hleaves.held, forall₂_updated_iff.mpr hafter.symm⟩
  · intro m e₂ hdelete
    rw [delete_eq_visit] at hdelete
    obtain ⟨⟨write, hdecided, hleaves⟩, -⟩ := (ensures_visit law hd₁.held).ok hdelete
    obtain ⟨s, -, -, hrows⟩ := deleting_eq_ok.mp hdecided
    have hcounts := counts_deleteRows filter (d.rows table)
    have hafter := rows_deleteRows table filter d
    rw [hrows] at hcounts hafter
    exact ⟨hcounts, _, hleaves.held, hafter⟩

/-- A table with a row that has no identity. -/
def unnumberedTable : MemoryStorage :=
  { MemoryStorage.empty with
    registry := .insert .empty ⟨"t", [.id, ⟨"n", .integer⟩]⟩
    tables := .ofList [("t", [.ofPairs [(idColumn, .integer 1), ("n", .integer 5)],
      .ofPairs [("n", .integer 5)]])] }

theorem affected_exact_unnumberedTable :
    let registry := unnumberedTable.registry
    let rows := unnumberedTable.contents.rows "t"
    let selection := select registry "t" none (.create true unnumberedTable)
    outcome selection = .ok rows ∧
      ∃ d, (finalState selection).source.storage.contents = d ∧
        rows = (d.rows "t").filter (selects none) ∧
        (∀ assignments m e₂,
          update registry "t" assignments none (finalState selection) = .ok m e₂ →
          m.Counts rows ∧ ∃ d₂, e₂.source.storage.contents = d₂ ∧
            List.Forall₂ (Updated assignments none) (d.rows "t") (d₂.rows "t")) ∧
        ∀ m e₂, delete registry "t" none (finalState selection) = .ok m e₂ →
          m.Counts rows ∧ ∃ d₂, e₂.source.storage.contents = d₂ ∧
            d₂.rows "t" = (d.rows "t").filter (!selects none ·) := by
  have hselect : outcome (select unnumberedTable.registry "t" none
      (.create true unnumberedTable)) = .ok (unnumberedTable.contents.rows "t") := by decide
  exact ⟨hselect, affected_exact MemoryStorage.follows rfl (.create true) (ok_of_outcome hselect)⟩

/-- Two rows are selected and then deleted, and the report says one. -/
theorem delete_underreports :
    let registry := unnumberedTable.registry
    let selection := select registry "t" none (.create true unnumberedTable)
    let run := delete registry "t" none (finalState selection)
    (outcome selection).map List.length = .ok 2 ∧
      (finalState run).source.storage.contents.rows "t" = [] ∧
      (outcome run).map Mutation.affected = .ok 1 := by
  decide

end Engine
end TableStore
