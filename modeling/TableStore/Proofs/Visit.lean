import TableStore.Proofs.Contents
import TableStore.Proofs.Plan

/-!
Operations that check a request, read the rows of one table and perhaps replace them. What such
an operation ends with, and what it writes, depends on the request and the rows only.
-/

namespace TableStore

variable {σ α : Type}

/-- The rows that an operation has to write, if it has any. -/
def written : Except Error (α × Option (List Row)) → Option (List Row)
  | .ok (_, write) => write
  | .error _ => none

section
variable {decided : Except Error (α × Option (List Row))}

theorem ends_of_error {e : Error} (h : decided = .error e) :
    .error e = decided.map Prod.fst ∧ none = written decided := by
  rw [h]
  exact ⟨rfl, rfl⟩

theorem ends_of_ok {value : α} {write : Option (List Row)} (h : decided = .ok (value, write)) :
    .ok value = decided.map Prod.fst ∧ write = written decided := by
  rw [h]
  exact ⟨rfl, rfl⟩

end

namespace Engine

/-- What an operation on a table leaves. Without rows to write it has changed neither the
contents nor the cache, and has called the storage at most for the load. Otherwise the table has
the new rows, and no scan is cached. -/
def Leaves [Storage σ] (holds : σ → Contents → Prop) (d : Contents) (table : String)
    (e e' : Engine σ) : Option (List Row) → Prop
  | none => holds e'.source.storage d ∧ e'.cache = e.cache ∧
      (e'.source.storage = e.source.storage ∨
        e'.source.storage = finalState (Storage.loadTable table e.source.storage))
  | some rows =>
      holds e'.source.storage (d.put table rows) ∧ e'.cache = e.cache.invalidate

variable [Storage σ]

/-- Checks a request, reads a table past the cache and perhaps replaces its rows. -/
def visit (table : String)
    (check : Except Error (List Row → Except Error (α × Option (List Row)))) :
    EStateM Error (Engine σ) α := do
  let next ← ofExcept check
  let rows ← loadRows table
  let (value, write) ← ofExcept (next rows)
  match write with
  | none => return value
  | some rows =>
    change (Storage.saveTable table rows)
    return value

variable {holds : σ → Contents → Prop} {failed : σ → Prop} {d : Contents} {e : Engine σ}
  {table : String} {check : Except Error (List Row → Except Error (α × Option (List Row)))}

theorem Leaves.held {e' : Engine σ} {write : Option (List Row)}
    (h : Leaves holds d table e e' write) :
    holds e'.source.storage (write.elim d (d.put table)) := by
  cases write with
  | none => exact h.1
  | some rows => exact h.1

/-- A visit that succeeds has done what is decided from the rows that the table has. If it fails,
that was decided, or a call of the storage has failed; the contents are as before. -/
theorem ensures_visit (law : Storage.Follows holds failed) (hd : holds e.source.storage d) :
    let decided := check >>= fun next => next (d.rows table)
    Ensures (visit table check) e
      (fun value e' => (∃ write, decided = .ok (value, write) ∧ Leaves holds d table e e' write) ∧
        (failed e.source.storage → failed e'.source.storage))
      fun err e' => (decided = .error err ∧ Leaves holds d table e e' none ∧
          (failed e.source.storage → failed e'.source.storage)) ∨
        (holds e'.source.storage d ∧ failed e'.source.storage) := by
  refine ensures_bind (ensures_ofExcept ?_ ?_)
  · rintro next rfl
    have hload := law.loadTable table e.source.storage d hd
    refine ensures_bind (ensures_loadPast ?_ fun _ _ hl => .inr (hload.error hl))
    intro loaded s hl
    obtain ⟨hrows, hs, hf⟩ := hload.ok hl
    have hs' : s = finalState (Storage.loadTable table e.source.storage) := by
      rw [hl]
      rfl
    rw [hrows]
    refine ensures_bind (ensures_ofExcept ?_ ?_)
    · rintro ⟨value, write⟩ hn
      cases write with
      | none => exact ⟨⟨none, hn, hs, rfl, .inr hs'⟩, hf⟩
      | some rows =>
          have hsave := law.saveTable table rows s d hs
          refine ensures_bind (ensures_change ?_ fun _ _ hw => .inr (hsave.error hw))
          intro s' hw
          obtain ⟨-, hs', hf'⟩ := hsave.ok hw
          exact ⟨⟨some rows, hn, hs', rfl⟩, fun h => hf' (hf h)⟩
    · intro err hn
      exact .inl ⟨hn, ⟨hs, rfl, .inr hs'⟩, hf⟩
  · rintro err rfl
    exact .inl ⟨rfl, ⟨hd, rfl, .inl rfl⟩, id⟩

/-- Unless a call of the storage fails, a visit does what is decided from the rows that the table
has. -/
theorem visit_decided (law : Storage.Follows holds failed) (hd : holds e.source.storage d) :
    let decided := check >>= fun next => next (d.rows table)
    let run := visit table check e
    (outcome run = decided.map Prod.fst ∧
        Leaves holds d table e (finalState run) (written decided)) ∨
      failed (finalState run).source.storage := by
  intro decided run
  refine Ensures.ends (P := fun out e' =>
    (out = decided.map Prod.fst ∧ Leaves holds d table e e' (written decided)) ∨
      failed e'.source.storage) ((ensures_visit law hd).mono ?_ ?_)
  · rintro value e' ⟨⟨write, hdecided, hleaves⟩, -⟩
    simp only [decided, hdecided]
    exact .inl ⟨rfl, hleaves⟩
  · rintro err e' (⟨hdecided, hleaves, -⟩ | ⟨-, hfailed⟩)
    · simp only [decided, hdecided]
      exact .inl ⟨rfl, hleaves⟩
    · exact .inr hfailed

/-- A visit does not undo a failure. -/
theorem failed_visit (law : Storage.Follows holds failed) (hd : holds e.source.storage d)
    (hf : failed e.source.storage) : failed (finalState (visit table check e)).source.storage := by
  refine Ensures.final (P := fun e' => failed e'.source.storage) ((ensures_visit law hd).mono ?_ ?_)
  · intro value e' hpost
    exact hpost.2 hf
  · rintro err e' (⟨-, -, h⟩ | ⟨-, h⟩)
    · exact h hf
    · exact h

end Engine
end TableStore
