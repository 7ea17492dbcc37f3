import TableStore.Proofs.Requests
import TableStore.Proofs.Visit

/-!
Engines over a storage that nobody else changes. Every scan they have cached shows the rows that
its table has now, so that a selection gives the stored rows that its filter lets through, and a
deletion or an insertion after it finds the rows that were selected from.
-/

namespace TableStore

variable {σ : Type} [Storage σ] {holds : σ → Contents → Prop} {failed : σ → Prop} {d : Contents}

namespace Engine

/-! ## Current scans -/

/-- The storage holds the contents, and every cached scan shows its table as it is there. -/
structure Current (holds : σ → Contents → Prop) (d : Contents) (e : Engine σ) : Prop where
  held : holds e.source.storage d
  scans : ∀ key rows, e.cache.peek key = some rows → rows = d.rows key.table

/-- What a call of the storage turns the contents into, when an engine makes it. -/
def Turns {α : Type} (holds : σ → Contents → Prop) (failed : σ → Prop)
    (act : EStateM Error (Engine σ) α) (e : Engine σ) (d d' : Contents) (value : α → Prop) : Prop :=
  Storage.Turns (fun (e : Engine σ) d => e.Current holds d) (fun e => failed e.source.storage) act e
    d d' value

section
omit [Storage σ]
variable {e : Engine σ} {s : σ} {key : Fingerprint} {rows : List Row}

theorem Current.withStorage (h : e.Current holds d) (hs : holds s d) :
    (e.withStorage s).Current holds d := ⟨hs, h.scans⟩

theorem Current.withReport (h : e.Current holds d) (report : Option Error) :
    (e.withReport report).Current holds d := ⟨h.held, h.scans⟩

theorem Current.withLookup (h : e.Current holds d) (hit : Bool) :
    (e.withLookup hit).Current holds d := ⟨h.held, h.scans⟩

theorem Current.withScan (h : e.Current holds d) (hr : rows = d.rows key.table) :
    (e.withScan key rows).Current holds d := by
  refine ⟨h.held, fun key' rows' hp => ?_⟩
  obtain ⟨rfl, rfl⟩ | hp := peek_withScan hp
  · exact hr
  · exact h.scans key' rows' hp

theorem current_withoutScans (h : holds e.source.storage d) : e.withoutScans.Current holds d :=
  ⟨h, fun _ _ hp => nomatch hp⟩

theorem current_create (cacheEnabled : Bool) (h : holds s d) :
    (Engine.create cacheEnabled s).Current holds d :=
  ⟨h, fun _ _ hp => nomatch hp⟩

/-- Nothing is cached of contents that have been replaced. -/
theorem Leaves.current [Storage σ] {table : String} {e' : Engine σ} {write : Option (List Row)}
    (h : Leaves holds d table e e' write) (he : e.Current holds d) :
    e'.Current holds (write.elim d (d.put table)) := by
  refine ⟨h.held, fun key rows hp => ?_⟩
  cases write with
  | none =>
      rw [h.2.1] at hp
      exact he.scans key rows hp
  | some rows =>
      rw [h.2] at hp
      cases hp

/-! ## Calls of the storage -/

/-- Unless a call of the storage fails, the action ends with this value. -/
def Yields {α : Type} (failed : σ → Prop) (act : EStateM Error (Engine σ) α) (e : Engine σ)
    (value : α) : Prop :=
  ¬ failed (finalState (act e)).source.storage → outcome (act e) = .ok value

theorem Turns.yields {α : Type} {act : EStateM Error (Engine σ) α} {d' : Contents} {value : α}
    (h : Turns holds failed act e d d' (· = value)) : Yields failed act e value := by
  refine Ensures.ends (P := fun out e' => ¬ failed e'.source.storage → out = .ok value)
    (Ensures.mono h ?_ ?_)
  · intro a e' hpost _
    rw [hpost.1]
  · intro err e' hfail hnot
    exact absurd hfail.2 hnot

/-- An action that changes nothing leaves the scans current, even if it fails. -/
theorem Turns.current {α : Type} {act : EStateM Error (Engine σ) α} {value : α → Prop}
    (h : Turns holds failed act e d d value) : (finalState (act e)).Current holds d :=
  Ensures.final (P := fun e => Current holds d e)
    (Ensures.mono h (fun _ _ hpost => hpost.2.1) fun _ _ hfail => hfail.1)

end

theorem yields_visit {α : Type} {table : String}
    {check : Except Error (List Row → Except Error (α × Option (List Row)))}
    (law : Storage.Follows holds failed) {e : Engine σ} (hd : holds e.source.storage d) {value : α}
    {write : Option (List Row)}
    (hdecided : (check >>= fun next => next (d.rows table)) = .ok (value, write)) :
    Yields failed (visit table check) e value := by
  refine Ensures.ends (P := fun out e' => ¬ failed e'.source.storage → out = .ok value)
    ((ensures_visit law hd).mono ?_ ?_)
  · rintro value' e' ⟨⟨write', h, -⟩, -⟩ _
    cases hdecided.symm.trans h
    rfl
  · rintro err e' (⟨h, -⟩ | ⟨-, hf⟩) hnot
    · cases hdecided.symm.trans h
    · exact absurd hf hnot

variable (law : Storage.Follows holds failed) {e : Engine σ} (h : e.Current holds d)
include law h

omit law [Storage σ] in
theorem turns_loadPast {α : Type} {act : EStateM Error σ (Loaded α)} {a : α}
    (hact : Storage.Turns holds failed act e.source.storage d d fun loaded => loaded.value = a) :
    Turns holds failed (loadPast act) e d d (· = a) := by
  refine ensures_loadPast ?_ ?_
  · intro loaded s hl
    obtain ⟨hv, hs, hf⟩ := hact.ok hl
    exact ⟨hv, (h.withStorage hs).withReport _, hf⟩
  · intro err s hl
    obtain ⟨hs, hf⟩ := hact.error hl
    exact ⟨h.withStorage hs, hf⟩

theorem turns_loadRegistry : Turns holds failed loadRegistry e d d (· = d.registry) :=
  turns_loadPast h (law.loadRegistry _ d h.held)

theorem turns_loadRows (table : String) :
    Turns holds failed (loadRows table) e d d (· = d.rows table) :=
  turns_loadPast h (law.loadTable table _ d h.held)

/-- A scan shows the table as it is, whether it comes from the cache or not. -/
theorem turns_scanTable (key : Fingerprint) :
    Turns holds failed (select.scanTable key) e d d (· = d.rows key.table) := by
  have hload := law.loadTable key.table _ d h.held
  refine ensures_scanTable ?_ ?_ ?_
  · intro rows hp
    exact ⟨h.scans key rows hp, h.withLookup true, id⟩
  · intro loaded s _ hl
    obtain ⟨hv, hs, hf⟩ := hload.ok hl
    exact ⟨hv, (((h.withLookup false).withStorage hs).withReport _).withScan hv, hf⟩
  · intro err s _ hl
    obtain ⟨hs, hf⟩ := hload.error hl
    exact ⟨(h.withLookup false).withStorage hs, hf⟩

omit law [Storage σ] in
theorem turns_change {act : EStateM Error σ Unit} {d' : Contents}
    (hact : Storage.Turns holds failed act e.source.storage d d' fun _ => True) :
    Turns holds failed (change act) e d d' fun _ => True := by
  refine ensures_change ?_ ?_
  · intro s hw
    obtain ⟨-, hs, hf⟩ := hact.ok hw
    exact ⟨trivial, current_withoutScans hs, hf⟩
  · intro err s hw
    obtain ⟨hs, hf⟩ := hact.error hw
    exact ⟨h.withStorage hs, hf⟩

theorem turns_saveRegistry (r : Registry) :
    Turns holds failed (saveRegistry r) e d (d.setRegistry r) fun _ => True := by
  have hsave := law.saveRegistry r _ d h.held
  refine ensures_saveRegistry ?_ ?_
  · intro s hw
    obtain ⟨-, hs, hf⟩ := hsave.ok hw
    exact ⟨trivial, ⟨hs, h.scans⟩, hf⟩
  · intro err s hw
    obtain ⟨hs, hf⟩ := hsave.error hw
    exact ⟨h.withStorage hs, hf⟩

/-- A selection whose request is in order gives the stored rows that the filter lets through. -/
theorem turns_select {registry : Registry} {table : String} {filter : Option Predicate} {s : Schema}
    (found : registry.get? table = some s) (valid : ∀ err, ¬ WrongFilter s filter err) :
    Turns holds failed (select registry table filter) e d d
      (· = (d.rows table).filter (selects filter)) := by
  have hschema : registry.schema table = .ok s := Registry.schema_eq_ok.mpr found
  have hfilter : checkFilter filter s = .ok () := checkFilter_eq_ok.mpr valid
  rw [select, hschema, ofExcept_ok, pure_bind, hfilter, ofExcept_ok, pure_bind]
  refine ensures_bind ((turns_scanTable law h _).mono ?_ fun _ _ hfail => hfail)
  intro rows e' hpost
  obtain ⟨rfl, hcurrent, hf⟩ := hpost
  exact ⟨rfl, hcurrent, hf⟩

omit law h in
/-- The request of a selection that succeeds is in order. -/
theorem valid_of_select {registry : Registry} {table : String} {filter : Option Predicate}
    {selected : List Row} {e' : Engine σ} (hs : select registry table filter e = .ok selected e') :
    ∃ s, registry.get? table = some s ∧ ∀ err, ¬ WrongFilter s filter err := by
  have hvalid : Ensures (select registry table filter) e
      (fun _ _ => ∃ s, registry.get? table = some s ∧ ∀ err, ¬ WrongFilter s filter err)
      fun _ _ => True := by
    refine ensures_bind (ensures_ofExcept ?_ fun _ _ => trivial)
    intro s hschema
    refine ensures_bind (ensures_ofExcept ?_ fun _ _ => trivial)
    intro _ hfilter
    have found := Registry.schema_eq_ok.mp hschema
    have valid := checkFilter_eq_ok.mp hfilter
    exact ensures_bind (ensures_of_cases (fun _ _ _ => ⟨s, found, valid⟩) fun _ _ _ => trivial)
  exact hvalid.ok hs

end Engine

/-! ## Commands -/

/-- A plan leaves an engine whose scans are current, whatever becomes of it. -/
theorem Plan.current_onEngine (law : Storage.Follows holds failed) (p : Plan) {e : Engine σ}
    (h : e.Current holds d) : ∃ d', (finalState (p.onEngine e)).Current holds d' := by
  let current (e : Engine σ) : Prop := ∃ d', e.Current holds d'
  refine Ensures.final (P := current) ?_
  cases p with
  | answer reply => exact ⟨d, h⟩
  | scan key reply =>
      refine ensures_bind ((Engine.turns_scanTable law h key).mono ?_ fun _ _ hf => ⟨d, hf.1⟩)
      intro rows e' hpost
      exact ⟨d, hpost.2.1⟩
  | visit table next =>
      refine ensures_bind ((Engine.turns_loadRows law h table).mono ?_ fun _ _ hf => ⟨d, hf.1⟩)
      intro rows e' hpost
      obtain ⟨-, hcurrent, -⟩ := hpost
      refine ensures_bind (ensures_ofExcept ?_ fun _ _ => ⟨d, hcurrent⟩)
      rintro ⟨reply, write⟩ -
      cases write with
      | none => exact ⟨d, hcurrent⟩
      | some rows' =>
          have hsave := law.saveTable table rows' _ d hcurrent.held
          refine ensures_bind ((Engine.turns_change hcurrent hsave).mono ?_ fun _ _ hf => ⟨d, hf.1⟩)
          exact fun _ _ hpost => ⟨_, hpost.2.1⟩
  | create schema =>
      have hsave := law.saveTable schema.name [] _ d h.held
      refine ensures_bind ((Engine.turns_change h hsave).mono ?_ fun _ _ hf => ⟨d, hf.1⟩)
      exact fun _ _ hpost => ⟨_, hpost.2.1⟩
  | drop schema =>
      have hremove := law.removeTable schema.name _ d h.held
      refine ensures_bind ((Engine.turns_change h hremove).mono ?_ fun _ _ hf => ⟨d, hf.1⟩)
      exact fun _ _ hpost => ⟨_, hpost.2.1⟩

namespace Command

theorem current_perform (law : Storage.Follows holds failed) (c : Command) {w : Workspace σ}
    (h : w.engine.Current holds d) : ∃ d', (finalState (c.perform w)).engine.Current holds d' := by
  rw [perform_eq_follow, Workspace.follow]
  cases c.plan w.registry with
  | error e => exact ⟨d, h⟩
  | ok p =>
      have hp := p.current_onEngine law h
      cases he : p.onEngine w.engine with
      | ok reply engine => simpa only [he, finalState] using hp
      | error err engine => simpa only [he, finalState] using hp

theorem current_run (law : Storage.Follows holds failed) (c : Command) {e : Engine σ}
    (h : e.Current holds d) : ∃ d', (finalState (c.run e)).Current holds d' := by
  let current (e : Engine σ) : Prop := ∃ d', e.Current holds d'
  rw [run_eq]
  refine Ensures.final (P := current) (ensures_bind ?_)
  refine (Engine.turns_loadRegistry law h).mono ?_ fun _ _ hf => ⟨d, hf.1⟩
  intro r e₁ hpost
  obtain ⟨-, h₁, -⟩ := hpost
  refine ensures_bind (ensures_ofExcept ?_ fun _ _ => ⟨d, h₁⟩)
  intro p _
  refine ensures_bind ((ensures_final (P := current) (p.current_onEngine law h₁)).mono ?_ ?_)
  · intro reply e₂ hpost
    obtain ⟨d₂, h₂⟩ := hpost
    split
    · refine ensures_bind ((Engine.turns_saveRegistry law h₂ _).mono ?_ fun _ _ hf => ⟨d₂, hf.1⟩)
      exact fun _ _ hpost => ⟨_, hpost.2.1⟩
    · exact ⟨d₂, h₂⟩
  · exact fun _ _ hf => hf

end Command

namespace Engine

/-- The engines that a new one over a storage becomes. Commands are executed with the stored
registry or with one that the caller holds. -/
inductive Reached (s : σ) : Engine σ → Prop where
  | create (cacheEnabled : Bool) : Reached s (.create cacheEnabled s)
  | run {e} (c : Command) (h : Reached s e) : Reached s (finalState (c.run e))
  | perform {e} (c : Command) (registry : Registry) (h : Reached s e) :
      Reached s (finalState (c.perform ⟨registry, e⟩)).engine
  | loadRegistry {e} (h : Reached s e) : Reached s (finalState (Engine.loadRegistry e))
  | saveRegistry {e} (registry : Registry) (h : Reached s e) :
      Reached s (finalState (Engine.saveRegistry registry e))
  | takeDiagnostics {e} (h : Reached s e) : Reached s e.takeDiagnostics.2

/-- Whatever an engine has been asked to do, its scans are current. -/
theorem Reached.current (law : Storage.Follows holds failed) {s : σ} (hs : holds s d)
    {e : Engine σ} (h : e.Reached s) : ∃ d', e.Current holds d' := by
  induction h with
  | create cacheEnabled => exact ⟨d, current_create cacheEnabled hs⟩
  | run c _ ih =>
      obtain ⟨d', h⟩ := ih
      exact c.current_run law h
  | perform c registry _ ih =>
      obtain ⟨d', h⟩ := ih
      exact c.current_perform law (w := ⟨registry, _⟩) h
  | loadRegistry _ ih =>
      obtain ⟨d', h⟩ := ih
      refine Ensures.final (P := fun e => ∃ d', e.Current holds d')
        ((turns_loadRegistry law h).mono ?_ fun _ _ hf => ⟨_, hf.1⟩)
      exact fun _ _ hpost => ⟨_, hpost.2.1⟩
  | saveRegistry registry _ ih =>
      obtain ⟨d', h⟩ := ih
      refine Ensures.final (P := fun e => ∃ d', e.Current holds d')
        ((turns_saveRegistry law h registry).mono ?_ fun _ _ hf => ⟨_, hf.1⟩)
      exact fun _ _ hpost => ⟨_, hpost.2.1⟩
  | takeDiagnostics _ ih =>
      obtain ⟨d', h⟩ := ih
      exact ⟨d', h.held, h.scans⟩

end Engine
end TableStore
