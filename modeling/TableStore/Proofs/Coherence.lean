import TableStore.Proofs.Contents
import TableStore.Proofs.Plan

/-!
Cached scans against the storage. A cache is coherent if every scan it keeps is what its table
loads as. Commands preserve this, and with a coherent cache they do what they would do without
a cache at all.
-/

namespace TableStore

variable {σ δ : Type} [Storage σ] [Storage δ]

/-! ## Storages that change only what they are told to -/

namespace Storage

def SameLoads (s s' : δ) : Prop :=
  ∀ table, outcome (Storage.loadTable table s') = outcome (Storage.loadTable table s)

/-- Loads change nothing at all. Saving the registry changes no table, and neither does a call
that fails. -/
structure Calm (sound : δ → Prop) : Prop where
  loadRegistry : ∀ s : δ, finalState (Storage.loadRegistry s) = s
  loadTable : ∀ table (s : δ), finalState (Storage.loadTable table s) = s
  saveRegistry : ∀ r s, sound s → sound (finalState (Storage.saveRegistry r s)) ∧
    SameLoads s (finalState (Storage.saveRegistry r s))
  saveTable : ∀ table rows s, sound s → Ensures (Storage.saveTable table rows) s
    (fun _ s' => sound s') fun _ s' => sound s' ∧ SameLoads s s'
  removeTable : ∀ table s, sound s → Ensures (Storage.removeTable table) s
    (fun _ s' => sound s') fun _ s' => sound s' ∧ SameLoads s s'

/-- What the calls of one storage do shows in another one. -/
structure Shows (view : σ → δ) : Prop where
  loadRegistry : Mirrors (fun _ => True) view Storage.loadRegistry Storage.loadRegistry
  saveRegistry : ∀ r,
    Mirrors (fun _ => True) view (Storage.saveRegistry r) (Storage.saveRegistry r)
  loadTable : ∀ table,
    Mirrors (fun _ => True) view (Storage.loadTable table) (Storage.loadTable table)
  saveTable : ∀ table rows,
    Mirrors (fun _ => True) view (Storage.saveTable table rows) (Storage.saveTable table rows)
  removeTable : ∀ table,
    Mirrors (fun _ => True) view (Storage.removeTable table) (Storage.removeTable table)

theorem shows_self : Shows (id : δ → δ) := by
  have self {α : Type} (act : EStateM Error δ α) : Mirrors (fun _ => True) id act act :=
    fun s _ => ensures_of_cases (fun _ _ h => ⟨h, trivial⟩) fun _ _ h => ⟨h, trivial⟩
  exact ⟨self _, fun _ => self _, fun _ => self _, fun _ _ => self _, fun _ => self _⟩

/-- The registry as the storage has it; a damaged one is empty. -/
def currentRegistry : EStateM Error σ Registry := return (← Storage.loadRegistry).value

end Storage

/-! ## Coherence -/

/-- Every scan in the cache is what its table loads as. -/
structure Engine.Coherent (sound : δ → Prop) (view : σ → δ) (e : Engine σ) : Prop where
  sound : sound (view e.source.storage)
  scans : ∀ key rows, e.cache.peek key = some rows → ∃ corruption,
    outcome (Storage.loadTable key.table (view e.source.storage)) = .ok ⟨rows, corruption⟩

variable {sound : δ → Prop} {view : σ → δ}

namespace Engine

variable {e : Engine σ} {s : σ}

section
omit [Storage σ]

theorem Coherent.withStorage (h : e.Coherent sound view) (hs : sound (view s))
    (same : Storage.SameLoads (view e.source.storage) (view s)) :
    (e.withStorage s).Coherent sound view := by
  refine ⟨hs, fun key rows hp => ?_⟩
  obtain ⟨corruption, hc⟩ := h.scans key rows hp
  exact ⟨corruption, (same key.table).trans hc⟩

theorem Coherent.withReport (h : e.Coherent sound view) (report : Option Error) :
    (e.withReport report).Coherent sound view := ⟨h.sound, h.scans⟩

theorem Coherent.withLookup (h : e.Coherent sound view) (hit : Bool) :
    (e.withLookup hit).Coherent sound view := ⟨h.sound, h.scans⟩

theorem coherent_withoutScans (hs : sound (view e.source.storage)) :
    e.withoutScans.Coherent sound view :=
  ⟨hs, fun _ _ hp => nomatch hp⟩

theorem Coherent.withScan (h : e.Coherent sound view) {key : Fingerprint} {rows : List Row}
    (hl : ∃ corruption, outcome (Storage.loadTable key.table (view e.source.storage)) =
      .ok ⟨rows, corruption⟩) :
    (e.withScan key rows).Coherent sound view := by
  refine ⟨h.sound, fun key' rows' hp => ?_⟩
  obtain ⟨rfl, rfl⟩ | hp := peek_withScan hp
  · exact hl
  · exact h.scans key' rows' hp

end

omit [Storage σ] [Storage δ] in
/-- A load that shows as a load which changes nothing. -/
theorem ensures_load {α : Type} {act : EStateM Error σ α} {act' : EStateM Error δ α}
    (hm : Mirrors (fun _ => True) view act act') (hc : ∀ s, finalState (act' s) = s) (s : σ) :
    Ensures act s (fun a s' => act' (view s) = .ok a (view s) ∧ view s' = view s)
      fun e s' => act' (view s) = .error e (view s) ∧ view s' = view s := by
  have hquiet := ensures_of_finalState (hc (view s))
  refine (hm s trivial).mono ?_ ?_
  · intro a s' h
    have hs := hquiet.ok h.1
    exact ⟨hs ▸ h.1, hs⟩
  · intro e s' h
    have hs := hquiet.error h.1
    exact ⟨hs ▸ h.1, hs⟩

omit [Storage σ] in
theorem mirrors_loadPast {α : Type} {act : EStateM Error σ (Loaded α)}
    {act' : EStateM Error δ (Loaded α)} (hm : Mirrors (fun _ => True) view act act')
    (hc : ∀ s, finalState (act' s) = s) :
    Mirrors (Coherent sound view) (fun e => view e.source.storage) (loadPast act)
      (do return (← act').value) := by
  intro e he
  have hload := ensures_load hm hc e.source.storage
  refine ensures_loadPast ?_ ?_
  · intro loaded s hl
    obtain ⟨hv, hs⟩ := hload.ok hl
    refine ⟨?_, (he.withStorage (hs ▸ he.sound) fun _ => by rw [hs]).withReport _⟩
    simp only [bind_apply, hv, pure_apply, storage_withReport, storage_withStorage, hs]
  · intro err s hl
    obtain ⟨hv, hs⟩ := hload.error hl
    refine ⟨?_, he.withStorage (hs ▸ he.sound) fun _ => by rw [hs]⟩
    simp only [bind_apply, hv, storage_withStorage, hs]

variable (calm : Storage.Calm sound) (shows : Storage.Shows view)
include calm shows

theorem mirrors_loadRegistry : Mirrors (Coherent sound view) (fun e => view e.source.storage)
    Engine.loadRegistry Storage.currentRegistry :=
  mirrors_loadPast shows.loadRegistry calm.loadRegistry

theorem mirrors_loadRows (table : String) :
    Mirrors (Coherent sound view) (fun e => view e.source.storage) (Engine.loadRows table)
      (Storage.loadRows table) :=
  mirrors_loadPast (shows.loadTable table) (calm.loadTable table)

/-- A scan of the cache is what a load gives, whether the cache has it or not. -/
theorem mirrors_scanTable (key : Fingerprint) :
    Mirrors (Coherent sound view) (fun e => view e.source.storage) (select.scanTable key)
      (Storage.loadRows key.table) := by
  intro e he
  have hload := ensures_load (shows.loadTable key.table) (calm.loadTable key.table) e.source.storage
  refine ensures_scanTable ?_ ?_ ?_
  · intro rows hp
    obtain ⟨corruption, hc⟩ := he.scans key rows hp
    have hl := ok_of_outcome hc
    rw [calm.loadTable] at hl
    refine ⟨?_, he.withLookup true⟩
    simp only [Storage.loadRows, bind_apply, hl, pure_apply, storage_withLookup]
  · intro loaded s _ hl
    obtain ⟨hv, hs⟩ := hload.ok hl
    refine ⟨?_, (((he.withLookup false).withStorage (hs ▸ he.sound) fun _ => by
      rw [hs, storage_withLookup]).withReport _).withScan
        ⟨loaded.corruption, ?_⟩⟩
    · simp only [Storage.loadRows, bind_apply, hv, pure_apply, storage_withScan,
        storage_withReport, storage_withStorage, hs]
    · simp only [storage_withReport, storage_withStorage, hs]
      exact outcome_of_ok hv
  · intro err s _ hl
    obtain ⟨hv, hs⟩ := hload.error hl
    refine ⟨?_, (he.withLookup false).withStorage (hs ▸ he.sound) fun _ => by
      rw [hs, storage_withLookup]⟩
    simp only [Storage.loadRows, bind_apply, hv, storage_withStorage, hs]

omit [Storage σ] calm shows in
/-- A change leaves no scans if it succeeds, and if it fails no table loads differently. -/
theorem mirrors_change {act : EStateM Error σ Unit} {act' : EStateM Error δ Unit}
    (hm : Mirrors (fun _ => True) view act act')
    (hc : ∀ s, sound s → Ensures act' s (fun _ s' => sound s')
      fun _ s' => sound s' ∧ Storage.SameLoads s s') :
    Mirrors (Coherent sound view) (fun e => view e.source.storage) (change act) act' := by
  intro e he
  have hshow := hm e.source.storage trivial
  have hcalm := hc (view e.source.storage) he.sound
  refine ensures_change ?_ ?_
  · intro s hw
    obtain ⟨hv, -⟩ := hshow.ok hw
    exact ⟨hv, coherent_withoutScans (hcalm.ok hv)⟩
  · intro err s hw
    obtain ⟨hv, -⟩ := hshow.error hw
    obtain ⟨hs, same⟩ := hcalm.error hv
    exact ⟨hv, he.withStorage hs same⟩

theorem mirrors_saveRegistry (r : Registry) :
    Mirrors (Coherent sound view) (fun e => view e.source.storage) (Engine.saveRegistry r)
      (Storage.saveRegistry r) := by
  intro e he
  have hshow := shows.saveRegistry r e.source.storage trivial
  have hcalm := calm.saveRegistry r (view e.source.storage) he.sound
  refine ensures_saveRegistry ?_ ?_
  · intro s hw
    obtain ⟨hv, -⟩ := hshow.ok hw
    rw [hv] at hcalm
    exact ⟨hv, he.withStorage hcalm.1 hcalm.2⟩
  · intro err s hw
    obtain ⟨hv, -⟩ := hshow.error hw
    rw [hv] at hcalm
    exact ⟨hv, he.withStorage hcalm.1 hcalm.2⟩

end Engine

/-! ## Commands without a cache -/

namespace Command

def performDirect (c : Command) : EStateM Error (Registry × δ) Reply := fun w =>
  match c.plan w.1 with
  | .error e => .error e w
  | .ok p =>
    match p.onStorage w.2 with
    | .ok reply s => .ok reply (p.onRegistry w.1, s)
    | .error e s => .error e (w.1, s)

/-- Executes a command with the stored registry. -/
def runDirect (c : Command) : EStateM Error δ Reply := do
  let r ← Storage.currentRegistry
  let p ← ofExcept (c.plan r)
  let reply ← p.onStorage
  if c.isMutating then
    Storage.saveRegistry (p.onRegistry r)
  return reply

end Command

section
variable (calm : Storage.Calm sound) (shows : Storage.Shows view)
include calm shows

theorem Plan.mirrors (p : Plan) :
    Mirrors (Engine.Coherent sound view) (fun e => view e.source.storage) p.onEngine p.onStorage := by
  cases p with
  | answer reply => exact mirrors_pure reply
  | scan key reply => exact (Engine.mirrors_scanTable calm shows key).bind fun _ => mirrors_pure _
  | visit table next =>
      refine (Engine.mirrors_loadRows calm shows table).bind fun rows => ?_
      refine (mirrors_ofExcept (next rows)).bind fun found => ?_
      obtain ⟨reply, write⟩ := found
      cases write with
      | none => exact mirrors_pure reply
      | some rows' =>
          exact (Engine.mirrors_change (shows.saveTable table rows')
            (calm.saveTable table rows')).bind fun _ => mirrors_pure reply
  | create schema =>
      exact (Engine.mirrors_change (shows.saveTable schema.name [])
        (calm.saveTable schema.name [])).bind fun _ => mirrors_pure _
  | drop schema =>
      exact (Engine.mirrors_change (shows.removeTable schema.name)
        (calm.removeTable schema.name)).bind fun _ => mirrors_pure _

namespace Command

theorem mirrors_run (c : Command) :
    Mirrors (Engine.Coherent sound view) (fun e => view e.source.storage) c.run c.runDirect := by
  rw [run_eq]
  refine (Engine.mirrors_loadRegistry calm shows).bind fun r => ?_
  refine (mirrors_ofExcept (c.plan r)).bind fun p => ?_
  refine (p.mirrors calm shows).bind fun reply => ?_
  split
  · exact (Engine.mirrors_saveRegistry calm shows _).bind fun _ => mirrors_pure reply
  · exact mirrors_pure reply

theorem mirrors_perform (c : Command) :
    Mirrors (fun w : Workspace σ => w.engine.Coherent sound view)
      (fun w => (w.registry, view w.engine.source.storage)) c.perform c.performDirect := by
  intro w hw
  rw [perform_eq_follow]
  simp only [Ensures, Workspace.follow, performDirect]
  cases hp : c.plan w.registry with
  | error e => exact ⟨rfl, hw⟩
  | ok p =>
      have hmirrors := p.mirrors calm shows w.engine hw
      cases he : p.onEngine w.engine with
      | ok reply engine =>
          obtain ⟨hs, hc⟩ := hmirrors.ok he
          simp only [he, hs, true_and]
          exact hc
      | error err engine =>
          obtain ⟨hs, hc⟩ := hmirrors.error he
          simp only [he, hs, true_and]
          exact hc

end Command
end
end TableStore
