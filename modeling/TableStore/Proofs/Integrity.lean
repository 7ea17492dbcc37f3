import TableStore.Proofs.WellFormed

/-!
Databases over storages that follow their contents. Whatever calls fail, the contents stay
well-formed, and the tables with rows are the registered ones for as long as no call fails.
-/

namespace TableStore

variable {σ : Type} [Storage σ] {holds : σ → Contents → Prop} {failed : σ → Prop}

/-- A plan does to the contents of a storage what it does to contents by themselves. -/
theorem Plan.onEngine_follows (law : Storage.Follows holds failed) (p : Plan) {e : Engine σ}
    {d : Contents} (hd : holds e.source.storage d) :
    Ensures p.onEngine e
      (fun _ e' => (∃ reply d', p.onStorage d = .ok reply d' ∧ holds e'.source.storage d') ∧
        (failed e.source.storage → failed e'.source.storage))
      fun _ e' => holds e'.source.storage d ∧
        (failed e.source.storage → failed e'.source.storage) := by
  cases p with
  | answer reply => exact ⟨⟨reply, d, rfl, hd⟩, id⟩
  | scan key reply =>
      have hload := law.loadTable key.table _ _ hd
      refine ensures_bind (Engine.ensures_scanTable ?_ ?_ ?_)
      · intro rows _
        exact ⟨⟨_, d, rfl, hd⟩, id⟩
      · intro loaded s _ hl
        obtain ⟨-, hd, hf⟩ := hload.ok hl
        exact ⟨⟨_, d, rfl, hd⟩, hf⟩
      · intro err s _ hl
        obtain ⟨hd, hf⟩ := hload.error hl
        exact ⟨hd, fun _ => hf⟩
  | visit table next =>
      have hload := law.loadTable table _ _ hd
      refine ensures_bind (Engine.ensures_loadPast ?_ ?_)
      · intro loaded s hl
        obtain ⟨hv, hd', hf⟩ := hload.ok hl
        rw [hv]
        refine ensures_bind (ensures_ofExcept ?_ ?_)
        · intro found hn
          obtain ⟨reply, write⟩ := found
          have hs := onStorage_visit table next d
          rw [hn] at hs
          cases write with
          | none => exact ⟨⟨reply, d, hs, hd'⟩, hf⟩
          | some rows =>
              have hsave := law.saveTable table rows _ _ hd'
              refine ensures_bind (Engine.ensures_change ?_ ?_)
              · intro s' hw
                obtain ⟨-, hd', hf'⟩ := hsave.ok hw
                exact ⟨⟨reply, _, hs, hd'⟩, fun h => hf' (hf h)⟩
              · intro err s' hw
                obtain ⟨hd', hf'⟩ := hsave.error hw
                exact ⟨hd', fun _ => hf'⟩
        · intro err _
          exact ⟨hd', hf⟩
      · intro err s hl
        obtain ⟨hd, hf⟩ := hload.error hl
        exact ⟨hd, fun _ => hf⟩
  | create schema =>
      have hsave := law.saveTable schema.name [] _ _ hd
      refine ensures_bind (Engine.ensures_change ?_ ?_)
      · intro s hw
        obtain ⟨-, hd, hf⟩ := hsave.ok hw
        exact ⟨⟨.schema schema, _, rfl, hd⟩, hf⟩
      · intro err s hw
        obtain ⟨hd, hf⟩ := hsave.error hw
        exact ⟨hd, fun _ => hf⟩
  | drop schema =>
      have hremove := law.removeTable schema.name _ _ hd
      refine ensures_bind (Engine.ensures_change ?_ ?_)
      · intro s hw
        obtain ⟨-, hd, hf⟩ := hremove.ok hw
        exact ⟨⟨.schema schema, _, rfl, hd⟩, hf⟩
      · intro err s hw
        obtain ⟨hd, hf⟩ := hremove.error hw
        exact ⟨hd, fun _ => hf⟩

/-- The storage holds well-formed contents, which are matched unless a call has failed. -/
def Storage.Intact (holds : σ → Contents → Prop) (failed : σ → Prop) (s : σ) : Prop :=
  ∃ d, holds s d ∧ d.WellFormed ∧ (¬ failed s → d.Matched)

omit [Storage σ] in
theorem Storage.intact_empty {s : σ} (hs : holds s .empty) : Storage.Intact holds failed s :=
  ⟨.empty, hs, Contents.empty_wellFormed, fun _ => Contents.empty_matched⟩

namespace Command

/-- A command leaves a storage intact, whatever becomes of it. -/
theorem run_intact (law : Storage.Follows holds failed) (c : Command) {e : Engine σ}
    (h : Storage.Intact holds failed e.source.storage) :
    Storage.Intact holds failed (finalState (c.run e)).source.storage := by
  obtain ⟨d, hd, wf, hm⟩ := h
  rw [run_eq]
  have hload := law.loadRegistry _ _ hd
  refine Ensures.final (P := fun e' => Storage.Intact holds failed e'.source.storage)
    (ensures_bind (Engine.ensures_loadPast ?_ ?_))
  · intro loaded s hl
    obtain ⟨hv, hd, hf⟩ := hload.ok hl
    rw [hv]
    refine ensures_bind (ensures_ofExcept ?_ ?_)
    · intro p hp
      refine ensures_bind ((p.onEngine_follows law hd).mono ?_ ?_)
      · intro reply e' hpost
        obtain ⟨⟨reply', d', hstorage, hd'⟩, hf'⟩ := hpost
        obtain ⟨wf', wf''⟩ := contents_wellFormed wf hp hstorage
        have hm' : ¬ failed e'.source.storage →
            (d'.setRegistry (p.onRegistry d.registry)).Matched :=
          fun h => contents_matched (hm fun hs => h (hf' (hf hs))) hp hstorage
        split
        · have hsave := law.saveRegistry (p.onRegistry d.registry) _ _ hd'
          refine ensures_bind (Engine.ensures_saveRegistry ?_ ?_)
          · intro s' hw
            obtain ⟨-, hd', hf''⟩ := hsave.ok hw
            exact ⟨_, hd', wf'', fun h => hm' fun hs => h (hf'' hs)⟩
          · intro err s' hw
            obtain ⟨hd', hf''⟩ := hsave.error hw
            exact ⟨d', hd', wf', fun h => absurd hf'' h⟩
        · next hc =>
            have hr := onRegistry_of_not_mutating (by simpa using hc) hp
            rw [hr, ← Plan.registry_of_onStorage hstorage] at hm'
            exact ⟨d', hd', wf', hm'⟩
      · intro err e' hpost
        obtain ⟨hd', hf'⟩ := hpost
        exact ⟨d, hd', wf, fun h => hm fun hs => h (hf' (hf hs))⟩
    · intro err _
      exact ⟨d, hd, wf, fun h => hm fun hs => h (hf hs)⟩
  · intro err s hl
    obtain ⟨hd, hf⟩ := hload.error hl
    exact ⟨d, hd, wf, fun h => absurd hf h⟩

/-- Every state that commands reach from an intact storage is intact. -/
theorem runAll_intact (law : Storage.Follows holds failed) (cs : List Command) {e : Engine σ}
    (h : Storage.Intact holds failed e.source.storage) :
    Storage.Intact holds failed (runAll (cs.map run) e).2.source.storage := by
  let intact (e : Engine σ) : Prop := Storage.Intact holds failed e.source.storage
  have hstep : ∀ act ∈ cs.map run, ∀ e : Engine σ, intact e → intact (finalState (act e)) := by
    intro act hact e he
    obtain ⟨c, -, rfl⟩ := List.mem_map.mp hact
    exact c.run_intact law he
  exact runAll_preserves hstep h

/-- Every state that commands reach from an empty storage is well-formed, whatever calls of the
storage fail on the way. As long as none has failed, exactly the registered tables have rows. -/
theorem reachable_wellFormed (law : Storage.Follows holds failed) {s : σ}
    (hs : holds s .empty) (cacheEnabled : Bool) (cs : List Command) :
    let e := (runAll (cs.map run) (Engine.create cacheEnabled (⟨s, false⟩ : Watched σ))).2
    ∃ d, holds e.source.storage.storage d ∧ d.WellFormed ∧
      (e.source.storage.failed = false → d.Matched) := by
  have h := runAll_intact (e := Engine.create cacheEnabled ⟨s, false⟩) (Watched.follows law) cs
    (Storage.intact_empty hs)
  simpa only [Storage.Intact, Bool.not_eq_true] using h

/-- The registry is not saved after the first command, which leaves a table without rows that is
not registered, until it is created once more. -/
def interrupted : Watched (Faulty MemoryStorage) :=
  ⟨⟨.empty, [none, none, some (.storageWrite ⟨"db_meta.json"⟩ .busy)]⟩, false⟩

theorem reachable_wellFormed_interrupted :
    let cs := [createTable "t" [], createTable "t" [], insert "t" []]
    let e := (runAll (cs.map run) (Engine.create true interrupted)).2
    e.source.storage.failed = true ∧
      e.source.storage.storage.storage.rows? "t" = some [Row.withId 1] ∧
      ∃ d, e.source.storage.storage.storage.contents = d ∧ d.WellFormed ∧
        (e.source.storage.failed = false → d.Matched) :=
  ⟨rfl, rfl, reachable_wellFormed (Faulty.follows MemoryStorage.follows) rfl true _⟩

end Command
end TableStore
