import TableStore.Proofs.KeyedList
import TableStore.Proofs.Plan

/-!
Storages that behave alike. If the calls of two storages have the same outcomes from related
states and leave related states, so do commands to engines over them; and the caches of the
two engines stay equal, and so do the reports that they gather.
-/

namespace TableStore

variable {ε σ τ α β : Type}

/-! ## Actions that agree -/

/-- From related states the actions have the same outcome, a value as wanted if there is one,
and they leave related states. -/
def Agree (R : σ → τ → Prop) (wanted : α → Prop) (act : EStateM ε σ α) (act' : EStateM ε τ α) :
    Prop :=
  ∀ s t, R s t → Ensures act s (fun a s' => wanted a ∧ ∃ t', act' t = .ok a t' ∧ R s' t')
    fun e s' => ∃ t', act' t = .error e t' ∧ R s' t'

section
variable {R : σ → τ → Prop} {wanted : α → Prop} {act : EStateM ε σ α} {act' : EStateM ε τ α}

theorem agree_pure {a : α} (ha : wanted a) : Agree R wanted (pure a : EStateM ε σ α) (pure a) :=
  fun _ t h => ⟨ha, t, rfl, h⟩

theorem Agree.mono {wanted' : α → Prop} (hw : ∀ a, wanted a → wanted' a)
    (h : Agree R wanted act act') : Agree R wanted' act act' := fun s t hst =>
  (h s t hst).mono (fun a _ hpost => ⟨hw a hpost.1, hpost.2⟩) fun _ _ hpost => hpost

theorem agree_ofExcept {x : Except ε α} (h : ∀ a, x = .ok a → wanted a) :
    Agree R wanted (ofExcept x : EStateM ε σ α) (ofExcept x) := by
  intro s t hst
  cases x with
  | ok a => exact ⟨h a rfl, t, rfl, hst⟩
  | error e => exact ⟨t, rfl, hst⟩

theorem Agree.bind {wanted' : β → Prop} {f : α → EStateM ε σ β} {f' : α → EStateM ε τ β}
    (h : Agree R wanted act act') (hf : ∀ a, wanted a → Agree R wanted' (f a) (f' a)) :
    Agree R wanted' (act >>= f) (act' >>= f') := by
  intro s t hst
  refine ensures_bind ((h s t hst).mono ?_ ?_)
  · intro a s' hpost
    obtain ⟨ha, t', ht, hst'⟩ := hpost
    simpa only [bind_apply, ht] using hf a ha s' t' hst'
  · intro e s' hpost
    obtain ⟨t', ht, hst'⟩ := hpost
    exact ⟨t', by rw [bind_apply, ht], hst'⟩

theorem agree_onPart {μ ν : Type} {Q : μ → ν → Prop} {part : μ → σ} {replace : μ → σ → μ}
    {part' : ν → τ} {replace' : ν → τ → ν} (h : Agree R wanted act act')
    (hpart : ∀ m n, Q m n → R (part m) (part' n))
    (hreplace : ∀ m n s t, Q m n → R s t → Q (replace m s) (replace' n t)) :
    Agree Q wanted (onPart part replace act) (onPart part' replace' act') := by
  intro m n hmn
  refine ensures_onPart ((h _ _ (hpart m n hmn)).mono ?_ ?_)
  · intro a s hpost
    obtain ⟨ha, t, ht, hst⟩ := hpost
    exact ⟨ha, replace' n t, by simp only [onPart, ht], hreplace m n s t hmn hst⟩
  · intro e s hpost
    obtain ⟨t, ht, hst⟩ := hpost
    exact ⟨replace' n t, by simp only [onPart, ht], hreplace m n s t hmn hst⟩

theorem Agree.outcome_eq (h : Agree R wanted act act') {s : σ} {t : τ} (hst : R s t) :
    outcome (act s) = outcome (act' t) ∧ R (finalState (act s)) (finalState (act' t)) := by
  have h := h s t hst
  rw [Ensures] at h
  cases ha : act s with
  | ok a s' =>
      rw [ha] at h
      obtain ⟨-, t', ht, hst'⟩ := h
      rw [ht]
      exact ⟨rfl, hst'⟩
  | error e s' =>
      rw [ha] at h
      obtain ⟨t', ht, hst'⟩ := h
      rw [ht]
      exact ⟨rfl, hst'⟩

/-- Actions that agree have the same outcomes in every run from related states. -/
theorem runAll_agree {ι : Type} {f : ι → EStateM ε σ α} {g : ι → EStateM ε τ α} {is : List ι}
    (h : ∀ i ∈ is, Agree R wanted (f i) (g i)) {s : σ} {t : τ} (hst : R s t) :
    (runAll (is.map f) s).1 = (runAll (is.map g) t).1 ∧
      R (runAll (is.map f) s).2 (runAll (is.map g) t).2 := by
  induction is generalizing s t with
  | nil => exact ⟨rfl, hst⟩
  | cons i is ih =>
      obtain ⟨ho, hfinal⟩ := (h i List.mem_cons_self).outcome_eq hst
      obtain ⟨hrest, hend⟩ := ih (fun j hj => h j (List.mem_cons_of_mem _ hj)) hfinal
      exact ⟨by simp only [List.map_cons, runAll, ho, hrest], hend⟩

theorem agree_of_outcome (hw : ∀ a, wanted a)
    (h : ∀ s t, R s t → outcome (act s) = outcome (act' t) ∧
      R (finalState (act s)) (finalState (act' t))) : Agree R wanted act act' := by
  intro s t hst
  obtain ⟨ho, hr⟩ := h s t hst
  rw [Ensures]
  cases ha : act s with
  | ok a s' =>
      rw [ha] at ho hr
      have ht := ok_of_outcome ho.symm
      exact ⟨hw a, _, ht, hr⟩
  | error e s' =>
      rw [ha] at ho hr
      cases ht : act' t with
      | ok b t' => rw [ht] at ho; cases ho
      | error e' t' =>
          rw [ht] at ho hr
          cases ho
          exact ⟨t', rfl, hr⟩

/-- Actions agree that always succeed with the same value. -/
theorem agree_of_ok (h : ∀ s t, R s t → ∃ a s' t', act s = .ok a s' ∧ act' t = .ok a t' ∧
    wanted a ∧ R s' t') : Agree R wanted act act' := by
  intro s t hst
  obtain ⟨a, s', t', hs, ht, ha, hst'⟩ := h s t hst
  rw [Ensures, hs]
  exact ⟨ha, t', ht, hst'⟩

end

/-! ## Storages that behave alike -/

/-- The calls of two storages agree, as long as only `usable` names are used; and a damaged
document is reported by a `report`. -/
structure Storage.Alike [Storage σ] [Storage τ] (R : σ → τ → Prop) (usable : String → Prop)
    (report : Error → Prop) : Prop where
  loadRegistry : Agree R
    (fun loaded => (∀ t ∈ loaded.value.names, usable t) ∧ ∀ e ∈ loaded.corruption, report e)
    Storage.loadRegistry Storage.loadRegistry
  saveRegistry : ∀ r : Registry, (∀ t ∈ r.names, usable t) →
    Agree R (fun _ => True) (Storage.saveRegistry r) (Storage.saveRegistry r)
  loadTable : ∀ t, usable t → Agree R (fun loaded => ∀ e ∈ loaded.corruption, report e)
    (Storage.loadTable t) (Storage.loadTable t)
  saveTable : ∀ t rows, usable t →
    Agree R (fun _ => True) (Storage.saveTable t rows) (Storage.saveTable t rows)
  removeTable : ∀ t, usable t →
    Agree R (fun _ => True) (Storage.removeTable t) (Storage.removeTable t)

structure Source.Alike (R : σ → τ → Prop) (report : Error → Prop) (s : Source σ) (s' : Source τ) :
    Prop where
  storage : R s.storage s'.storage
  diagnostics : s'.diagnostics = s.diagnostics
  reports : ∀ e ∈ s.diagnostics, report e

structure Engine.Alike (R : σ → τ → Prop) (report : Error → Prop) (e : Engine σ) (e' : Engine τ) :
    Prop where
  cache : e'.cache = e.cache
  source : Source.Alike R report e.source e'.source

variable {R : σ → τ → Prop} {usable : String → Prop} {report : Error → Prop}

namespace Source

theorem agree_onStorage {wanted : α → Prop} {act : EStateM Error σ α} {act' : EStateM Error τ α}
    (h : Agree R wanted act act') :
    Agree (Source.Alike R report) wanted (onStorage act) (onStorage act') :=
  agree_onPart h (fun _ _ hs => hs.storage) fun _ _ _ _ hs hst =>
    ⟨hst, hs.diagnostics, hs.reports⟩

theorem agree_absorb {wanted : α → Prop} {loaded : Loaded α} (hw : wanted loaded.value)
    (hr : ∀ e ∈ loaded.corruption, report e) :
    Agree (Source.Alike R report) wanted (absorb loaded) (absorb loaded) := by
  intro s s' hs
  refine ⟨hw, _, rfl, hs.storage, by rw [hs.diagnostics], fun e he => ?_⟩
  obtain he | he := List.mem_append.mp he
  · exact hs.reports e he
  · exact hr e (Option.mem_toList.mp he)

end Source

namespace Engine

theorem agree_onSource {wanted : α → Prop} {act : EStateM Error (Source σ) α}
    {act' : EStateM Error (Source τ) α} (h : Agree (Source.Alike R report) wanted act act') :
    Agree (Engine.Alike R report) wanted (onSource act) (onSource act') :=
  agree_onPart h (fun _ _ he => he.source) fun _ _ _ _ he hs => ⟨he.cache, hs⟩

theorem agree_loadPast {wanted : Loaded α → Prop} {act : EStateM Error σ (Loaded α)}
    {act' : EStateM Error τ (Loaded α)} {wanted' : α → Prop} (h : Agree R wanted act act')
    (hw : ∀ loaded, wanted loaded → wanted' loaded.value ∧ ∀ e ∈ loaded.corruption, report e) :
    Agree (Engine.Alike R report) wanted' (loadPast act) (loadPast act') :=
  agree_onSource ((Source.agree_onStorage h).bind fun loaded hl =>
    Source.agree_absorb (hw loaded hl).1 (hw loaded hl).2)

theorem agree_change {act : EStateM Error σ Unit} {act' : EStateM Error τ Unit}
    (h : Agree R (fun _ => True) act act') :
    Agree (Engine.Alike R report) (fun _ => True) (change act) (change act') := by
  refine (agree_onSource (Source.agree_onStorage h)).bind fun _ _ => ?_
  intro e e' he
  exact ⟨trivial, _, rfl, by rw [he.cache], he.source⟩

variable [Storage σ] [Storage τ]

theorem agree_scanTable (alike : Storage.Alike R usable report) {key : Fingerprint}
    (hk : usable key.table) :
    Agree (Engine.Alike R report) (fun _ => True) (select.scanTable key)
      (select.scanTable key) := by
  have hload : Agree (Source.Alike R report) (fun _ => True) (Source.loadRows (σ := σ) key.table)
      (Source.loadRows key.table) :=
    (Source.agree_onStorage (alike.loadTable key.table hk)).bind fun loaded hl =>
      Source.agree_absorb trivial hl
  intro e e' he
  have hs := hload e.source e'.source he.source
  rw [Ensures] at hs ⊢
  simp only [select.scanTable, onPart, ScanCache.getOrLoad, ScanCache.get, he.cache]
  cases e.cache.peek key with
  | some rows => exact ⟨trivial, _, rfl, rfl, he.source⟩
  | none =>
      cases hl : Source.loadRows key.table e.source with
      | ok rows s =>
          rw [hl] at hs
          obtain ⟨-, s', ht, hst⟩ := hs
          simp only [ht]
          exact ⟨trivial, _, rfl, rfl, hst⟩
      | error err s =>
          rw [hl] at hs
          obtain ⟨s', ht, hst⟩ := hs
          simp only [ht]
          exact ⟨_, rfl, rfl, hst⟩

end Engine

/-! ## Commands -/

/-- The table that a plan uses, if any. -/
def Plan.table? : Plan → Option String
  | answer _ => none
  | scan key _ => some key.table
  | visit table _ => some table
  | create schema | drop schema => some schema.name

theorem Registry.mem_names_of_schema {r : Registry} {table : String} {s : Schema}
    (h : r.schema table = .ok s) : table ∈ r.names := by
  refine Classical.byContradiction fun hn => ?_
  have hg := Registry.get?_of_schema h
  rw [Registry.get?, KeyedList.get?, KeyedList.lookupIn_eq_none hn] at hg
  cases hg

namespace Command

/-- A table that the command creates, if it creates one, is usable. -/
def CreatesOnly (usable : String → Prop) (c : Command) : Prop :=
  ∀ table specs schema, c = createTable table specs → Schema.define table specs = .ok schema →
    usable table

/-- A plan uses the tables of the registry, and one that the command creates. -/
theorem usable_of_planned {r : Registry} {c : Command} {p : Plan} (hc : c.CreatesOnly usable)
    (hr : ∀ t ∈ r.names, usable t) (h : Planned r c p) :
    (∀ t, p.table? = some t → usable t) ∧ ∀ t ∈ (p.onRegistry r).names, usable t := by
  cases h with
  | listTables => exact ⟨nofun, hr⟩
  | createTable _ defined =>
      have hu := hc _ _ _ rfl defined
      rw [← Schema.define_name defined] at hu
      refine ⟨fun t ht => Option.some.inj ht ▸ hu, fun t ht => ?_⟩
      obtain rfl | ht := KeyedList.mem_keys_insert.mp ht
      · exact hu
      · exact hr t ht
  | dropTable found =>
      have hu := hr _ (Registry.mem_names_of_schema found)
      rw [← Registry.schema_name found] at hu
      exact ⟨fun t ht => Option.some.inj ht ▸ hu, fun t ht =>
        hr t (KeyedList.mem_keys_of_mem_erase ht)⟩
  | infoTable found | insert found _ | select found _ | update found _ _ | delete found _ =>
      have hu := hr _ (Registry.mem_names_of_schema found)
      exact ⟨fun t ht => Option.some.inj ht ▸ hu, hr⟩

end Command

section
variable [Storage σ] [Storage τ] (alike : Storage.Alike R usable report)
include alike

theorem Plan.agree (p : Plan) (hp : ∀ t, p.table? = some t → usable t) :
    Agree (Engine.Alike R report) (fun _ => True) (p.onEngine (σ := σ)) p.onEngine := by
  cases p with
  | answer reply => exact agree_pure trivial
  | scan key reply =>
      exact (Engine.agree_scanTable alike (hp key.table rfl)).bind fun _ _ => agree_pure trivial
  | visit table next =>
      have hload : Agree (Engine.Alike R report) (fun _ => True) (Engine.loadRows (σ := σ) table)
          (Engine.loadRows table) :=
        Engine.agree_loadPast (alike.loadTable table (hp table rfl)) fun _ hl => ⟨trivial, hl⟩
      refine hload.bind fun rows _ => ?_
      have hnext : Agree (Engine.Alike R report) (fun _ => True)
          (ofExcept (next rows) : EStateM Error (Engine σ) _) (ofExcept (next rows)) :=
        agree_ofExcept fun _ _ => trivial
      refine hnext.bind fun found _ => ?_
      obtain ⟨reply, write⟩ := found
      cases write with
      | none => exact agree_pure trivial
      | some rows' =>
          exact (Engine.agree_change (alike.saveTable table rows' (hp table rfl))).bind
            fun _ _ => agree_pure trivial
  | create schema =>
      exact (Engine.agree_change (alike.saveTable schema.name [] (hp schema.name rfl))).bind
        fun _ _ => agree_pure trivial
  | drop schema =>
      exact (Engine.agree_change (alike.removeTable schema.name (hp schema.name rfl))).bind
        fun _ _ => agree_pure trivial

namespace Command

theorem agree_run {c : Command} (hc : c.CreatesOnly usable) :
    Agree (Engine.Alike R report) (fun _ => True) (c.run (σ := σ)) c.run := by
  simp only [run_eq]
  have hload : Agree (Engine.Alike R report) (fun r : Registry => ∀ t ∈ r.names, usable t)
      (Engine.loadRegistry (σ := σ)) Engine.loadRegistry :=
    Engine.agree_loadPast alike.loadRegistry fun _ hl => hl
  refine hload.bind fun r hr => ?_
  have hplan : Agree (Engine.Alike R report)
      (fun p : Plan => (∀ t, p.table? = some t → usable t) ∧ ∀ t ∈ (p.onRegistry r).names, usable t)
      (ofExcept (c.plan r) : EStateM Error (Engine σ) _) (ofExcept (c.plan r)) :=
    agree_ofExcept fun p hp => usable_of_planned hc hr (planned hp)
  refine hplan.bind fun p hp => ?_
  refine (p.agree alike hp.1).bind fun reply _ => ?_
  split
  · have hsave : Agree (Engine.Alike R report) (fun _ => True)
        (Engine.saveRegistry (σ := σ) (p.onRegistry r)) (Engine.saveRegistry (p.onRegistry r)) :=
      Engine.agree_onSource (Source.agree_onStorage (alike.saveRegistry _ hp.2))
    exact hsave.bind fun _ _ => agree_pure trivial
  · exact agree_pure trivial

end Command

end

/-! ## Runs -/

/-- What a caller sees after a command: its outcome, the counters of the cache, the number of
scans in it, and the reports that nobody has collected yet. -/
structure Observation where
  outcome : Except Error Reply
  stats : CacheStats
  scans : Nat
  diagnostics : List Error

/-- What a caller sees after each of the commands. -/
def Engine.transcript [Storage σ] : List Command → Engine σ → List Observation
  | [], _ => []
  | c :: rest, e =>
    let e' := finalState (c.run e)
    ⟨outcome (c.run e), e'.cache.stats, e'.cache.size, e'.source.diagnostics⟩ ::
      transcript rest e'

section
variable [Storage σ] [Storage τ] (alike : Storage.Alike R usable report)
include alike

/-- The same can be seen of two engines over storages that behave alike, and all that they
report are reports. -/
theorem Engine.Alike.transcript_eq {e : Engine σ} {e' : Engine τ}
    (h : Engine.Alike R report e e') {cs : List Command} (hc : ∀ c ∈ cs, c.CreatesOnly usable) :
    e.transcript cs = e'.transcript cs ∧ ∀ o ∈ e.transcript cs, ∀ d ∈ o.diagnostics, report d := by
  induction cs generalizing e e' with
  | nil => exact ⟨rfl, nofun⟩
  | cons c cs ih =>
      obtain ⟨ho, hfinal⟩ := (Command.agree_run alike (hc c List.mem_cons_self)).outcome_eq h
      obtain ⟨hrest, hreports⟩ := ih hfinal fun c' hc' => hc c' (List.mem_cons_of_mem _ hc')
      refine ⟨?_, List.forall_mem_cons.mpr ⟨hfinal.source.reports, hreports⟩⟩
      simp only [Engine.transcript, ho, hrest, hfinal.cache, hfinal.source.diagnostics]

/-- Runs from related states end in related states. -/
theorem Engine.Alike.after_run {e : Engine σ} {e' : Engine τ} (h : Engine.Alike R report e e')
    {cs : List Command} (hc : ∀ c ∈ cs, c.CreatesOnly usable) :
    Engine.Alike R report (runAll (cs.map Command.run) e).2
      (runAll (cs.map Command.run) e').2 :=
  (runAll_agree (fun c hmem => Command.agree_run alike (hc c hmem)) h).2

end

/-! ## Invariants -/

/-- Whatever calls a storage serves, and whatever becomes of them, `inv` is kept. -/
structure Storage.Keeps [Storage σ] (inv : σ → Prop) : Prop where
  loadRegistry : ∀ s : σ, inv s → inv (finalState (Storage.loadRegistry s))
  saveRegistry : ∀ r (s : σ), inv s → inv (finalState (Storage.saveRegistry r s))
  loadTable : ∀ t (s : σ), inv s → inv (finalState (Storage.loadTable t s))
  saveTable : ∀ t rows (s : σ), inv s → inv (finalState (Storage.saveTable t rows s))
  removeTable : ∀ t (s : σ), inv s → inv (finalState (Storage.removeTable t s))

section
variable {inv : σ → Prop}

/-- An action that keeps an invariant agrees with itself. -/
theorem agree_self {wanted : α → Prop} {act : EStateM ε σ α}
    (h : ∀ s, inv s → inv (finalState (act s))) (hw : ∀ a, wanted a) :
    Agree (fun s t => t = s ∧ inv s) wanted act act := by
  refine agree_of_outcome hw ?_
  rintro _ s ⟨rfl, hs⟩
  exact ⟨rfl, rfl, h s hs⟩

namespace Storage.Keeps

variable [Storage σ] (keeps : Storage.Keeps inv)
include keeps

theorem alike_self : Storage.Alike (fun s t : σ => t = s ∧ inv s) (fun _ => True) fun _ => True where
  loadRegistry := agree_self keeps.loadRegistry fun _ => ⟨fun _ _ => trivial, fun _ _ => trivial⟩
  saveRegistry r _ := agree_self (keeps.saveRegistry r) fun _ => trivial
  loadTable t _ := agree_self (keeps.loadTable t) fun _ _ _ => trivial
  saveTable t rows _ := agree_self (keeps.saveTable t rows) fun _ => trivial
  removeTable t _ := agree_self (keeps.removeTable t) fun _ => trivial

/-- What the calls of a storage keep is kept by every run of commands. -/
theorem after_run {e : Engine σ} (he : inv e.source.storage) (cs : List Command) :
    inv (runAll (cs.map Command.run) e).2.source.storage := by
  have h : Engine.Alike (fun s t : σ => t = s ∧ inv s) (fun _ => True) e e :=
    ⟨rfl, ⟨rfl, he⟩, rfl, fun _ _ => trivial⟩
  exact (h.after_run keeps.alike_self fun _ _ _ _ _ _ _ => trivial).source.storage.2

end Storage.Keeps
end

end TableStore
