import Mathlib.Data.List.Forall2
import TableStore.Proofs.Definition
import TableStore.Proofs.Interchange
import TableStore.Proofs.Requests
import TableStore.Proofs.WellFormed

/-!
The catalogue of a database as its history tells it. The tables are those whose creation has not
been followed by a drop, in the order of their creations, and each has the columns that were
asked for then.
-/

namespace TableStore

/-! ## Histories -/

/-- A command with its outcome. -/
structure Event where
  command : Command
  outcome : Except Error Reply

namespace Event

/-- The table and the requested columns of a creation that succeeded. -/
def creation? : Event → Option (String × List ColumnSpec)
  | ⟨.createTable table specs, .ok _⟩ => some (table, specs)
  | _ => none

/-- The table of a drop that succeeded. -/
def drop? : Event → Option String
  | ⟨.dropTable table, .ok _⟩ => some table
  | _ => none

/-- The event is a successful creation or drop of the table. -/
def Settles (event : Event) (table : String) : Prop :=
  event.creation?.map Prod.fst = some table ∨ event.drop? = some table

instance (event : Event) (table : String) : Decidable (event.Settles table) :=
  inferInstanceAs (Decidable (_ ∨ _))

end Event

/-- The creations that stand at the end of a history: those that no successful creation or drop
of the same table has followed, in order. -/
def catalogue : List Event → List (String × List ColumnSpec)
  | [] => []
  | event :: later =>
    match event.creation? with
    | none => catalogue later
    | some (table, specs) =>
      if ∃ other ∈ later, other.Settles table then catalogue later
      else (table, specs) :: catalogue later

theorem mem_catalogue {history : List Event} {table : String} {specs : List ColumnSpec} :
    (table, specs) ∈ catalogue history ↔
      ∃ before event after, history = before ++ event :: after ∧
        event.creation? = some (table, specs) ∧ ∀ later ∈ after, ¬ later.Settles table := by
  induction history with
  | nil => simp [catalogue]
  | cons first later ih =>
      have hsplit : (∃ before event after, first :: later = before ++ event :: after ∧
          event.creation? = some (table, specs) ∧ ∀ other ∈ after, ¬ other.Settles table) ↔
          (first.creation? = some (table, specs) ∧ ∀ other ∈ later, ¬ other.Settles table) ∨
            (table, specs) ∈ catalogue later := by
        rw [ih]
        constructor
        · rintro ⟨before, event, after, he, h⟩
          cases before with
          | nil =>
              cases he
              exact .inl h
          | cons _ before =>
              cases he
              exact .inr ⟨before, event, after, rfl, h⟩
        · rintro (h | ⟨before, event, after, rfl, h⟩)
          · exact ⟨[], first, later, rfl, h⟩
          · exact ⟨first :: before, event, after, rfl, h⟩
      rw [hsplit, catalogue]
      cases hc : first.creation? with
      | none => simp
      | some creation =>
          obtain ⟨table', specs'⟩ := creation
          simp only
          split
          · next hs =>
              refine (or_iff_right ?_).symm
              rintro ⟨he, hnone⟩
              cases he
              obtain ⟨other, hm, hs⟩ := hs
              exact hnone other hm hs
          · next hs =>
              rw [List.mem_cons, Option.some.injEq, eq_comm]
              refine or_congr_left (iff_self_and.mpr ?_)
              rintro he other hm hs'
              cases he
              exact hs ⟨other, hm, hs'⟩

/-- One event more takes the table that it settles out of the catalogue, and puts it at the end if
it is a creation. -/
theorem catalogue_concat (history : List Event) (event : Event) :
    catalogue (history ++ [event]) =
      (catalogue history).filter (fun t => ¬ event.Settles t.1) ++ event.creation?.toList := by
  induction history with
  | nil =>
      simp only [List.nil_append, catalogue, List.filter_nil]
      cases event.creation? with
      | none => rfl
      | some creation => simp
  | cons first later ih =>
      simp only [List.cons_append, catalogue]
      cases first.creation? with
      | none => exact ih
      | some creation =>
          obtain ⟨table, specs⟩ := creation
          have hlast : (∃ other ∈ later ++ [event], other.Settles table) ↔
              (∃ other ∈ later, other.Settles table) ∨ event.Settles table := by
            simp only [List.mem_append, List.mem_singleton, or_and_right, exists_or, exists_eq_left]
          simp only [hlast]
          by_cases hlater : ∃ other ∈ later, other.Settles table
          · simp only [hlater, true_or, if_true, ih]
          · simp only [hlater, false_or, if_false, ih]
            by_cases hs : event.Settles table
            · rw [if_pos hs, List.filter_cons_of_neg (by simpa using hs)]
            · rw [if_neg hs, List.filter_cons_of_pos (by simpa using hs), List.cons_append]

/-! ## Registries -/

/-- The columns of a definition: those requested, in order, with the types that were named. -/
def Requested (specs : List ColumnSpec) (columns : List Column) : Prop :=
  List.Forall₂ (fun spec c => c.name = spec.name ∧ DataType.parse? spec.typeName = some c.type)
    specs columns

theorem Schema.requested_of_define {table : String} {specs : List ColumnSpec} {s : Schema}
    (h : define table specs = .ok s) :
    s.name = table ∧ ∃ columns, s.columns = .id :: columns ∧ Requested specs columns := by
  obtain ⟨-, columns, hasked, rfl⟩ := define_eq_ok.mp h
  exact ⟨rfl, columns, rfl, hasked.imp fun _ _ ⟨hname, htype⟩ =>
    ⟨hname, DataType.parse?_eq_some.mpr htype⟩⟩

/-- The registry has the tables of the catalogue in their order, with their columns. -/
def Recorded (history : List Event) (r : Registry) : Prop :=
  List.Forall₂
    (fun t entry => entry.1 = t.1 ∧ ∃ columns, entry.2 = .id :: columns ∧ Requested t.2 columns)
    (catalogue history) r.tables.entries

theorem recorded_empty : Recorded [] .empty := List.Forall₂.nil

namespace Recorded

variable {history : List Event} {r : Registry} {event : Event} {table : String}
  {specs : List ColumnSpec}

theorem names (h : Recorded history r) : r.names = (catalogue history).map Prod.fst := by
  have heq : List.Forall₂ Eq ((catalogue history).map Prod.fst) (r.tables.entries.map Prod.fst) := by
    rw [List.forall₂_map_left_iff, List.forall₂_map_right_iff]
    exact h.imp fun _ _ ht => ht.1.symm
  rw [List.forall₂_eq_eq_eq] at heq
  exact heq.symm

theorem get? (h : Recorded history r) (ht : (table, specs) ∈ catalogue history) :
    ∃ columns, r.get? table = some ⟨table, .id :: columns⟩ ∧ Requested specs columns := by
  obtain ⟨⟨_, _⟩, hm, rfl, columns, rfl, hr⟩ := exists_mem_of_forall₂ h ht
  refine ⟨columns, ?_, hr⟩
  rw [Registry.get?, KeyedList.get?_of_mem_entries hm]
  rfl

theorem get?_eq_none (h : Recorded history r) (ht : table ∉ (catalogue history).map Prod.fst) :
    r.get? table = none := by
  rw [← h.names] at ht
  rw [Registry.get?, KeyedList.get?_eq_none_iff.mpr ht]
  rfl

end Recorded

/-! ## Commands -/

/-- How an event accords with the history before it. -/
structure Event.Accords (history : List Event) (event : Event) : Prop where
  listed : event.command = .listTables → event.outcome = .ok (.tables
    (if catalogue history = [] then none else some ((catalogue history).map Prod.fst)))
  described : ∀ table specs, event.command = .infoTable table → (table, specs) ∈ catalogue history →
    ∃ columns rowCount, Requested specs columns ∧
      event.outcome = .ok (.info ⟨table, .id :: columns, rowCount⟩)
  unknown : ∀ table, event.command = .infoTable table →
    table ∉ (catalogue history).map Prod.fst → event.outcome = .error (.tableNotFound table)
  kept : event.creation? = none → event.drop? = none →
    catalogue (history ++ [event]) = catalogue history

/-- Every event accords with the given history and the events before it. -/
def Accordant (history events : List Event) : Prop :=
  ∀ before event after, events = before ++ event :: after → event.Accords (history ++ before)

theorem Accordant.cons {history events : List Event} {event : Event} (h : event.Accords history)
    (later : Accordant (history ++ [event]) events) : Accordant history (event :: events) := by
  intro before other after he
  cases before with
  | nil =>
      cases he
      rwa [List.append_nil]
  | cons first before =>
      obtain ⟨hfirst, hlater⟩ := List.cons.inj he
      subst hfirst
      rw [← List.singleton_append, ← List.append_assoc]
      exact later before other after hlater

/-- Commands with these outcomes keep a catalogue. -/
def Catalogued (cs : List Command) (outcomes : List (Except Error Reply)) : Prop :=
  ∃ events : List Event, events.map Event.command = cs ∧ events.map Event.outcome = outcomes ∧
    Accordant [] events

theorem catalogue_concat_of_none {history : List Event} {event : Event}
    (hc : event.creation? = none) (hd : event.drop? = none) :
    catalogue (history ++ [event]) = catalogue history := by
  have hs : ∀ table, ¬ event.Settles table := by
    intro table
    simp [Event.Settles, hc, hd]
  simp only [catalogue_concat, hc, hs, not_false_eq_true, decide_true, List.filter_true,
    Option.toList_none, List.append_nil]

namespace Command

variable {history : List Event} {d : Contents}

theorem registry_runDirect (c : Command) (d : Contents) :
    Ensures c.runDirect d
      (fun _ d' => ∃ p, Planned d.registry c p ∧ d'.registry = p.onRegistry d.registry)
      fun _ d' => d'.registry = d.registry := by
  refine ensures_bind ?_
  change Ensures (ofExcept (c.plan d.registry) >>= _) d _ _
  refine ensures_bind (ensures_ofExcept ?_ fun _ _ => rfl)
  intro p hp
  refine ensures_bind (ensures_of_cases ?_ ?_)
  · intro reply d' h
    cases hm : c.isMutating with
    | true => exact ⟨p, planned hp, rfl⟩
    | false =>
        refine ⟨p, planned hp, ?_⟩
        rw [onRegistry_of_not_mutating hm hp]
        exact Plan.registry_of_onStorage h
  · intro err d' h
    cases p with
    | answer _ | scan _ _ | create _ | drop _ => cases h
    | visit table next =>
        rw [Plan.onStorage_visit] at h
        split at h <;> cases h
        rfl

theorem recorded_createTable {r : Registry} {table : String} {specs : List ColumnSpec}
    {schema : Schema} (h : Recorded history r) (absent : r.contains table = false)
    (defined : Schema.define table specs = .ok schema) (reply : Reply) :
    Recorded (history ++ [⟨.createTable table specs, .ok reply⟩]) (r.insert schema) := by
  obtain ⟨rfl, columns, hc, hr⟩ := Schema.requested_of_define defined
  have hnew : schema.name ∉ r.tables.keys := by
    rw [← KeyedList.get?_eq_none_iff, ← Option.isNone_iff_eq_none, ← Option.not_isSome]
    simpa [Registry.contains, KeyedList.contains] using absent
  have hkept : (catalogue history).filter (fun t =>
      ¬ Event.Settles ⟨.createTable schema.name specs, .ok reply⟩ t.1) = catalogue history := by
    refine List.filter_eq_self.mpr fun t ht => ?_
    have hne : schema.name ≠ t.1 := by
      intro he
      refine hnew (he ▸ ?_)
      change t.1 ∈ r.names
      rw [h.names]
      exact List.mem_map_of_mem ht
    simpa [Event.Settles, Event.creation?, Event.drop?] using hne
  rw [Recorded, catalogue_concat, hkept, Registry.insert, KeyedList.entries_insert_of_not_mem hnew]
  exact List.rel_append h (.cons ⟨rfl, columns, hc, hr⟩ .nil)

theorem recorded_dropTable {r : Registry} (h : Recorded history r) (table : String)
    (reply : Reply) : Recorded (history ++ [⟨.dropTable table, .ok reply⟩]) (r.erase table) := by
  have hnone : (⟨.dropTable table, .ok reply⟩ : Event).creation?.toList = [] := rfl
  rw [Recorded, catalogue_concat, hnone, List.append_nil, Registry.erase, KeyedList.entries_erase]
  refine List.rel_filter ?_ h
  intro t entry hentry
  have hs : Event.Settles ⟨.dropTable table, .ok reply⟩ t.1 ↔ t.1 = table := by
    simp only [Event.Settles, Event.creation?, Event.drop?, Option.map_none, reduceCtorEq, false_or,
      Option.some.injEq]
    exact eq_comm
  simp only [decide_eq_true_eq, hs, hentry.1, ne_eq]

/-- The registry records the history, and so does the one after a command. -/
theorem recorded_runDirect (h : Recorded history d.registry) (c : Command) :
    Recorded (history ++ [⟨c, outcome (c.runDirect d)⟩]) (finalState (c.runDirect d)).registry := by
  refine Ensures.ends (P := fun out d' => Recorded (history ++ [⟨c, out⟩]) d'.registry)
    ((registry_runDirect c d).mono ?_ ?_)
  · rintro reply d' ⟨p, hp, hr⟩
    rw [hr]
    cases hp with
    | listTables | infoTable _ | insert _ _ | select _ _ | update _ _ _ | delete _ _ =>
        rw [Recorded, catalogue_concat_of_none rfl rfl]
        exact h
    | createTable absent defined => exact recorded_createTable h absent defined reply
    | dropTable found =>
        cases Registry.schema_name found
        exact recorded_dropTable h _ reply
  · intro err d' hr
    have hnone : catalogue (history ++ [⟨c, .error err⟩]) = catalogue history := by
      refine catalogue_concat_of_none ?_ ?_ <;> cases c <;> rfl
    rw [hr, Recorded, hnone]
    exact h

/-- A command to contents whose registry records the history accords with it. -/
theorem accords_runDirect (h : Recorded history d.registry) (c : Command) :
    Event.Accords history ⟨c, outcome (c.runDirect d)⟩ where
  listed hc := by
    cases hc
    have hempty : d.registry.isEmpty = true ↔ catalogue history = [] := by
      rw [Registry.isEmpty, KeyedList.isEmpty, List.isEmpty_iff, ← List.map_eq_nil_iff (f := Prod.fst),
        ← List.map_eq_nil_iff (l := catalogue history) (f := Prod.fst), ← h.names]
      rfl
    change Except.ok (Reply.tables d.registry.listing) = _
    simp only [Registry.listing, hempty, h.names]
  described table specs hc ht := by
    cases hc
    obtain ⟨columns, hg, hr⟩ := h.get? ht
    refine ⟨columns, (d.rows table).length, hr, ?_⟩
    rw [outcome_runDirect Contents.calm rfl]
    change (infoTable table).answer d.registry d = _
    rw [answer_infoTable, Registry.schema_eq_ok.mpr hg]
    rfl
  unknown table hc ht := by
    cases hc
    rw [outcome_runDirect Contents.calm rfl]
    change (infoTable table).answer d.registry d = _
    rw [answer_infoTable, Registry.schema_eq_error.mpr ⟨h.get?_eq_none ht, rfl⟩]
    rfl
  kept := catalogue_concat_of_none

/-- Every command of a run accords with what came before it. -/
theorem accordant_runDirect (h : Recorded history d.registry) (cs : List Command) :
    ∃ events : List Event, events.map Event.command = cs ∧
      events.map Event.outcome = (runAll (cs.map runDirect) d).1 ∧ Accordant history events := by
  induction cs generalizing history d with
  | nil =>
      refine ⟨[], rfl, rfl, fun before event after he => ?_⟩
      cases before <;> cases he
  | cons c cs ih =>
      obtain ⟨events, hcommands, houtcomes, hevents⟩ := ih (recorded_runDirect h c)
      refine ⟨⟨c, outcome (c.runDirect d)⟩ :: events, ?_, ?_, .cons (accords_runDirect h c) hevents⟩
      · rw [List.map_cons, hcommands]
      · rw [List.map_cons, houtcomes]
        rfl

end Command

/-! ## Databases -/

theorem catalogued_memory (cacheEnabled : Bool) (cs : List Command) :
    Catalogued cs
      (runAll (cs.map Command.run) (Engine.create cacheEnabled MemoryStorage.empty)).1 := by
  have hrun := runAll_mirrors (Command.mirrors_run Contents.calm MemoryStorage.shows) cs
    (Engine.coherent_create cacheEnabled (s := MemoryStorage.empty) trivial)
  rw [hrun.1]
  exact Command.accordant_runDirect (d := MemoryStorage.empty.contents) recorded_empty cs

/-- The requests of callers who hold no registries. -/
def Command.requests (cs : List Command) : List Request := cs.map fun c => ⟨none, c⟩

theorem outcomes_serve {σ : Type} [Storage σ] (cs : List Command) (w : Session (Engine σ)) :
    (runAll ((Command.requests cs).map Request.serve) w).1 =
      (runAll (cs.map Command.run) w.base).1 := by
  have hserve (c : Command) : Mirrors (fun _ => True) Session.base
      (⟨none, c⟩ : Request).serve (c.run : EStateM Error (Engine σ) Reply) := fun _ _ =>
    ensures_onPart (ensures_of_cases (fun _ _ h => ⟨h, trivial⟩) fun _ _ h => ⟨h, trivial⟩)
  rw [Command.requests, List.map_map]
  exact (runAll_mirrors hserve cs trivial).1

/-- A database in files that start in an empty directory answers like one in memory. -/
theorem catalogued_sitting {fs : FileSystem} {root : Path} (hv : fs.Vacant root)
    (cacheEnabled : Bool) (registries : String → Registry) {cs : List Command}
    (hcs : ∀ c ∈ cs, ∀ t, c.table? = some t → t.utf8ByteSize ≤ 246) :
    ∃ outcomes w, Session.sitting root cacheEnabled (Command.requests cs) ⟨registries, fs⟩ =
      .ok outcomes w ∧ Catalogued cs outcomes := by
  obtain ⟨d, fs', hopening, hopened⟩ := hv.opening
  have halike : Engine.Alike (FileStorage.StandsFor root) (fun _ => False)
      (Engine.create cacheEnabled (FileStorage.under root fs')) (Engine.create cacheEnabled .empty) :=
    ⟨rfl, hopened.standsFor hv.fits, rfl, nofun⟩
  have hsame := runAll_agree (fun c hc => Command.agree_run (FileStorage.alike_standsFor root)
    (Command.createsOnly_usable (hcs c hc))) halike
  have hsitting : Session.sitting root cacheEnabled (Command.requests cs) ⟨registries, fs⟩ =
      let run := runAll ((Command.requests cs).map Request.serve)
        ⟨registries, Engine.create cacheEnabled (FileStorage.under root fs')⟩
      .ok run.1 ⟨run.2.registries, run.2.base.source.storage.files⟩ := by
    rw [Session.sitting, Session.openFiles_eq, hopening]
  refine ⟨_, _, hsitting, ?_⟩
  rw [outcomes_serve, hsame.1]
  exact catalogued_memory cacheEnabled cs

/-- The catalogue is the history of creations and drops. This holds for every run of commands over
a new memory, and over files that start in an empty directory, as long as no table has a name of
more than 246 bytes, with the database closed and opened again any number of times. -/
theorem catalogue_exact {fs : FileSystem} {root : Path} (hv : fs.Vacant root)
    (registries : String → Registry) {sittings : List (Bool × List Command)}
    (hs : ∀ s ∈ sittings, ∀ c ∈ s.2, ∀ t, c.table? = some t → t.utf8ByteSize ≤ 246) :
    (∀ cacheEnabled cs, Catalogued cs
      (runAll (cs.map Command.run) (Engine.create cacheEnabled MemoryStorage.empty)).1) ∧
    ∃ outcomes w,
      Session.sittings root (sittings.map fun s => (s.1, Command.requests s.2)) ⟨registries, fs⟩ =
        .ok outcomes w ∧ Catalogued (sittings.flatMap Prod.snd) outcomes := by
  refine ⟨catalogued_memory, ?_⟩
  cases sittings with
  | nil =>
      refine ⟨[], _, rfl, [], rfl, rfl, fun before event after he => ?_⟩
      cases before <;> cases he
  | cons s rest =>
      have hcs : ∀ c ∈ (s :: rest).flatMap Prod.snd, ∀ t, c.table? = some t →
          t.utf8ByteSize ≤ 246 := by
        intro c hc
        obtain ⟨s', hs', hc⟩ := List.mem_flatMap.mp hc
        exact hs s' hs' c hc
      rw [List.map_cons, Session.sittings_eq root s.1 s.1]
      have hrequests : Command.requests s.2 ++
          (rest.map fun s => (s.1, Command.requests s.2)).flatMap Prod.snd =
            Command.requests ((s :: rest).flatMap Prod.snd) := by
        simp only [Command.requests, List.flatMap_cons, List.map_append, List.flatMap_map,
          List.map_flatMap]
      rw [hrequests]
      exact catalogued_sitting hv s.1 registries hcs

/-- A table is dropped, and after a reopening created again with another column. -/
theorem catalogue_exact_default :
    let sittings := [(true, [.createTable "t" [⟨"note", "str"⟩], .createTable "u" [], .dropTable "t"]),
      (false, [.createTable "t" [⟨"n", " Int"⟩], .listTables, .infoTable "t"])]
    (∀ cacheEnabled cs, Catalogued cs
      (runAll (cs.map Command.run) (Engine.create cacheEnabled MemoryStorage.empty)).1) ∧
    ∃ outcomes w,
      Session.sittings ⟨""⟩ (sittings.map fun s => (s.1, Command.requests s.2))
          ⟨fun _ => .empty, .empty⟩ = .ok outcomes w ∧
        Catalogued (sittings.flatMap Prod.snd) outcomes := by
  refine catalogue_exact FileSystem.vacant_empty _ ?_
  decide

end TableStore
