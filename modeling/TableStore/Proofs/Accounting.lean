import Mathlib.Data.List.Dedup
import TableStore.Proofs.Canonical
import TableStore.Proofs.Counting
import TableStore.Proofs.Plan
import TableStore.Storage.Memory

/-!
What a database in memory counts. Every counter of its storage and of its cache, and the number
of cached scans, can be told from the history of its commands: from what was asked, from the
registry that the request was checked against, and from the outcome.
-/

namespace TableStore

/-! ## Histories -/

/-- A command as it was answered. -/
structure Record where
  command : Command
  /-- The registry that the command met. -/
  registry : Registry
  outcome : Except Error Reply

namespace Command

/-- What a selection reads: the table, through the filter. -/
def read? : Command → Option (String × Option Predicate)
  | select table filter => some (table, filter)
  | createTable _ _ | dropTable _ | listTables | infoTable _ | insert _ _ | update _ _ _
  | delete _ _ => none

/-- Whether the rows of a table are loaded past the cache, once the request has been checked. -/
def isVisit : Command → Bool
  | infoTable _ | insert _ _ | update _ _ _ | delete _ _ => true
  | createTable _ _ | dropTable _ | listTables | select _ _ => false

def isDrop : Command → Bool
  | dropTable _ => true
  | createTable _ _ | listTables | infoTable _ | insert _ _ | select _ _ | update _ _ _
  | delete _ _ => false

end Command

namespace Record

/-- The request passed all checks that come before any rows are loaded. -/
def passes (r : Record) : Bool := (r.command.plan r.registry).isOk

def succeeds (r : Record) : Bool := r.outcome.isOk

/-- A command that may change something succeeded. -/
def saves (r : Record) : Bool := r.command.isMutating && r.succeeds

/-- A command changed something: it succeeded, and did not find that no row matches. -/
def changes (r : Record) : Bool :=
  r.saves && match r.outcome with
    | .ok (.mutation .noMatch) => false
    | _ => true

/-- A command changed something and saved the rows of a table; one that drops a table does not. -/
def writes (r : Record) : Bool := r.changes && !r.command.isDrop

/-- A selection passed its checks. -/
def scans (r : Record) : Bool := r.command.read?.isSome && r.passes

/-- A command that loads rows past the cache passed its checks. -/
def visits (r : Record) : Bool := r.command.isVisit && r.passes

/-- What a selection that succeeded has read. -/
def selected? (r : Record) : Option (String × Option Predicate) :=
  r.command.read?.filter fun _ => r.succeeds

end Record

/-- What has been selected since the last change, in a history that has the latest record in
front. -/
def selections (past : List Record) : List (String × Option Predicate) :=
  (past.takeWhile (!·.changes)).filterMap Record.selected?

/-- A selection passed its checks, and nothing equal has been selected since the last change
before it. -/
def Record.misses (earlier : List Record) (r : Record) : Bool :=
  r.passes && r.command.read?.any (· ∉ selections earlier)

def missesIn : List Record → Nat
  | [] => 0
  | r :: earlier => missesIn earlier + (r.misses earlier).toNat

/-- The records of a run, the first one in front. -/
def Engine.records : List Command → Engine MemoryStorage → List Record
  | [], _ => []
  | c :: rest, e =>
    ⟨c, e.source.storage.registry, outcome (c.run e)⟩ :: records rest (finalState (c.run e))

theorem Engine.length_records (cs : List Command) (e : Engine MemoryStorage) :
    (e.records cs).length = cs.length := by
  induction cs generalizing e with
  | nil => rfl
  | cons c cs ih => rw [records, List.length_cons, List.length_cons, ih]

/-! ## Ledgers -/

/-- The counters of a storage and of a cache, and the distinct reads that are cached, the latest
in front. -/
structure Ledger where
  registryLoads : Nat
  registrySaves : Nat
  tableLoads : Nat
  tableSaves : Nat
  accesses : Nat
  misses : Nat
  invalidations : Nat
  reads : List (String × Option Predicate)

namespace Ledger

/-- The ledger of a history. -/
def account (past : List Record) : Ledger where
  registryLoads := past.length
  registrySaves := past.countP Record.saves
  tableLoads := missesIn past + past.countP Record.visits
  tableSaves := past.countP Record.writes
  accesses := past.countP Record.scans
  misses := missesIn past
  invalidations := past.countP Record.changes
  reads := (selections past).dedup

variable (l : Ledger)

def loadRegistry : Ledger := { l with registryLoads := l.registryLoads + 1 }

def saveRegistry : Ledger := { l with registrySaves := l.registrySaves + 1 }

def loadTable : Ledger := { l with tableLoads := l.tableLoads + 1 }

def saveTable : Ledger := { l with tableSaves := l.tableSaves + 1 }

def invalidate : Ledger := { l with invalidations := l.invalidations + 1, reads := [] }

def scan (read : String × Option Predicate) : Ledger :=
  if read ∈ l.reads then { l with accesses := l.accesses + 1 }
  else { l with
    accesses := l.accesses + 1
    misses := l.misses + 1
    tableLoads := l.tableLoads + 1
    reads := read :: l.reads }

end Ledger

/-- The ledger says what the engine has counted and cached. -/
structure Engine.Balances (l : Ledger) (e : Engine MemoryStorage) : Prop where
  registryLoads : e.source.storage.registryLoads = .ofNat l.registryLoads
  registrySaves : e.source.storage.registrySaves = .ofNat l.registrySaves
  tableLoads : e.source.storage.tableLoads = .ofNat l.tableLoads
  tableSaves : e.source.storage.tableSaves = .ofNat l.tableSaves
  accesses : e.cache.stats.accesses = .ofNat l.accesses
  outcomes : e.cache.stats.accesses = e.cache.stats.hits + e.cache.stats.misses
  misses : e.cache.stats.misses = .ofNat l.misses
  inserts : e.cache.stats.inserts = .ofNat l.misses
  invalidations : e.cache.stats.invalidations = .ofNat l.invalidations
  retention : e.cache.retains = true
  keys : e.cache.entries.keys = (l.reads.map Fingerprint.ofRead).reverse

namespace Engine

variable {l : Ledger} {e : Engine MemoryStorage}

theorem Balances.size (h : e.Balances l) : e.cache.size = l.reads.length := by
  have hl := congrArg List.length h.keys
  rwa [KeyedList.keys, List.length_map, List.length_reverse, List.length_map] at hl

theorem Balances.loadRegistry (h : e.Balances l) :
    Ensures loadRegistry e (fun r e' => r = e.source.storage.registry ∧ e'.Balances l.loadRegistry)
      fun _ _ => False := by
  refine ensures_loadPast ?_ fun _ _ h => by cases h
  rintro loaded s ⟨⟩
  exact ⟨rfl, { h with registryLoads := add_one_eq_ofNat h.registryLoads }⟩

theorem Balances.saveRegistry (h : e.Balances l) (r : Registry) :
    Ensures (saveRegistry r) e (fun _ e' => e'.Balances l.saveRegistry) fun _ _ => False := by
  refine ensures_saveRegistry ?_ fun _ _ h => by cases h
  rintro s ⟨⟩
  exact { h with registrySaves := add_one_eq_ofNat h.registrySaves }

theorem Balances.loadRows (h : e.Balances l) (table : String) :
    Ensures (loadRows table) e (fun _ e' => e'.Balances l.loadTable) fun _ _ => False := by
  refine ensures_loadPast ?_ fun _ _ h => by cases h
  rintro loaded s ⟨⟩
  exact { h with tableLoads := add_one_eq_ofNat h.tableLoads }

theorem Balances.withoutScans (h : e.Balances l) : e.withoutScans.Balances l.invalidate :=
  { h with invalidations := add_one_eq_ofNat h.invalidations, keys := rfl }

theorem Balances.saveRows (h : e.Balances l) (table : String) (rows : List Row) :
    Ensures (change (Storage.saveTable table rows)) e
      (fun _ e' => e'.Balances l.saveTable.invalidate) fun _ _ => False := by
  refine ensures_change ?_ fun _ _ h => by cases h
  rintro s ⟨⟩
  refine Balances.withoutScans (l := l.saveTable) ?_
  exact { h with tableSaves := add_one_eq_ofNat h.tableSaves }

theorem Balances.removeTable (h : e.Balances l) (table : String) :
    Ensures (change (Storage.removeTable table)) e (fun _ e' => e'.Balances l.invalidate)
      fun _ _ => False := by
  refine ensures_change ?_ fun _ _ h => by cases h
  rintro s ⟨⟩
  exact Balances.withoutScans { h with }

theorem Balances.mem_reads (h : e.Balances l) (read : String × Option Predicate) :
    e.cache.peek (.ofRead read) = none ↔ read ∉ l.reads := by
  rw [ScanCache.peek, KeyedList.get?_eq_none_iff, h.keys, List.mem_reverse,
    List.mem_map_of_injective Fingerprint.ofRead_injective]

/-- A scan loads its table if it has not been kept since the cache was last emptied. -/
theorem Balances.scanTable (h : e.Balances l) (read : String × Option Predicate) :
    Ensures (select.scanTable (.ofRead read)) e (fun _ e' => e'.Balances (l.scan read))
      fun _ _ => False := by
  refine ensures_scanTable ?_ ?_ fun _ _ _ h => by cases h
  · intro rows hp
    have hmem : read ∈ l.reads := by
      refine Classical.not_not.mp fun hn => ?_
      rw [(h.mem_reads read).mpr hn] at hp
      cases hp
    rw [Ledger.scan, if_pos hmem]
    exact { h with
      accesses := add_one_eq_ofNat h.accesses
      outcomes := CacheStats.outcomes_countLookup h.outcomes true }
  · rintro loaded s hp ⟨⟩
    have hmem := (h.mem_reads read).mp hp
    have hkey : Fingerprint.ofRead read ∉ e.cache.entries.keys := KeyedList.get?_eq_none_iff.mp hp
    rw [Ledger.scan, if_neg hmem, withScan, ScanCache.keep, if_pos (by exact h.retention)]
    exact { h with
      tableLoads := add_one_eq_ofNat h.tableLoads
      accesses := add_one_eq_ofNat h.accesses
      outcomes := CacheStats.outcomes_countLookup h.outcomes false
      misses := add_one_eq_ofNat h.misses
      inserts := add_one_eq_ofNat h.inserts
      keys := by
        rw [List.map_cons, List.reverse_cons, ← h.keys]
        exact KeyedList.keys_insert_of_not_mem hkey }

end Engine

/-! ## Accounts -/

theorem selections_cons (r : Record) (past : List Record) :
    selections (r :: past) = if r.changes then [] else r.selected?.toList ++ selections past := by
  rw [selections, List.takeWhile_cons]
  cases r.changes with
  | true => rfl
  | false =>
      simp only [Bool.not_false, ite_true, List.filterMap_cons, Bool.false_eq_true, ite_false]
      cases r.selected? <;> rfl

namespace Ledger

variable {past : List Record} {r : Record}

theorem account_cons : account (r :: past) =
    { registryLoads := past.length + 1
      registrySaves := past.countP Record.saves + r.saves.toNat
      tableLoads :=
        missesIn past + (r.misses past).toNat + (past.countP Record.visits + r.visits.toNat)
      tableSaves := past.countP Record.writes + r.writes.toNat
      accesses := past.countP Record.scans + r.scans.toNat
      misses := missesIn past + (r.misses past).toNat
      invalidations := past.countP Record.changes + r.changes.toNat
      reads := (if r.changes then [] else r.selected?.toList ++ selections past).dedup } := by
  simp only [account, List.length_cons, countP_cons_toNat, missesIn, selections_cons]

/-- A command that is refused counts for nothing. -/
theorem account_of_refused (hp : r.passes = false) (ho : r.succeeds = false) :
    account (r :: past) = (account past).loadRegistry := by
  have hread : r.selected? = none := by
    rw [Record.selected?, ho]
    cases r.command.read? <;> rfl
  simp only [account_cons, hread, Record.misses, Record.scans, Record.visits, Record.writes,
    Record.changes, Record.saves, hp, ho, Bool.false_and, Bool.and_false]
  rfl

/-- What a command that passed its checks does before the registry is saved. -/
def follow (l : Ledger) (r : Record) : Ledger :=
  match r.command with
  | .listTables => l
  | .select table filter => l.scan (table, filter)
  | .createTable _ _ => if r.changes then l.saveTable.invalidate else l
  | .dropTable _ => if r.changes then l.invalidate else l
  | .infoTable _ | .insert _ _ | .update _ _ _ | .delete _ _ =>
    if r.changes then l.loadTable.saveTable.invalidate else l.loadTable

theorem account_of_scan {read : String × Option Predicate} (hp : r.passes) (hs : r.succeeds)
    (hr : r.command.read? = some read) (hv : r.command.isVisit = false)
    (hm : r.command.isMutating = false) :
    account (r :: past) = (account past).loadRegistry.scan read := by
  simp only [account_cons, Record.misses, Record.scans, Record.visits, Record.writes,
    Record.changes, Record.saves, Record.selected?, hp, hs, hr, hv, hm, Option.any_some,
    Option.isSome_some, Option.filter_some, Bool.true_and, Bool.false_and, ite_true,
    Option.toList_some, List.singleton_append, Bool.false_eq_true, ite_false]
  have hmem : read ∈ (account past).loadRegistry.reads ↔ read ∈ selections past := List.mem_dedup
  -- A read that was selected before is not counted again among the distinct ones.
  by_cases h : read ∈ selections past
  · rw [scan, if_pos (hmem.mpr h), List.dedup_cons_of_mem h, decide_eq_false (not_not_intro h)]
    rfl
  · rw [scan, if_neg (mt hmem.mp h), List.dedup_cons_of_notMem h, decide_eq_true h,
      Nat.add_right_comm]
    rfl

theorem account_of_passed (hp : r.passes) (hs : r.succeeds ∨ r.command.read? = none) :
    account (r :: past) =
      if r.saves then ((account past).loadRegistry.follow r).saveRegistry
      else (account past).loadRegistry.follow r := by
  obtain ⟨c, registry, o⟩ := r
  cases c with
  | select table filter =>
      exact account_of_scan hp (hs.resolve_right nofun) rfl rfl rfl
  | listTables | infoTable _ =>
      rw [account_cons, Record.misses, Record.scans, Record.visits, hp]
      rfl
  | createTable _ _ | dropTable _ | insert _ _ | update _ _ _ | delete _ _ =>
      rw [account_cons, Record.misses, Record.scans, Record.visits, Record.writes, hp, follow]
      cases Record.changes _ <;> cases Record.saves _ <;> rfl

end Ledger

variable {past : List Record} {l : Ledger} {e : Engine MemoryStorage} {c : Command} {r : Registry}

theorem Engine.Balances.visit (h : e.Balances l) (table : String) (next : Visit) :
    Ensures (Plan.visit table next).onEngine e
      (fun reply e' => ∃ rows write, next rows = .ok (reply, write) ∧
        e'.Balances (if write.isSome then l.loadTable.saveTable.invalidate else l.loadTable))
      fun _ e' => e'.Balances l.loadTable := by
  refine ensures_bind ((h.loadRows table).succeed ?_)
  intro rows e₁ h₁
  refine ensures_bind (ensures_ofExcept ?_ fun _ _ => h₁)
  rintro ⟨reply, write⟩ hn
  cases write with
  | none => exact ⟨rows, none, hn, h₁⟩
  | some rows' =>
      refine ensures_bind ((h₁.saveRows table rows').succeed ?_)
      intro _ e₂ h₂
      exact ⟨rows, some rows', hn, h₂⟩

namespace Command

/-- A visit changes something exactly if it replaces the rows. -/
theorem changes_of_visit {table : String} {next : Visit} {rows : List Row} {reply : Reply}
    {write : Option (List Row)} (hp : Planned r c (.visit table next))
    (hn : next rows = .ok (reply, write)) :
    Record.changes ⟨c, r, .ok reply⟩ = write.isSome := by
  cases hp with
  | infoTable _ => cases hn; rfl
  | insert _ _ =>
      obtain ⟨_, -, hn⟩ := exceptBind_eq_ok.mp hn
      cases hn
      rfl
  | update _ _ _ | delete _ _ =>
      simp only [Visit.update, Visit.delete] at hn
      split at hn <;> cases hn <;> rfl

theorem follow_of_visit {table : String} {next : Visit} (hp : Planned r c (.visit table next))
    (o : Except Error Reply) :
    l.follow ⟨c, r, o⟩ =
      if Record.changes ⟨c, r, o⟩ then l.loadTable.saveTable.invalidate else l.loadTable := by
  cases hp <;> rfl

theorem balances_onEngine {p : Plan} (hp : Planned r c p) (h : e.Balances l) :
    Ensures p.onEngine e (fun reply e' => e'.Balances (l.follow ⟨c, r, .ok reply⟩))
      fun err e' => c.read? = none ∧ e'.Balances (l.follow ⟨c, r, .error err⟩) := by
  cases p with
  | answer reply => cases hp; exact h
  | scan key reply =>
      cases hp with
      | select _ _ =>
          refine ensures_bind ((h.scanTable (_, _)).succeed ?_)
          intro _ _ h₁
          exact h₁
  | visit table next =>
      refine (h.visit table next).mono ?_ ?_
      · rintro reply e₁ ⟨rows, write, hn, h₁⟩
        rwa [follow_of_visit hp, changes_of_visit hp hn]
      · intro err e₁ h₁
        have hc : c.read? = none ∧ Record.changes ⟨c, r, .error err⟩ = false := by
          cases hp <;> exact ⟨rfl, rfl⟩
        rw [follow_of_visit hp, hc.2]
        exact ⟨hc.1, h₁⟩
  | create schema =>
      cases hp
      refine ensures_bind ((h.saveRows _ _).succeed ?_)
      intro _ _ h₁
      exact h₁
  | drop schema =>
      cases hp
      refine ensures_bind ((h.removeTable _).succeed ?_)
      intro _ _ h₁
      exact h₁

/-- Every command adds to the account what its record says. -/
theorem balances_run (h : e.Balances (.account past)) (c : Command) :
    (finalState (c.run e)).Balances
      (.account (⟨c, e.source.storage.registry, outcome (c.run e)⟩ :: past)) := by
  refine Ensures.ends (P := fun o (e' : Engine MemoryStorage) =>
    e'.Balances (.account (⟨c, e.source.storage.registry, o⟩ :: past))) ?_
  rw [run_eq]
  refine ensures_bind (h.loadRegistry.succeed ?_)
  rintro _ e₁ ⟨rfl, h₁⟩
  refine ensures_bind (ensures_ofExcept ?_ ?_)
  · intro p hp
    have hpass (o : Except Error Reply) : (Record.mk c e.source.storage.registry o).passes := by
      rw [Record.passes, hp]
      rfl
    refine ensures_bind ((balances_onEngine (planned hp) h₁).mono ?_ ?_)
    · intro reply e₂ h₂
      have hsaves : Record.saves ⟨c, e.source.storage.registry, .ok reply⟩ = c.isMutating :=
        Bool.and_true c.isMutating
      have haccount : Ledger.account (⟨c, e.source.storage.registry, .ok reply⟩ :: past) = _ :=
        Ledger.account_of_passed (hpass _) (.inl rfl)
      rw [hsaves] at haccount
      cases hm : c.isMutating with
      | true =>
          refine ensures_bind ((h₂.saveRegistry _).succeed ?_)
          intro _ e₃ h₃
          change Engine.Balances (.account _) e₃
          rwa [haccount, hm]
      | false =>
          change Engine.Balances (.account _) e₂
          rwa [haccount, hm]
    · rintro err e₂ ⟨hread, h₂⟩
      have hsaves : Record.saves ⟨c, e.source.storage.registry, .error err⟩ = false :=
        Bool.and_false c.isMutating
      rw [Ledger.account_of_passed (hpass _) (.inr hread), hsaves]
      exact h₂
  · intro err hp
    rw [Ledger.account_of_refused (by rw [Record.passes, hp]; rfl) rfl]
    exact h₁

end Command

/-! ## Runs -/

theorem Engine.balances_create : (create true MemoryStorage.empty).Balances (.account []) :=
  ⟨rfl, rfl, rfl, rfl, rfl, rfl, rfl, rfl, rfl, rfl, rfl⟩

theorem Engine.Balances.after_run (h : e.Balances (.account past)) (cs : List Command) :
    (runAll (cs.map Command.run) e).2.Balances (.account ((e.records cs).reverse ++ past)) := by
  induction cs generalizing e past with
  | nil => exact h
  | cons c cs ih =>
      rw [records, List.reverse_cons, List.append_assoc]
      exact ih (Command.balances_run h c)

theorem Command.misses_run_select (h : e.Balances (.account past)) {table : String}
    {filter : Option Predicate}
    (hp : ((select table filter).plan e.source.storage.registry).isOk) :
    (finalState ((select table filter).run e)).cache.stats.misses =
      e.cache.stats.misses + if (table, filter) ∈ selections past then 0 else 1 := by
  have hrun := (balances_run h (select table filter)).misses
  have hmiss : Record.misses past
      ⟨select table filter, e.source.storage.registry, outcome ((select table filter).run e)⟩ =
        decide ((table, filter) ∉ selections past) := by
    rw [Record.misses, Record.passes, hp]
    rfl
  rw [hrun, h.misses]
  change UInt64.ofNat (missesIn past + Bool.toNat _) = _
  rw [hmiss, UInt64.ofNat_add]
  by_cases hm : (table, filter) ∈ selections past
  · rw [if_pos hm, decide_eq_false (not_not_intro hm)]
    rfl
  · rw [if_neg hm, decide_eq_true hm]
    rfl

/-- After every run of commands on a new database in memory with its cache enabled, all counters
and the number of cached scans are those of the history. A selection that passes its checks
misses exactly if nothing equal has been selected since the last change of any table. -/
theorem counters_of_history (cs : List Command) :
    let start := Engine.create true MemoryStorage.empty
    let past := (start.records cs).reverse
    let e := (runAll (cs.map Command.run) start).2
    let storage := e.source.storage
    let stats := e.cache.stats
    (storage.registryLoads = .ofNat cs.length ∧
      storage.registrySaves = .ofNat (past.countP Record.saves)) ∧
    (stats.accesses = .ofNat (past.countP Record.scans) ∧
      stats.accesses = stats.hits + stats.misses ∧ stats.inserts = stats.misses ∧
      stats.misses = .ofNat (missesIn past) ∧
      stats.invalidations = .ofNat (past.countP Record.changes)) ∧
    (∀ table filter, ((Command.select table filter).plan storage.registry).isOk →
      (finalState ((Command.select table filter).run e)).cache.stats.misses =
        stats.misses + if (table, filter) ∈ selections past then 0 else 1) ∧
    e.cache.size = (selections past).dedup.length ∧
    storage.tableLoads = stats.misses + .ofNat (past.countP Record.visits) ∧
    storage.tableSaves = .ofNat (past.countP Record.writes) := by
  intro start past e storage stats
  have h : e.Balances (.account past) := by
    have hrun := Engine.balances_create.after_run cs
    rwa [List.append_nil] at hrun
  have hlength : past.length = cs.length :=
    List.length_reverse.trans (start.length_records cs)
  refine ⟨⟨?_, h.registrySaves⟩, ⟨h.accesses, h.outcomes, ?_, h.misses, h.invalidations⟩, ?_,
    h.size, ?_, h.tableSaves⟩
  · rw [← hlength]
    exact h.registryLoads
  · exact h.inserts.trans h.misses.symm
  · intro table filter hp
    exact Command.misses_run_select h hp
  · rw [h.misses, ← UInt64.ofNat_add]
    exact h.tableLoads

end TableStore
