import TableStore.Proofs.CacheInvisible
import TableStore.Proofs.Commuting
import TableStore.Proofs.Leftovers
import TableStore.Proofs.Loads

/-!
Commands on different tables do not interfere, neither in memory nor in files under a root, with
whatever in them at first. In files the tables share a directory, in which no document has the place
of another one or of a draft.
-/

namespace TableStore

/-! ## Contents -/

namespace Contents

def SameIn : Part → Contents → Contents → Prop
  | .registry, d, d' => d.registry = d'.registry
  | .table t, d, d' => d.rows? t = d'.rows? t

theorem equivalence_sameIn (part : Part) : Equivalence (SameIn part) := by
  cases part with
  | registry => exact ⟨fun _ => rfl, Eq.symm, Eq.trans⟩
  | table t => exact ⟨fun _ => rfl, Eq.symm, Eq.trans⟩

/-- A call that does nothing but put rows in the place of a table, or nothing. -/
theorem localTo_setRows {t : String} {rows : Option (List Row)} {act : EStateM Error Contents Unit}
    (h : ∀ d, act d = .ok () { d with rows? := fun u => if u = t then rows else d.rows? u }) :
    LocalTo (fun _ => True) SameIn (.table t) act := by
  refine ⟨fun _ _ => trivial, fun d d' _ _ _ => ?_, fun d other _ hne => ?_⟩
  · rw [h, h]
    exact ⟨rfl, (if_pos rfl).trans (if_pos rfl).symm⟩
  · rw [h]
    cases other with
    | registry => rfl
    | table u => exact (if_neg fun he => hne (congrArg Part.table he)).symm

theorem parted : Storage.Parted (fun _ : Contents => True) SameIn where
  equivalence := equivalence_sameIn
  calm := calm
  loadRegistry d d' _ _ h := by
    have hr : d.registry = d'.registry := h
    change Except.ok (Loaded.mk d.registry none) = .ok ⟨d'.registry, none⟩
    rw [hr]
  loadTable t d d' _ _ h := by
    have ht : d.rows t = d'.rows t := congrArg (·.getD []) h
    rw [loadTable_apply, loadTable_apply, ht]
    rfl
  saveRegistry r := by
    refine ⟨fun _ _ => trivial, fun d d' _ _ _ => ⟨rfl, rfl⟩, fun d other _ hne => ?_⟩
    cases other with
    | registry => exact absurd rfl hne
    | table t => rfl
  saveTable t rows := localTo_setRows fun _ => rfl
  removeTable t := localTo_setRows fun _ => rfl
  saved _ _ _ := rfl
  resaved _ _ _ := rfl

end Contents

/-! ## Files -/

namespace FileLayout

variable {l : FileLayout} {d : Location} {part other : Part} {p q : Path} {t : String}

/-- The path of the document of a part. -/
def document (l : FileLayout) : Part → Except Error Path
  | .registry => .ok l.metadataFile
  | .table t => l.tableFile t

/-- The places of the documents of other parts, and those of drafts. -/
def Elsewhere (l : FileLayout) (d : Location) (part : Part) (place : Location) : Prop :=
  l.IsDraft d place ∨
    ∃ other p, other ≠ part ∧ l.document other = .ok p ∧ place = p.location d

theorem isDocument_of_document (h : l.document part = .ok p) : l.IsDocument p := by
  cases part with
  | registry =>
      cases h
      exact .registry
  | table t =>
      obtain ⟨hi, rfl⟩ := FileStorage.tableFile_eq_ok h
      exact .table hi

/-- Different parts have different documents. -/
theorem document_ne (h : l.Apart d) (hp : l.document part = .ok p) (hq : l.document other = .ok q)
    (hne : part ≠ other) : p ≠ q := by
  cases part with
  | registry =>
      cases other with
      | registry => exact absurd rfl hne
      | table u =>
          cases hp
          obtain ⟨hi, rfl⟩ := FileStorage.tableFile_eq_ok hq
          exact fun he => (h u hi).1 (congrArg (·.location d) he)
  | table t =>
      obtain ⟨hi, rfl⟩ := FileStorage.tableFile_eq_ok hp
      cases other with
      | registry =>
          cases hq
          exact fun he => (h t hi).1 (congrArg (·.location d) he.symm)
      | table u =>
          obtain ⟨hi', rfl⟩ := FileStorage.tableFile_eq_ok hq
          have hname : t ≠ u := fun ht => hne (congrArg Part.table ht)
          exact fun he => location_tableDocument_ne hi hi' hname (congrArg (·.location d) he)

theorem not_elsewhere (h : l.Apart d) (hp : l.document part = .ok p) :
    ¬ l.Elsewhere d part (p.location d) := by
  intro helse
  have hdocument := isDocument_of_document hp
  obtain hdraft | ⟨other, q, hne, hq, he⟩ := helse
  · exact h.not_isDraft hdocument hdraft
  · exact h.location_ne hdocument (isDocument_of_document hq) (document_ne h hp hq hne.symm) he

end FileLayout

namespace FileSystem

variable {fs fs' : FileSystem} {p : Path} {α : Type} [Document α]

/-- A document that is saved twice is saved the second time as it was the first time. -/
theorem outcome_saveDocument_again (hg : fs.Grounded p) (value : α) :
    outcome (saveDocument p value (finalState (saveDocument p value fs))) =
      outcome (saveDocument p value fs) := by
  cases h : saveDocument p value fs with
  | ok _ fs' =>
      obtain ⟨fs'', hagain⟩ := (room_of_saveDocument h).saveDocument value
      exact outcome_of_ok hagain
  | error e fs' =>
      have halike := saveDocument_alike (saveDocument_error h).1 hg
        (location_draft_ne p fs.workingDirectory).symm value
      rw [h] at halike
      exact halike.1.symm

end FileSystem

namespace FileStorage

open FileSystem (ChangesOnly draft)

variable {root : Path} {base : FileSystem} {part : Part} {s s' : FileStorage} {p : Path} {α : Type}

/-- Nothing but drafts and the documents of other parts differs. -/
def SameIn (root : Path) (base : FileSystem) (part : Part) (s s' : FileStorage) : Prop :=
  ChangesOnly ((FileLayout.underRoot root).Elsewhere base.workingDirectory part) s.files s'.files

theorem equivalence_sameIn (part : Part) : Equivalence (SameIn root base part) :=
  ⟨fun s => .refl _ s.files, .symm, .trans⟩

theorem onDocument_of_ok {l : FileLayout} (hl : s.layout = l) (hp : l.document part = .ok p)
    (act : Path → EStateM Error FileSystem α) :
    outcome (onFiles (fun l => ofExcept (l.document part) >>= act) s) = outcome (act p s.files) ∧
      finalState (onFiles (fun l => ofExcept (l.document part) >>= act) s) =
        ⟨l, finalState (act p s.files)⟩ := by
  rw [outcome_onFiles, finalState_onFiles, hl, hp]
  exact ⟨rfl, rfl⟩

theorem onDocument_of_error {l : FileLayout} (hl : s.layout = l) {e : Error}
    (he : l.document part = .error e) (act : Path → EStateM Error FileSystem α) :
    onFiles (fun l => ofExcept (l.document part) >>= act) s = .error e s := by
  refine onFiles_eq_error.mpr ⟨?_, rfl⟩
  rw [hl, he]
  rfl

section
variable (hbase : (FileLayout.underRoot root).Prepared base)
include hbase

theorem read_eq_of_sameIn (hs : Within root base s) (h : SameIn root base part s s')
    (hp : (FileLayout.underRoot root).document part = .ok p) :
    s'.files.read p = s.files.read p := by
  have hgrounded := (hbase.grows hs.2).grounded (FileLayout.isDocument_of_document hp)
  refine hgrounded.read_eq (h.sameAt ?_)
  rw [hs.2.workingDirectory]
  exact FileLayout.not_elsewhere (FileLayout.underRoot_apart root _) hp

/-- An action on one document is local to its part if it goes the same in files that differ
elsewhere, and changes nothing but the document and its draft. -/
theorem localTo_onDocument (part : Part) {act : Path → EStateM Error FileSystem α}
    (alike : ∀ p fs fs' places, ChangesOnly places fs fs' → fs.Grounded p →
      ¬ places (p.location fs.workingDirectory) → outcome (act p fs) = outcome (act p fs') ∧
        ChangesOnly places (finalState (act p fs)) (finalState (act p fs')))
    (changes : ∀ p fs, ChangesOnly (fun place => place = p.location fs.workingDirectory ∨
      place = (draft p).location fs.workingDirectory) fs (finalState (act p fs))) :
    LocalTo (Within root base) (SameIn root base) part
      (onFiles fun l => ofExcept (l.document part) >>= act) := by
  cases hp : (FileLayout.underRoot root).document part with
  | error e =>
      have hnone {s : FileStorage} (hs : Within root base s) := onDocument_of_error hs.1 hp act
      refine ⟨fun s hs => ?_, fun s s' hs hs' h => ?_, fun s other hs _ => ?_⟩
      · rw [hnone hs]
        exact hs
      · rw [hnone hs, hnone hs']
        exact ⟨rfl, h⟩
      · rw [hnone hs]
        exact (equivalence_sameIn other).refl s
  | ok p =>
      have hdocument := FileLayout.isDocument_of_document hp
      refine ⟨fun s hs => ?_, fun s s' hs hs' h => ?_, fun s other hs hne => ?_⟩
      · rw [(onDocument_of_ok hs.1 hp act).2]
        exact ⟨rfl, hs.2.trans (changes p s.files).toSameDirectories.grows⟩
      · obtain ⟨ho, hfinal⟩ := onDocument_of_ok hs.1 hp act
        obtain ⟨ho', hfinal'⟩ := onDocument_of_ok hs'.1 hp act
        rw [ho, ho', hfinal, hfinal']
        refine alike p s.files s'.files _ h ((hbase.grows hs.2).grounded hdocument) ?_
        rw [hs.2.workingDirectory]
        exact FileLayout.not_elsewhere (FileLayout.underRoot_apart root _) hp
      · rw [(onDocument_of_ok hs.1 hp act).2]
        have hchanges := changes p s.files
        rw [hs.2.workingDirectory] at hchanges
        refine hchanges.mono fun place hplace => ?_
        obtain rfl | rfl := hplace
        · exact .inr ⟨part, p, hne.symm, hp, rfl⟩
        · exact .inl ⟨p, hdocument, rfl⟩

/-- Documents under a root do not get into each other's way. -/
theorem parted : Storage.Parted (Within root base) (SameIn root base) where
  equivalence := equivalence_sameIn
  calm := calm root base
  loadRegistry s s' hs hs' h := by
    obtain ⟨l, fs⟩ := s
    obtain ⟨l', fs'⟩ := s'
    cases hs.1
    cases hs'.1
    exact (outcome_loadRegistry (read_eq_of_sameIn hbase hs h rfl)).symm
  loadTable t s s' hs hs' h := by
    obtain ⟨l, fs⟩ := s
    obtain ⟨l', fs'⟩ := s'
    cases hs.1
    cases hs'.1
    exact (outcome_loadTable fun hi => read_eq_of_sameIn hbase hs h (tableFile_eq hi)).symm
  saveRegistry r := localTo_onDocument hbase .registry
    (fun _ _ _ _ h hg hp => FileSystem.saveDocument_alike h hg hp r)
    fun p fs => FileSystem.changesOnly_saveDocument p r fs
  saveTable t rows := localTo_onDocument hbase (.table t)
    (fun _ _ _ _ h hg hp => FileSystem.saveDocument_alike h hg hp rows)
    fun p fs => FileSystem.changesOnly_saveDocument p rows fs
  removeTable t := localTo_onDocument hbase (.table t)
    (fun _ _ _ _ h hg hp => FileSystem.removeDocument_alike h hg hp)
    fun p fs => (FileSystem.changesOnly_removeDocument p fs).mono fun _ => Or.inl
  saved r s hs := by
    obtain ⟨l, fs⟩ := s
    cases hs.1
    refine (ensures_saveRegistry r).mono ?_ ?_
    · intro _ s' hpost
      obtain ⟨fs', rfl, -, hr, -⟩ := hpost
      exact outcome_of_ok (loadRegistry_encode hr)
    · intro e s' hpost
      obtain ⟨fs', rfl, -, hr, -⟩ := hpost
      exact outcome_loadRegistry hr
  resaved r s hs := by
    have hgrounded := (hbase.grows hs.2).grounded .registry
    rw [← hs.1] at hgrounded
    have hagain := FileSystem.outcome_saveDocument_again hgrounded r
    have hsave (s : FileStorage) : outcome (Storage.saveRegistry r s) =
        outcome (FileSystem.saveDocument s.layout.metadataFile r s.files) := outcome_onFiles _ s
    rw [saveRegistry_files, hsave, hsave]
    exact hagain

end

/-- What is in the document of each part, as bytes. -/
def documents (s : FileStorage) (part : Part) : Except Error (Except Fault ByteArray) :=
  (s.layout.document part).map s.files.read

theorem documents_eq (hbase : (FileLayout.underRoot root).Prepared base) (hs : Within root base s)
    (hs' : Within root base s') (h : ∀ part, SameIn root base part s s') :
    s.documents = s'.documents := by
  funext part
  rw [documents, documents, hs.1, hs'.1]
  cases hp : (FileLayout.underRoot root).document part with
  | error e => rfl
  | ok p => exact congrArg Except.ok (read_eq_of_sameIn hbase hs (h part) hp).symm

end FileStorage

/-! ## Databases -/

variable {σ δ ρ : Type} [Storage σ] [Storage δ] {sound : δ → Prop} {same : Part → δ → δ → Prop}
  {view : σ → δ}

/-- In this state of a database commands on different tables do not interfere. A command on a
table, whatever becomes of it, leaves the rows that another table loads as, and its entry in the
registry. Commands on the rows of two tables give the same replies in either order, each of them
the one that it gives alone, and they leave the same documents. -/
structure Engine.Noninterfering (documents : σ → ρ) (e : Engine σ) : Prop where
  rows : ∀ (c : Command) (t u : String), c.table? = some t → u ≠ t →
    outcome (Storage.loadTable u (finalState (c.run e)).source.storage) =
      outcome (Storage.loadTable u e.source.storage)
  entry : ∀ (c : Command) (t u : String), c.table? = some t → u ≠ t →
    (outcome (Storage.currentRegistry (finalState (c.run e)).source.storage)).map (·.get? u) =
      (outcome (Storage.currentRegistry e.source.storage)).map (·.get? u)
  commute : ∀ (c c' : Command) (t u : String), c.rowsOf? = some t → c'.rowsOf? = some u → t ≠ u →
    outcome (c.run (finalState (c'.run e))) = outcome (c.run e) ∧
      outcome (c'.run (finalState (c.run e))) = outcome (c'.run e) ∧
      documents (finalState (c'.run (finalState (c.run e)))).source.storage =
        documents (finalState (c.run (finalState (c'.run e)))).source.storage

namespace Storage.Shows

theorem outcome_currentRegistry (shows : Storage.Shows view) (s : σ) :
    outcome (Storage.currentRegistry s) = outcome (Storage.currentRegistry (view s)) := by
  rw [Storage.currentRegistry, Storage.currentRegistry, outcome_bind_pure, outcome_bind_pure,
    (shows.loadRegistry.outcome_eq trivial).1]

end Storage.Shows

/-- What a storage shows keeps its parts apart, and so commands do not interfere. -/
theorem Engine.Coherent.noninterfering (parted : Storage.Parted sound same)
    (shows : Storage.Shows view) {documents : σ → ρ}
    (hdocuments : ∀ s s', sound (view s) → sound (view s') →
      (∀ part, same part (view s) (view s')) → documents s = documents s')
    {e : Engine σ} (he : e.Coherent sound view) : e.Noninterfering documents := by
  have hrun (c : Command) {e : Engine σ} (he : e.Coherent sound view) :=
    (c.mirrors_run parted.calm shows).outcome_eq he
  refine ⟨fun c t u hc hne => ?_, fun c t u hc hne => ?_, fun c c' t u hc hc' hne => ?_⟩
  · obtain ⟨-, hv, hsound⟩ := hrun c he
    have hagrees := Command.agrees_runDirect parted hc hne he.sound
    rw [((shows.loadTable u).outcome_eq trivial).1, ((shows.loadTable u).outcome_eq trivial).1, hv]
    exact (parted.loadTable u _ _ he.sound (hv ▸ hsound.sound) hagrees.rows).symm
  · obtain ⟨-, hv, -⟩ := hrun c he
    have hagrees := Command.agrees_runDirect parted hc hne he.sound
    rw [shows.outcome_currentRegistry, shows.outcome_currentRegistry, hv]
    exact hagrees.entry
  · obtain ⟨ho, hv, first⟩ := hrun c he
    obtain ⟨ho', hv', first'⟩ := hrun c' he
    obtain ⟨hsecond, hw, second⟩ := hrun c first'
    obtain ⟨hsecond', hw', second'⟩ := hrun c' first
    obtain ⟨hcommute, hcommute', hsame⟩ := Command.commute_runDirect parted hc hc' hne he.sound
    rw [hv'] at hsecond hw
    rw [hv] at hsecond' hw'
    refine ⟨by rw [hsecond, hcommute, ho], by rw [hsecond', hcommute', ho'], ?_⟩
    refine hdocuments _ _ second'.sound second.sound fun part => ?_
    rw [hw, hw']
    exact hsame part

/-- Whatever is stored at first and whatever commands have been run, commands on different tables
do not interfere, in memory and in files under a root. -/
theorem tables_independent :
    (∀ (m : MemoryStorage) (cacheEnabled : Bool) (earlier : List Command),
      (runAll (earlier.map Command.run) (.create cacheEnabled m)).2.Noninterfering
        MemoryStorage.contents) ∧
      ∀ (root : Path) (cacheEnabled : Bool) (fs₀ fs : FileSystem) (engine : Engine FileStorage)
        (earlier : List Command),
        (Config.mk (.underRoot root) cacheEnabled).openFiles fs₀ = .ok engine fs →
        (runAll (earlier.map Command.run) engine).2.Noninterfering FileStorage.documents := by
  refine ⟨fun m cacheEnabled earlier => ?_, fun root cacheEnabled fs₀ fs engine earlier h => ?_⟩
  · have hrun := runAll_mirrors (Command.mirrors_run Contents.calm MemoryStorage.shows) earlier
      (Engine.coherent_create cacheEnabled (s := m) trivial)
    refine hrun.2.2.noninterfering Contents.parted MemoryStorage.shows fun s s' _ _ hsame => ?_
    exact Contents.ext (hsame .registry) fun t => hsame (.table t)
  · obtain ⟨-, hprepared, rfl⟩ := Config.openFiles_eq_ok h
    have hs : FileStorage.Within root fs (FileStorage.under root fs) := ⟨rfl, .refl fs⟩
    have hrun := runAll_mirrors
      (Command.mirrors_run (FileStorage.calm root fs) Storage.shows_self) earlier
      (Engine.coherent_create cacheEnabled (s := FileStorage.under root fs) hs)
    exact hrun.2.2.noninterfering (FileStorage.parted hprepared) Storage.shows_self
      fun s s' => FileStorage.documents_eq hprepared

/-- A database that has just been opened in an empty working directory. -/
theorem tables_independent_default :
    (Config.mk (.underRoot ⟨""⟩) true).openFiles .empty =
        .ok (.create true FileStorage.defaultStorage) FileStorage.openedFiles ∧
      ∀ earlier : List Command,
        (runAll (earlier.map Command.run)
          (.create true FileStorage.defaultStorage)).2.Noninterfering FileStorage.documents := by
  have hopen : (Config.mk (.underRoot ⟨""⟩) true).openFiles .empty =
      .ok (.create true FileStorage.defaultStorage) FileStorage.openedFiles := rfl
  exact ⟨hopen, fun earlier => tables_independent.2 ⟨""⟩ true _ _ _ earlier hopen⟩

end TableStore
