import TableStore.Proofs.Leftovers
import TableStore.Proofs.Loads
import TableStore.Proofs.Session

/-!
Saves that are stopped. A save can be stopped while its draft is written, and before or after the
draft is moved. Every document is then as before the save or as after it, and a draft that has
been left behind makes no difference to anything that is done later.
-/

namespace TableStore

open FileSystem (ChangesOnly Grows SameDirectories draft)

/-! ## Saves -/

/-- A save of one document. -/
inductive Save where
  | registry (r : Registry)
  | table (table : String) (rows : List Row)

namespace Save

def perform {σ : Type} [Storage σ] : Save → EStateM Error σ Unit
  | registry r => Storage.saveRegistry r
  | table t rows => Storage.saveTable t rows

/-- Where a layout has the document, if it has a place for it. -/
def document (l : FileLayout) : Save → Except Error Path
  | registry _ => .ok l.metadataFile
  | table t _ => l.tableFile t

def contents : Save → ByteArray
  | registry r => Document.encode r
  | table _ rows => Document.encode rows

variable {save : Save} {s s' : FileStorage} {l : FileLayout} {p : Path}

theorem isDocument (h : save.document l = .ok p) : l.IsDocument p := by
  cases save with
  | registry r => cases h; exact .registry
  | table t rows => exact FileStorage.isDocument_of_tableFile h

theorem perform_table (t : String) (rows : List Row) (s : FileStorage) :
    (table t rows).perform s = FileStorage.onFiles (fun l => ofExcept (l.tableFile t) >>= fun p =>
      FileSystem.saveDocument p rows) s := rfl

/-- A save is the save of some document, of whatever kind. -/
theorem perform_eq (save : Save) (h : save.document s.layout = .ok p) :
    ∃ (α : Type) (_ : Document α) (a : α), save.contents = Document.encode a ∧
      save.perform s = FileStorage.onFiles (fun _ => FileSystem.saveDocument p a) s := by
  cases save with
  | registry r => cases h; exact ⟨_, _, r, rfl, rfl⟩
  | table t rows =>
      refine ⟨_, _, rows, rfl, ?_⟩
      have hf : s.layout.tableFile t = .ok p := h
      rw [perform_table]
      refine FileStorage.onFiles_congr ?_
      rw [hf]
      rfl

theorem perform_of_error {e : Error} (h : save.document s.layout = .error e) :
    save.perform s = .error e s := by
  cases save with
  | registry r => cases h
  | table t rows =>
      have hf : s.layout.tableFile t = .error e := h
      rw [perform_table, FileStorage.onFiles_eq_error, hf]
      exact ⟨rfl, rfl⟩

/-- What a save does to its document and to its draft, in these files. -/
structure AllOrNothing (save : Save) (p : Path) (s : FileStorage) : Prop where
  /-- A save that succeeds has written the whole document and left no draft. -/
  ok : ∀ s', save.perform s = .ok () s' →
    s'.files.read p = .ok save.contents ∧ s'.files.read (draft p) = .error .missing ∧
      s'.files.entry? ((draft p).location s.files.workingDirectory) = none ∧
      ChangesOnly (fun place => place = p.location s.files.workingDirectory ∨
        place = (draft p).location s.files.workingDirectory) s.files s'.files
  /-- A save that fails has changed the draft at most. -/
  error : ∀ e s', save.perform s = .error e s' →
    ChangesOnly (· = (draft p).location s.files.workingDirectory) s.files s'.files
  /-- However much of the draft has been written, the document reads as before. -/
  meanwhile : ∀ n fs, s.files.write (draft p) (save.contents.extract 0 n) = .ok fs →
    fs.read p = s.files.read p ∧
      ChangesOnly (· = (draft p).location s.files.workingDirectory) s.files fs

theorem allOrNothing (h : save.document s.layout = .ok p) : save.AllOrNothing p s := by
  obtain ⟨α, _, a, hcontents, hperform⟩ := save.perform_eq h
  refine ⟨fun s' hs => ?_, fun e s' hs => ?_, fun n fs hw => ?_⟩
  · rw [hperform, FileStorage.onFiles_eq_ok] at hs
    obtain ⟨hread, hdraft, -, hnone, hc⟩ := FileSystem.saveDocument_ok hs.1
    exact ⟨hcontents ▸ hread, hdraft, hnone, hc⟩
  · rw [hperform, FileStorage.onFiles_eq_error] at hs
    exact (FileSystem.saveDocument_error hs.1).1
  · exact (FileSystem.changesOnly_draft hw).symm

end Save

/-! ## Moments of a save -/

/-- The files in which a save may be stopped. -/
inductive Save.Stops (save : Save) (s : FileStorage) : FileSystem → Prop
  | before : save.Stops s s.files
  /-- Some bytes have been written to the draft. -/
  | meanwhile {p : Path} {n : Nat} {fs : FileSystem} (hp : save.document s.layout = .ok p)
      (hw : s.files.write (draft p) (save.contents.extract 0 n) = .ok fs) : save.Stops s fs
  | after : save.Stops s (finalState (save.perform s)).files

namespace Save.Stops

variable {save : Save} {s : FileStorage} {fs : FileSystem} {p q : Path}

/-- A save that is stopped has been completed, or has left a draft at most. -/
theorem cases_of_apart (h : save.Stops s fs) :
    fs = (finalState (save.perform s)).files ∨
      ChangesOnly (s.layout.IsDraft s.files.workingDirectory) s.files fs := by
  cases h with
  | before => exact .inr (.refl _ _)
  | after => exact .inl rfl
  | meanwhile hp hw =>
      refine .inr ((FileSystem.changesOnly_draft hw).1.mono ?_)
      rintro _ rfl
      exact ⟨_, isDocument hp, rfl⟩

theorem sameDirectories (h : save.Stops s fs) : SameDirectories s.files fs := by
  obtain rfl | hc := h.cases_of_apart
  · have hs : FileStorage.Confined s.layout s.files s := ⟨rfl, .refl _ s.files⟩
    have hkeeps := FileStorage.keeps_confined s.layout s.files
    cases save with
    | registry r => exact (hkeeps.saveRegistry r s hs).2.toSameDirectories
    | table t rows => exact (hkeeps.saveTable t rows s hs).2.toSameDirectories
  · exact hc.toSameDirectories

variable (hready : s.layout.Prepared s.files) (hapart : s.layout.Apart s.files.workingDirectory)
include hready hapart

theorem read_eq (hc : ChangesOnly (s.layout.IsDraft s.files.workingDirectory) s.files fs)
    (hq : s.layout.IsDocument q) : fs.read q = s.files.read q :=
  (hready.grounded hq).read_eq (hc.sameAt (hapart.not_isDraft hq))

/-- Every document is as before, or it is the one that is saved, and whole. -/
theorem read_cases (h : save.Stops s fs) (hq : s.layout.IsDocument q) :
    fs.read q = s.files.read q ∨
      save.document s.layout = .ok q ∧ fs.read q = .ok save.contents := by
  obtain rfl | hc := h.cases_of_apart
  · cases hdoc : save.document s.layout with
    | error e =>
        rw [perform_of_error hdoc]
        exact .inl rfl
    | ok p =>
        have hp := isDocument hdoc
        have hsave := allOrNothing hdoc
        cases hperform : save.perform s with
        | error e s' =>
            refine .inl (read_eq hready hapart ((hsave.error e s' hperform).mono ?_) hq)
            rintro _ rfl
            exact ⟨p, hp, rfl⟩
        | ok _ s' =>
            obtain ⟨hread, -, -, hc⟩ := hsave.ok s' hperform
            by_cases hqp : q = p
            · subst hqp
              exact .inr ⟨rfl, hread⟩
            · refine .inl ((hready.grounded hq).read_eq (hc.sameAt ?_))
              rintro (he | he)
              · exact hapart.location_ne hq hp hqp he
              · exact hapart.not_isDraft hq ⟨p, hp, he⟩
  · exact .inl (read_eq hready hapart hc hq)

end Save.Stops

/-! ## Saves of a run -/

/-- A storage that remembers its saves, each with the state in which it began. -/
structure Logged (σ : Type) where
  storage : σ
  saves : List (σ × Save)

namespace Logged

variable {σ : Type} [Storage σ]

omit [Storage σ] in
def call {α : Type} (act : EStateM Error σ α) : EStateM Error (Logged σ) α :=
  onPart storage (fun s storage => { s with storage := storage }) act

def save (save : Save) : EStateM Error (Logged σ) Unit := fun s =>
  call save.perform { s with saves := s.saves ++ [(s.storage, save)] }

instance : Storage (Logged σ) where
  loadRegistry := call Storage.loadRegistry
  saveRegistry r := save (.registry r)
  loadTable t := call (Storage.loadTable t)
  saveTable t rows := save (.table t rows)
  removeTable t := call (Storage.removeTable t)

omit [Storage σ] in
theorem finalState_call {α : Type} (act : EStateM Error σ α) (s : Logged σ) :
    finalState (call act s) = ⟨finalState (act s.storage), s.saves⟩ := by
  rw [call, onPart]
  cases act s.storage <;> rfl

omit [Storage σ] in
theorem outcome_call {α : Type} (act : EStateM Error σ α) (s : Logged σ) :
    outcome (call act s) = outcome (act s.storage) := Request.outcome_onPart

/-- The log makes no difference. -/
theorem alike : Storage.Alike (fun (s : Logged σ) t => t = s.storage) (fun _ => True)
    fun _ => True := by
  have hcall {α : Type} {wanted : α → Prop} (hw : ∀ a, wanted a) (act : EStateM Error σ α) :
      Agree (fun (s : Logged σ) t => t = s.storage) wanted (call act) act := by
    refine agree_of_outcome hw ?_
    rintro s _ rfl
    exact ⟨outcome_call act s, by rw [finalState_call]⟩
  have hsave (save : Save) :
      Agree (fun (s : Logged σ) t => t = s.storage) (fun _ => True) (Logged.save save)
        save.perform := by
    refine agree_of_outcome (fun _ => trivial) ?_
    rintro s _ rfl
    exact ⟨outcome_call save.perform _, by rw [Logged.save, finalState_call]⟩
  exact {
    loadRegistry := hcall (fun _ => ⟨fun _ _ => trivial, fun _ _ => trivial⟩) _
    saveRegistry := fun r _ => hsave (.registry r)
    loadTable := fun t _ => hcall (fun _ _ _ => trivial) _
    saveTable := fun t rows _ => hsave (.table t rows)
    removeTable := fun t _ => hcall (fun _ => trivial) _ }

/-- What the calls of a storage keep holds whenever a save begins. -/
theorem keeps {inv : σ → Prop} (h : Storage.Keeps inv) :
    Storage.Keeps fun s : Logged σ => inv s.storage ∧ ∀ begun ∈ s.saves, inv begun.1 := by
  have hcall {α : Type} {act : EStateM Error σ α} (hact : ∀ s, inv s → inv (finalState (act s)))
      (s : Logged σ) (hs : inv s.storage ∧ ∀ begun ∈ s.saves, inv begun.1) :
      inv (finalState (call act s)).storage ∧
        ∀ begun ∈ (finalState (call act s)).saves, inv begun.1 := by
    rw [finalState_call]
    exact ⟨hact _ hs.1, hs.2⟩
  have hsave (save : Save) (hact : ∀ s, inv s → inv (finalState (save.perform s))) (s : Logged σ)
      (hs : inv s.storage ∧ ∀ begun ∈ s.saves, inv begun.1) :
      inv (finalState (Logged.save save s)).storage ∧
        ∀ begun ∈ (finalState (Logged.save save s)).saves, inv begun.1 := by
    refine hcall hact _ ⟨hs.1, fun begun hb => ?_⟩
    obtain hb | hb := List.mem_append.mp hb
    · exact hs.2 begun hb
    · cases List.mem_singleton.mp hb
      exact hs.1
  exact {
    loadRegistry := hcall h.loadRegistry
    saveRegistry := fun r => hsave (.registry r) (h.saveRegistry r)
    loadTable := fun t => hcall (h.loadTable t)
    saveTable := fun t rows => hsave (.table t rows) (h.saveTable t rows)
    removeTable := fun t => hcall (h.removeTable t) }

end Logged

/-! ## Later runs -/

namespace FileStorage.SameDocuments

variable {l : FileLayout} {s s' : FileStorage}

theorem loads_eq (h : SameDocuments l s s') : Storage.loads s' = Storage.loads s :=
  Loads.ext ((alike_sameDocuments l).loadRegistry.outcome_eq h).1.symm fun t =>
    (((alike_sameDocuments l).loadTable t trivial).outcome_eq h).1.symm

theorem transcript_eq (h : SameDocuments l s s') (cacheEnabled : Bool) (cs : List Command) :
    (Engine.create cacheEnabled s').transcript cs = (Engine.create cacheEnabled s).transcript cs := by
  have he : Engine.Alike (SameDocuments l) (fun _ => True) (Engine.create cacheEnabled s)
      (Engine.create cacheEnabled s') := ⟨rfl, h, rfl, nofun⟩
  exact (he.transcript_eq (alike_sameDocuments l) fun _ _ _ _ _ _ _ => trivial).1.symm

end FileStorage.SameDocuments

namespace Config

/-- A database over these files. -/
def engineOn (c : Config) (fs : FileSystem) : Engine FileStorage :=
  .create c.cacheEnabled ⟨c.layout, fs⟩

/-- The storage after a run that begins with these files, and the saves of the run. -/
def logged (c : Config) (fs : FileSystem) (cs : List Command) : Logged FileStorage :=
  (runAll (cs.map Command.run)
    (Engine.create c.cacheEnabled (⟨⟨c.layout, fs⟩, []⟩ : Logged FileStorage))).2.source.storage

theorem logged_storage (c : Config) (fs : FileSystem) (cs : List Command) :
    (c.logged fs cs).storage = (runAll (cs.map Command.run) (c.engineOn fs)).2.source.storage := by
  have he : Engine.Alike (fun (s : Logged FileStorage) t => t = s.storage) (fun _ => True)
      (Engine.create c.cacheEnabled (⟨⟨c.layout, fs⟩, []⟩ : Logged FileStorage)) (c.engineOn fs) :=
    ⟨rfl, rfl, rfl, nofun⟩
  exact (he.after_run Logged.alike fun _ _ _ _ _ _ _ => trivial).source.storage.symm

/-- Every save of a run begins in files that differ from the first ones in documents and drafts
only. -/
theorem confined_of_logged (c : Config) (fs : FileSystem) (cs : List Command) :
    ∀ begun ∈ (c.logged fs cs).saves, FileStorage.Confined c.layout fs begun.1 := by
  have hkeeps := Logged.keeps (FileStorage.keeps_confined c.layout fs)
  exact (hkeeps.after_run ⟨⟨rfl, .refl _ fs⟩, fun _ h => (List.not_mem_nil h).elim⟩ cs).2

theorem openFiles_of_prepared {c : Config} {fs : FileSystem} (hv : c.validate = .ok ())
    (h : c.layout.Prepared fs) : c.openFiles fs = .ok (c.engineOn fs) fs := by
  simp only [openFiles, bind_apply, hv, ofExcept_ok_apply, FileLayout.prepare_of_prepared h]
  rfl

end Config

/-- Saves are all or nothing, whatever the layout and the files are. In an opened database whose
registry is apart from its tables, a run may be stopped at any moment of any of its saves: then
every document is as before this save, or it is the one that is saved, and whole; and the
database can be opened again, and goes on as if the save had not begun or as if it had ended.
Drafts, whatever is in them, make no difference to what is loaded and to what is done later. -/
theorem saves_all_or_nothing {c : Config} {fs₀ fs : FileSystem} {engine : Engine FileStorage}
    (hopen : c.openFiles fs₀ = .ok engine fs) (hapart : c.layout.Apart fs.workingDirectory) :
    (∀ (s : FileStorage) (save : Save),
      (∀ e, save.document s.layout = .error e → save.perform s = .error e s) ∧
        ∀ p, save.document s.layout = .ok p → save.AllOrNothing p s) ∧
      (∀ cs, (c.logged fs cs).storage = (runAll (cs.map Command.run) engine).2.source.storage ∧
        ∀ begun ∈ (c.logged fs cs).saves, ∀ stopped, begun.2.Stops begun.1 stopped →
          (∀ q, c.layout.IsDocument q → stopped.read q = begun.1.files.read q ∨
            begun.2.document c.layout = .ok q ∧ stopped.read q = .ok begun.2.contents) ∧
          c.openFiles stopped = .ok (c.engineOn stopped) stopped ∧
          ∃ files, (files = begun.1.files ∨ files = (finalState (begun.2.perform begun.1)).files) ∧
            ∀ later, (c.engineOn stopped).transcript later = (c.engineOn files).transcript later) ∧
      ∀ fs₁ fs₂, Grows fs fs₁ → ChangesOnly (c.layout.IsDraft fs.workingDirectory) fs₁ fs₂ →
        Storage.loads (⟨c.layout, fs₂⟩ : FileStorage) = Storage.loads (⟨c.layout, fs₁⟩ : FileStorage) ∧
          ∀ later, (c.engineOn fs₂).transcript later = (c.engineOn fs₁).transcript later := by
  obtain ⟨hvalid, hprepared, rfl⟩ := Config.openFiles_eq_ok hopen
  have hsame : ∀ fs₁ fs₂, Grows fs fs₁ → ChangesOnly (c.layout.IsDraft fs.workingDirectory) fs₁ fs₂ →
      FileStorage.SameDocuments c.layout ⟨c.layout, fs₁⟩ ⟨c.layout, fs₂⟩ := by
    intro fs₁ fs₂ hg hc
    refine ⟨rfl, rfl, hprepared.grows hg, ?_, ?_⟩
    · rw [hg.workingDirectory]
      exact hapart
    · rw [hg.workingDirectory]
      exact hc
  refine ⟨fun s save => ⟨fun e => save.perform_of_error, fun p => save.allOrNothing⟩,
    fun cs => ⟨c.logged_storage fs cs, ?_⟩, ?_⟩
  · intro begun hb stopped hstop
    obtain ⟨⟨l, files⟩, save⟩ := begun
    obtain ⟨hl, hconfined⟩ := c.confined_of_logged fs cs _ hb
    subst hl
    have hgrows := hconfined.toSameDirectories.grows
    have hready := hprepared.grows hgrows
    have hs : c.layout.Apart files.workingDirectory := by
      rw [hgrows.workingDirectory]
      exact hapart
    refine ⟨fun q hq => hstop.read_cases hready hs hq, ?_, ?_⟩
    · exact Config.openFiles_of_prepared hvalid (hready.grows hstop.sameDirectories.grows)
    · obtain rfl | hc := hstop.cases_of_apart
      · exact ⟨_, .inr rfl, fun _ => rfl⟩
      · have hafter : FileStorage.SameDocuments c.layout ⟨c.layout, files⟩ ⟨c.layout, stopped⟩ :=
          ⟨rfl, rfl, hready, hs, hc⟩
        exact ⟨_, .inl rfl, hafter.transcript_eq c.cacheEnabled⟩
  · intro fs₁ fs₂ hg hc
    have h := hsame fs₁ fs₂ hg hc
    exact ⟨h.loads_eq, h.transcript_eq c.cacheEnabled⟩

namespace FileStorage

/-- The default layout, with a draft of the registry that has been left behind. -/
def staleFiles : FileSystem := openedFiles.set ["db_meta.json.tmp", "work"] (.file "[".toUTF8)

theorem saves_all_or_nothing_default :
    Config.default.openFiles .empty = .ok (Config.default.engineOn openedFiles) openedFiles ∧
      Storage.loads (⟨.default, staleFiles⟩ : FileStorage) =
        Storage.loads (⟨.default, openedFiles⟩ : FileStorage) := by
  have hopen : Config.default.openFiles .empty =
    .ok (Config.default.engineOn openedFiles) openedFiles := rfl
  obtain ⟨-, -, hstale⟩ := saves_all_or_nothing hopen (FileLayout.underRoot_apart ⟨""⟩ _)
  have hwrite : openedFiles.write (draft ⟨"db_meta.json"⟩) "[".toUTF8 = .ok staleFiles := rfl
  refine ⟨hopen, (hstale openedFiles staleFiles (.refl _) ?_).1⟩
  refine (FileSystem.changesOnly_draft hwrite).1.mono ?_
  rintro _ rfl
  exact ⟨_, .registry, rfl⟩

/-! A registry in the place of the draft of the table `t`, in a configuration that is accepted
because the directory of the registry is spelled `./data`. -/

def underDraft : Config := ⟨⟨⟨"./data/t.json.tmp"⟩, ⟨"data"⟩⟩, true⟩

/-- A save of the empty table has been stopped after one byte. -/
def stoppedFiles : FileSystem := openedFiles.set ["t.json.tmp", "data", "work"] (.file "[".toUTF8)

theorem registry_of_part : (Document.decode? "[".toUTF8 : Option Registry) = none := by
  rw [Document.decode?_toUTF8]
  rfl

/-- The registry is neither as before the save nor as after it. -/
theorem registry_stopped :
    underDraft.openFiles .empty = .ok (underDraft.engineOn openedFiles) openedFiles ∧
      (Save.table "t" []).Stops ⟨underDraft.layout, openedFiles⟩ stoppedFiles ∧
      (Storage.loads (⟨underDraft.layout, openedFiles⟩ : FileStorage)).registry =
        .ok ⟨.empty, none⟩ ∧
      (Storage.loads (finalState
        ((Save.table "t" []).perform (⟨underDraft.layout, openedFiles⟩ : FileStorage)))).registry =
        .ok ⟨.empty, none⟩ ∧
      (Storage.loads (⟨underDraft.layout, stoppedFiles⟩ : FileStorage)).registry =
        .ok ⟨.empty, some (.storageCorrupt ⟨"./data/t.json.tmp"⟩ "not a document of its kind")⟩ := by
  refine ⟨rfl, ?_, rfl, rfl, ?_⟩
  · have hbytes : (Save.table "t" []).contents.extract 0 1 = "[".toUTF8 := rfl
    refine .meanwhile (p := ⟨"data/t.json"⟩) (n := 1) rfl ?_
    rw [hbytes]
    rfl
  · have hread : stoppedFiles.read ⟨"./data/t.json.tmp"⟩ = .ok "[".toUTF8 := rfl
    refine (outcome_onFiles _ _).trans ?_
    exact congrArg outcome (FileSystem.loadDocument_damaged registry_of_part hread)

end FileStorage
end TableStore
