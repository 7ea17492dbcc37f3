import TableStore.Proofs.Encoding
import TableStore.Proofs.Opening
import TableStore.Proofs.PartialFailure
import TableStore.Proofs.Simulation
import TableStore.Proofs.WellFormed

/-!
A storage in files can stand for one in memory. Opened in an empty directory, it holds at every
moment what the other one holds, as long as the names of tables are not too long for the file
system; and nobody who talks to the database can tell which of the two it has.
-/

namespace TableStore

open FileSystem (Opened Room SameDirectories SameTables Vacant)

/-! ## Documents -/

/-- What is read in the place of a document that is stored or not. -/
def stored {α : Type} [Document α] : Option α → Except Fault ByteArray
  | some value => .ok (Document.encode value)
  | none => .error .missing

theorem FileSystem.loadDocument_stored {α : Type} [Document α] {fs : FileSystem} {p : Path}
    {value : Option α} (hd : ∀ a : α, Document.decode? (Document.encode a) = some a)
    (h : fs.read p = stored value) :
    (loadDocument p : EStateM Error FileSystem (Loaded α)) fs =
      .ok ⟨value.getD Document.blank, none⟩ fs := by
  cases value with
  | none => exact loadDocument_missing h
  | some a => exact loadDocument_encode (hd a) h

/-- A table has a name for which there is a name of a draft. -/
def Usable (table : String) : Prop := Text.isIdentifier table ∧ table.utf8ByteSize ≤ 246

/-- There is room for the registry and for all tables that can be used. -/
structure FileSystem.Roomy (fs : FileSystem) (root : Path) : Prop where
  registry : fs.Room (root.join "db_meta.json")
  table : ∀ t, Usable t → fs.Room ((root.join "data").join (documentName t))

theorem FileSystem.Roomy.of_sameDirectories {fs fs' : FileSystem} {root : Path} (hr : fs.Roomy root)
    (h : SameDirectories fs fs') : fs'.Roomy root :=
  ⟨hr.registry.of_sameDirectories h, fun t ht => (hr.table t ht).of_sameDirectories h⟩

/-! ## Storages -/

namespace FileStorage

/-- The files under a root hold what the memory holds. A registry that has not been saved yet is
empty in memory and missing in files. -/
structure StandsFor (root : Path) (s : FileStorage) (m : MemoryStorage) : Prop where
  layout : s.layout = .underRoot root
  roomy : s.files.Roomy root
  registry : ∃ r : Option Registry, s.files.registryBytes root = stored r ∧ r.getD .empty = m.registry
  tables : ∀ t, Usable t → s.files.tableBytes root t = stored (m.rows? t)
  names : ∀ t ∈ m.registry.names, Usable t

variable {root : Path} {s : FileStorage} {m m' : MemoryStorage} {fs fs' : FileSystem} {table : String}

namespace StandsFor

theorem eq_under (h : StandsFor root s m) : ∃ fs, s = under root fs :=
  ⟨s.files, (under_files h.layout).symm⟩

/-- The same is done to one table on both sides. -/
theorem withTable (h : StandsFor root (under root fs) m) (hd : SameDirectories fs fs')
    (hr : fs'.registryBytes root = fs.registryBytes root) {rows : Option (List Row)}
    (ht : fs'.tableBytes root table = stored rows) (same : SameTables root (· = table) fs fs')
    (hr' : m'.registry = m.registry)
    (ht' : ∀ t, m'.rows? t = if t = table then rows else m.rows? t) :
    StandsFor root (under root fs') m' := by
  refine ⟨rfl, h.roomy.of_sameDirectories hd, ?_, fun t hu => ?_, ?_⟩
  · rw [hr, hr']
    exact h.registry
  · rw [ht']
    split
    · next he => exact he ▸ ht
    · next hne => exact (same t hu.1 hne).trans (h.tables t hu)
  · rw [hr']
    exact h.names

end StandsFor

/-- No call tells a storage in files from one in memory if the files hold what the memory holds. -/
theorem alike_standsFor (root : Path) : Storage.Alike (StandsFor root) Usable fun _ => False where
  loadRegistry := by
    refine agree_of_ok fun s m h => ?_
    obtain ⟨fs, rfl⟩ := h.eq_under
    obtain ⟨r, hr, he⟩ := h.registry
    have hload := FileSystem.loadDocument_stored Document.decode?_encode_registry hr
    refine ⟨⟨m.registry, none⟩, under root fs, _, ?_, rfl, ⟨h.names, nofun⟩,
      rfl, h.roomy, h.registry, h.tables, h.names⟩
    exact onFiles_eq_ok.mpr ⟨he ▸ hload, rfl⟩
  saveRegistry r hr := by
    refine agree_of_ok fun s m h => ?_
    obtain ⟨fs, rfl⟩ := h.eq_under
    obtain ⟨fs', hsave⟩ := h.roomy.registry.saveDocument r
    obtain ⟨-, -, -, -, hc⟩ := FileSystem.saveDocument_ok hsave
    have hcall : Storage.saveRegistry r (under root fs) = .ok () (under root fs') :=
      onFiles_eq_ok.mpr ⟨hsave, rfl⟩
    obtain ⟨_, he, -, hread, same⟩ := (ensures_saveRegistry r).ok hcall
    cases he
    refine ⟨(), _, _, hcall, rfl, trivial, rfl, h.roomy.of_sameDirectories hc.toSameDirectories,
      ⟨some r, hread, rfl⟩, fun t ht => ?_, hr⟩
    rw [same t ht.1 id]
    exact h.tables t ht
  loadTable table ht := by
    refine agree_of_ok fun s m h => ?_
    obtain ⟨fs, rfl⟩ := h.eq_under
    have hload := FileSystem.loadDocument_stored Document.decode?_encode_rows (h.tables table ht)
    exact ⟨⟨(m.rows? table).getD [], none⟩, under root fs, _, onTable_eq_ok ht.1 hload, rfl, nofun,
      rfl, h.roomy, h.registry, h.tables, h.names⟩
  saveTable table rows ht := by
    refine agree_of_ok fun s m h => ?_
    obtain ⟨fs, rfl⟩ := h.eq_under
    obtain ⟨fs', hsave⟩ := (h.roomy.table table ht).saveDocument rows
    obtain ⟨-, -, -, -, hc⟩ := FileSystem.saveDocument_ok hsave
    have hcall : Storage.saveTable table rows (under root fs) = .ok () (under root fs') :=
      onTable_eq_ok ht.1 hsave
    obtain ⟨_, he, -, -, hreg, hread, same⟩ := (ensures_saveTable table rows).ok hcall
    cases he
    exact ⟨(), _, _, hcall, rfl, trivial, h.withTable hc.toSameDirectories hreg hread same rfl
      fun t => MemoryStorage.rows?_save m table t rows⟩
  removeTable table ht := by
    refine agree_of_ok fun s m h => ?_
    obtain ⟨fs, rfl⟩ := h.eq_under
    obtain ⟨fs', hremove⟩ := (h.roomy.table table ht).document.removeDocument
    obtain ⟨-, hc⟩ := FileSystem.removeDocument_ok hremove
    have hcall : Storage.removeTable table (under root fs) = .ok () (under root fs') :=
      onTable_eq_ok ht.1 hremove
    obtain ⟨_, he, -, -, hreg, hread, same⟩ := (ensures_removeTable table).ok hcall
    cases he
    exact ⟨(), _, _, hcall, rfl, trivial, h.withTable hc.toSameDirectories hreg hread same rfl
      fun t => MemoryStorage.rows?_remove m table t⟩

end FileStorage

/-! ## Names -/

theorem size_documentName (t : String) : (documentName t).utf8ByteSize = t.utf8ByteSize + 5 := by
  rw [documentName, String.utf8ByteSize_append]
  rfl

theorem zero_not_mem_documentName {t : String} (h : Text.isIdentifier t) :
    '\x00' ∉ (documentName t).toList := by
  rw [documentName, String.toList_append, List.mem_append, not_or]
  exact ⟨Text.not_mem_of_isIdentifier h (by decide), by decide⟩

namespace FileSystem

variable {fs : FileSystem} {root p : Path} {d : Location} {n : String}

/-- A document is missing, and there is room for it, in a directory with nothing of its name and
of that of its draft. -/
theorem room_of_none (hn : Path.IsName n) (hm : Path.IsName (n ++ ".tmp")) (hz : '\x00' ∉ n.toList)
    (hl : n.utf8ByteSize + 4 ≤ maxName) (hp : p.Fits 256) (he : fs.enter p = .ok d)
    (hnone : fs.entry? (n :: d) = none) (hnone' : fs.entry? ((n ++ ".tmp") :: d) = none) :
    fs.Room (p.join n) ∧ fs.read (p.join n) = .error .missing := by
  have hsize : (n ++ ".tmp").utf8ByteSize = n.utf8ByteSize + 4 := by
    rw [String.utf8ByteSize_append]
    rfl
  have hz' : '\x00' ∉ (n ++ ".tmp").toList := by
    rw [String.toList_append, List.mem_append, not_or]
    exact ⟨hz, by decide⟩
  rw [maxName] at hl
  have hdocument : fs.LeadsTo (p.join n) (n :: d) :=
    leadsTo_of_fits hn (hp.join (k := 0) hz (by omega)) (by rw [maxName]; omega) he
  have hdraft : fs.LeadsTo (p.join (n ++ ".tmp")) ((n ++ ".tmp") :: d) :=
    leadsTo_of_fits hm (hp.join (k := 0) hz' (by omega)) (by rw [maxName]; omega) he
  rw [← draft_join] at hdraft
  refine ⟨⟨⟨n :: d, hdocument, ?_⟩, (n ++ ".tmp") :: d, hdraft, ?_⟩, read_of_none hdocument hnone⟩
  · simp [hnone]
  · simp [hnone']

/-- A new storage in memory holds what is in a directory where a database has been opened. -/
theorem Opened.standsFor (h : fs.Opened root d) (hfits : root.Fits 261) :
    FileStorage.StandsFor root (FileStorage.under root fs) .empty := by
  have hregistry := room_of_none isName_registry isName_registryDraft (by decide) (by decide)
    (hfits.mono (by decide)) h.above (h.beside _ (by decide)) (h.beside _ (by decide))
  have htable (t : String) (ht : Usable t) := by
    have hl : (documentName t).utf8ByteSize + 4 ≤ maxName := by
      rw [size_documentName, maxName]
      exact Nat.add_le_add_right ht.2 9
    exact room_of_none (isName_document ht.1) (isName_draft ht.1) (zero_not_mem_documentName ht.1) hl
      (hfits.join (by decide) (by decide)) h.data (h.within _) (h.within _)
  refine ⟨rfl, ⟨hregistry.1, fun t ht => (htable t ht).1⟩, ⟨none, hregistry.2, rfl⟩, fun t ht => ?_,
    nofun⟩
  exact (htable t ht).2

end FileSystem

/-! ## Sessions -/

theorem Command.createsOnly_usable {c : Command}
    (h : ∀ t, c.table? = some t → t.utf8ByteSize ≤ 246) : c.CreatesOnly Usable := by
  rintro table specs schema rfl hdef
  have hi := (Schema.define_wellFormed hdef).identifier
  rw [Schema.define_name hdef] at hi
  exact ⟨hi, h table rfl⟩

/-- The storages are interchangeable. Whatever is asked of the database, it answers the same over
files that start in an empty directory as it does over a new memory, as long as no table has a
name of more than 246 bytes; its cache is used the same, and no damage is ever reported. -/
theorem storages_interchangeable {fs : FileSystem} {root : Path} (hv : fs.Vacant root)
    (cacheEnabled : Bool) {cs : List Command}
    (hcs : ∀ c ∈ cs, ∀ t, c.table? = some t → t.utf8ByteSize ≤ 246) :
    let config := Config.mk (.underRoot root) cacheEnabled
    ∃ engine fs', config.openFiles fs = .ok engine fs' ∧
      engine.transcript cs = config.openMemory.transcript cs ∧
      ∀ o ∈ engine.transcript cs, o.diagnostics = [] := by
  obtain ⟨d, fs', hopening, hopened⟩ := hv.opening
  have hstorage := hopened.standsFor hv.fits
  have halike : Engine.Alike (FileStorage.StandsFor root) (fun _ => False)
      (Engine.create cacheEnabled (FileStorage.under root fs')) (Engine.create cacheEnabled .empty) :=
    ⟨rfl, hstorage, rfl, nofun⟩
  obtain ⟨heq, hreports⟩ := halike.transcript_eq (FileStorage.alike_standsFor root)
    fun c hc => Command.createsOnly_usable (hcs c hc)
  refine ⟨_, fs', ?_, heq, fun o ho => ?_⟩
  · rw [Session.openFiles_eq, hopening]
  · exact List.eq_nil_iff_forall_not_mem.mpr fun e he => hreports o ho e he

/-- A row is stored and read back, and one table is dropped that is there and one that is not. -/
theorem storages_interchangeable_default :
    let cs := [.createTable "t" [⟨"note", "str"⟩], .insert "t" [.text "a"], .select "t" none,
      .dropTable "u", .dropTable "t"]
    ∃ engine fs', Config.default.openFiles .empty = .ok engine fs' ∧
      engine.transcript cs = Config.default.openMemory.transcript cs ∧
      (∀ o ∈ engine.transcript cs, o.diagnostics = []) ∧
      (engine.transcript cs).map Observation.outcome =
        [.ok (.schema ⟨"t", [.id, ⟨"note", .text⟩]⟩), .ok (.inserted 1),
          .ok (.rows [.ofPairs [("ID", .integer 1), ("note", .text "a")]]),
          .error (.tableNotFound "u"), .ok (.schema ⟨"t", [.id, ⟨"note", .text⟩]⟩)] := by
  intro cs
  have hcs : ∀ c ∈ cs, ∀ t, c.table? = some t → t.utf8ByteSize ≤ 246 := by decide
  obtain ⟨engine, fs', hopen, htranscript, hreports⟩ :=
    storages_interchangeable FileSystem.vacant_empty true hcs
  refine ⟨engine, fs', hopen, htranscript, hreports, ?_⟩
  rw [htranscript]
  rfl

end TableStore
