import TableStore.Proofs.Documents

/-!
The documents of a database under a root directory do not get into each other's way: no save
or removal of one document changes what can be read of another one.
-/

namespace TableStore

/-! ## Names of files -/

theorem Text.not_mem_of_isIdentifier {name : String} (h : isIdentifier name) {c : Char}
    (hc : continuesIdentifier c = false) : c ∉ name.toList := by
  rw [isIdentifier] at h
  split at h
  · cases h
  · next first rest he =>
      rw [Bool.and_eq_true, List.all_eq_true] at h
      rw [he, List.mem_cons, not_or]
      refine ⟨?_, fun hm => ?_⟩
      · intro he
        cases he
        have hs := h.1
        simp only [continuesIdentifier, startsIdentifier, Char.isAlphanum, Bool.or_eq_true,
          Bool.or_eq_false_iff] at hs hc
        obtain hs | hs := hs
        · exact absurd (hc.1.1.symm.trans hs) nofun
        · exact absurd (hc.2.symm.trans hs) nofun
      · exact absurd (hc.symm.trans (h.2 c hm)) nofun

def documentName (table : String) : String := table ++ ".json"

/-- The document of a table whose name is an identifier. -/
def FileLayout.tableDocument (l : FileLayout) (table : String) : Path :=
  l.dataDirectory.join (documentName table)

section
variable {table t : String}

theorem isName_document (h : Text.isIdentifier table) : Path.IsName (documentName table) :=
  Path.isName_append (Text.not_mem_of_isIdentifier h (by decide)) (by decide) (by decide)

theorem isName_draft (h : Text.isIdentifier table) :
    Path.IsName (documentName table ++ ".tmp") := by
  rw [documentName, String.append_assoc]
  exact Path.isName_append (Text.not_mem_of_isIdentifier h (by decide)) (by decide) (by decide)

theorem documentName_ne (h : t ≠ table) : documentName t ≠ documentName table := by
  intro he
  have hl := congrArg String.toList he
  simp only [documentName, String.toList_append] at hl
  exact h (String.toList_inj.mp (List.append_cancel_right hl))

theorem documentName_ne_draft {n : String} : documentName t ≠ n ++ ".tmp" := by
  intro he
  have hl := congrArg (fun s => s.toList.getLast?) he
  simp [documentName] at hl

end

namespace FileSystem

open TableStore.Path (IsName)

variable {fs fs' : FileSystem} {p : Path} {n m : String} {d : Location} {names : List String}

namespace Touches

theorem read_beside (h : Touches d names fs fs') (hn : IsName n) (hd : fs.enter p = .ok d)
    (hne : n ∉ names) : fs'.read (p.join n) = fs.read (p.join n) := by
  refine read_join_congr hn ((h.grows.enter hd).trans hd.symm) fun d' hd' => ?_
  cases hd.symm.trans hd'
  refine h.elsewhere _ fun n' hn' he => hne ?_
  rw [(List.cons.inj he).1]
  exact hn'

theorem read_above (h : Touches d names fs fs') (hn : IsName n) (hm : IsName m)
    (hd : fs.enter (p.join m) = .ok d) : fs'.read (p.join n) = fs.read (p.join n) := by
  obtain ⟨above, ha, rfl⟩ := enter_join_eq_ok hm hd
  refine read_join_congr hn ((h.grows.enter ha).trans ha.symm) fun d' hd' => ?_
  cases ha.symm.trans hd'
  refine h.elsewhere _ fun n' _ he => ?_
  have hl := congrArg List.length he
  simp at hl

theorem read_below (h : Touches d names fs fs') (hn : IsName n) (hm : IsName m)
    (hd : fs.enter p = .ok d) (hne : m ∉ names) :
    fs'.read ((p.join m).join n) = fs.read ((p.join m).join n) := by
  have he : fs'.enter (p.join m) = fs.enter (p.join m) := by
    refine enter_join_congr hm ((h.grows.enter hd).trans hd.symm) fun d' hd' => ?_
    cases hd.symm.trans hd'
    refine h.elsewhere _ fun n' hn' he => hne ?_
    rw [(List.cons.inj he).1]
    exact hn'
  refine read_join_congr hn he fun d' hd' => ?_
  obtain ⟨above, ha, rfl⟩ := enter_join_eq_ok hm hd'
  cases ha.symm.trans hd
  refine h.elsewhere _ fun n' _ he => ?_
  have hl := congrArg List.length he
  simp at hl

end Touches

/-! ## The documents under a root -/

def registryBytes (fs : FileSystem) (root : Path) : Except Fault ByteArray :=
  fs.read (root.join "db_meta.json")

def tableBytes (fs : FileSystem) (root : Path) (table : String) : Except Fault ByteArray :=
  fs.read ((root.join "data").join (documentName table))

/-- All table documents but that of `except` read the same. -/
def SameTables (root : Path) (except : String → Prop) (fs fs' : FileSystem) : Prop :=
  ∀ t, Text.isIdentifier t → ¬ except t → fs'.tableBytes root t = fs.tableBytes root t

variable {root : Path} {table : String}

theorem isName_registry : IsName "db_meta.json" :=
  ⟨by decide, by decide, by decide, by decide⟩

theorem isName_registryDraft : IsName ("db_meta.json" ++ ".tmp") :=
  ⟨by decide, by decide, by decide, by decide⟩

theorem isName_data : IsName "data" := ⟨by decide, by decide, by decide, by decide⟩

theorem ensures_saveRegistry (root : Path) (r : Registry) (fs : FileSystem) :
    Ensures (saveDocument (root.join "db_meta.json") r) fs
      (fun _ fs' => Grows fs fs' ∧ fs'.registryBytes root = .ok (Document.encode r) ∧
        SameTables root (fun _ => False) fs fs')
      fun _ fs' => Grows fs fs' ∧ fs'.registryBytes root = fs.registryBytes root ∧
        SameTables root (fun _ => False) fs fs' := by
  refine (ensures_saveDocument isName_registry isName_registryDraft r).mono ?_ ?_
  · intro _ fs' hpost
    obtain ⟨d, hd, ht, hr⟩ := hpost
    exact ⟨ht.grows, hr, fun t hi _ =>
      ht.read_below (isName_document hi) isName_data hd (by decide)⟩
  · intro _ fs' hpost
    obtain rfl | ⟨d, hd, ht⟩ := hpost
    · exact ⟨.refl _, rfl, fun _ _ _ => rfl⟩
    · exact ⟨ht.grows, ht.read_beside isName_registry hd (by decide), fun t hi _ =>
        ht.read_below (isName_document hi) isName_data hd (by decide)⟩

theorem ensures_saveTable (root : Path) (ht : Text.isIdentifier table) (rows : List Row)
    (fs : FileSystem) :
    Ensures (saveDocument ((root.join "data").join (documentName table)) rows) fs
      (fun _ fs' => Grows fs fs' ∧ fs'.registryBytes root = fs.registryBytes root ∧
        fs'.tableBytes root table = .ok (Document.encode rows) ∧
        SameTables root (· = table) fs fs')
      fun _ fs' => Grows fs fs' ∧ fs'.registryBytes root = fs.registryBytes root ∧
        SameTables root (fun _ => False) fs fs' := by
  refine (ensures_saveDocument (isName_document ht) (isName_draft ht) rows).mono ?_ ?_
  · intro _ fs' hpost
    obtain ⟨d, hd, htouch, hr⟩ := hpost
    refine ⟨htouch.grows, htouch.read_above isName_registry isName_data hd, hr, fun t hi hne => ?_⟩
    refine htouch.read_beside (isName_document hi) hd ?_
    simp [documentName_ne_draft, documentName_ne hne]
  · intro _ fs' hpost
    obtain rfl | ⟨d, hd, htouch⟩ := hpost
    · exact ⟨.refl _, rfl, fun _ _ _ => rfl⟩
    · refine ⟨htouch.grows, htouch.read_above isName_registry isName_data hd, fun t hi _ => ?_⟩
      exact htouch.read_beside (isName_document hi) hd (by simp [documentName_ne_draft])

theorem ensures_removeTable (root : Path) (ht : Text.isIdentifier table) (fs : FileSystem) :
    Ensures (removeDocument ((root.join "data").join (documentName table))) fs
      (fun _ fs' => Grows fs fs' ∧ fs'.registryBytes root = fs.registryBytes root ∧
        fs'.tableBytes root table = .error .missing ∧ SameTables root (· = table) fs fs')
      fun _ fs' => fs' = fs := by
  refine (ensures_removeDocument (isName_document ht)).mono ?_ fun _ _ h => h
  intro _ fs' hpost
  obtain ⟨hr, rfl | ⟨d, hd, htouch⟩⟩ := hpost
  · exact ⟨.refl _, rfl, hr, fun _ _ _ => rfl⟩
  · refine ⟨htouch.grows, htouch.read_above isName_registry isName_data hd, hr, fun t hi hne => ?_⟩
    exact htouch.read_beside (isName_document hi) hd (by simp [documentName_ne hne])

end FileSystem
end TableStore
