import TableStore.Proofs.Encoding
import TableStore.Proofs.Files
import TableStore.Proofs.Integrity

/-!
What a storage in files holds, if all its documents are its own. A storage in files follows its
contents, so that they stay well-formed.
-/

namespace TableStore.FileStorage

open FileSystem (SameTables)

variable {root : Path} {fs fs' : FileSystem} {s : FileStorage} {d : Contents} {table : String}

/-- A place holds a document, or nothing that could be read as one. -/
def Held {α : Type} [Document α] (bytes : Except Fault ByteArray) : Option α → Prop
  | some value => bytes = .ok (Document.encode value)
  | none => ∀ b, bytes ≠ .ok b

/-- The files under a root hold the contents. -/
structure Holds (root : Path) (s : FileStorage) (d : Contents) : Prop where
  layout : s.layout = .underRoot root
  registry : Held (s.files.registryBytes root) (some d.registry) ∨
    d.registry = .empty ∧ Held (s.files.registryBytes root) (none : Option Registry)
  identifiers : ∀ t, (d.rows? t).isSome → Text.isIdentifier t
  tables : ∀ t, Text.isIdentifier t → Held (s.files.tableBytes root t) (d.rows? t)

theorem ensures_loadHeld {α : Type} [Document α] {file : Path} {value : Option α}
    (hd : ∀ a : α, Document.decode? (Document.encode a) = some a)
    (h : Held (fs.read file) value) :
    Ensures (FileSystem.loadDocument file) fs
      (fun (loaded : Loaded α) fs' => loaded.value = value.getD Document.blank ∧ fs' = fs)
      fun _ fs' => fs' = fs := by
  cases value with
  | some a =>
      rw [Ensures]
      rw [FileSystem.loadDocument_encode (hd a) h]
      exact ⟨rfl, rfl⟩
  | none =>
      rw [Ensures, FileSystem.loadDocument]
      cases hr : fs.read file with
      | ok b => exact absurd hr (h b)
      | error fault =>
          cases fault with
          | missing => exact ⟨rfl, rfl⟩
          | _ => rfl

theorem holds_of_same (hs : Holds root (under root fs) d)
    (hr : fs'.registryBytes root = fs.registryBytes root)
    (ht : SameTables root (fun _ => False) fs fs') : Holds root (under root fs') d := by
  refine ⟨rfl, ?_, hs.identifiers, fun t hi => ?_⟩
  · rw [hr]
    exact hs.registry
  · rw [ht t hi id]
    exact hs.tables t hi

/-- A storage in files does to its contents what contents do by themselves, or fails. -/
theorem follows (root : Path) : Storage.Follows (Holds root) fun _ => True where
  loadRegistry s d h := by
    obtain ⟨l, fs⟩ := s
    cases h.layout
    have hload {value : Option Registry} (hv : Held (fs.registryBytes root) value)
        (he : value.getD .empty = d.registry) : Storage.Turns (Holds root) (fun _ => True)
          Storage.loadRegistry (under root fs) d d fun loaded => loaded.value = d.registry :=
      ensures_onFiles ((ensures_loadHeld Document.decode?_encode_registry hv).mono
        (fun _ _ ⟨hl, hf⟩ => ⟨hl.trans he, hf ▸ h, id⟩) fun _ _ hf => ⟨hf ▸ h, trivial⟩)
    obtain hv | ⟨he, hv⟩ := h.registry
    · exact hload hv rfl
    · exact hload hv he.symm
  saveRegistry r s d h := by
    obtain ⟨l, fs⟩ := s
    cases h.layout
    refine (ensures_saveRegistry r).mono ?_ ?_
    · intro _ s' hpost
      obtain ⟨fs', rfl, -, hr, same⟩ := hpost
      refine ⟨trivial, ⟨rfl, .inl hr, h.identifiers, fun t hi => ?_⟩, id⟩
      rw [same t hi id]
      exact h.tables t hi
    · intro _ s' hpost
      obtain ⟨fs', rfl, -, hr, same⟩ := hpost
      exact ⟨holds_of_same h hr same, trivial⟩
  loadTable table s d h := by
    obtain ⟨l, fs⟩ := s
    cases h.layout
    refine ensures_onFiles (ensures_bind (ensures_ofExcept ?_ fun e _ => ⟨h, trivial⟩))
    intro file hf
    by_cases hi : Text.isIdentifier table
    · cases (tableFile_eq hi).symm.trans hf
      exact (ensures_loadHeld Document.decode?_encode_rows (h.tables table hi)).mono
        (fun _ _ ⟨hl, hf⟩ => ⟨hl, hf ▸ h, id⟩) fun _ _ hf => ⟨hf ▸ h, trivial⟩
    · cases (tableFile_of_not hi).symm.trans hf
  saveTable table rows s d h := by
    obtain ⟨l, fs⟩ := s
    cases h.layout
    refine (ensures_saveTable table rows).mono ?_ ?_
    · intro _ s' hpost
      obtain ⟨fs', rfl, hi, -, hr, ht, same⟩ := hpost
      refine ⟨trivial, ⟨rfl, hr.symm ▸ h.registry, fun t hsome => ?_, fun t hi' => ?_⟩, id⟩
      · rw [Contents.rows?_put] at hsome
        split at hsome
        · next he => exact he ▸ hi
        · exact h.identifiers t hsome
      · rw [Contents.rows?_put]
        split
        · next he => exact he ▸ ht
        · next hne => exact (same t hi' hne).symm ▸ h.tables t hi'
    · intro _ s' hpost
      obtain ⟨fs', rfl, -, hr, same⟩ := hpost
      exact ⟨holds_of_same h hr same, trivial⟩
  removeTable table s d h := by
    obtain ⟨l, fs⟩ := s
    cases h.layout
    refine (ensures_removeTable table).mono ?_ ?_
    · intro _ s' hpost
      obtain ⟨fs', rfl, hi, -, hr, ht, same⟩ := hpost
      refine ⟨trivial, ⟨rfl, hr.symm ▸ h.registry, fun t hsome => ?_, fun t hi' => ?_⟩, id⟩
      · rw [Contents.rows?_remove] at hsome
        split at hsome
        · cases hsome
        · exact h.identifiers t hsome
      · rw [Contents.rows?_remove]
        split
        · next he =>
            subst he
            intro b hb
            cases ht.symm.trans hb
        · next hne => exact (same t hi' hne).symm ▸ h.tables t hi'
    · intro _ s' hs'
      cases hs'
      exact ⟨h, trivial⟩

/-- A database in files that starts where there is no document stays well-formed, whatever
operations on files fail. -/
theorem reachable_intact (hr : ∀ b, fs.registryBytes root ≠ .ok b)
    (ht : ∀ t, Text.isIdentifier t → ∀ b, fs.tableBytes root t ≠ .ok b) (cacheEnabled : Bool)
    (cs : List Command) :
    let e := (runAll (cs.map Command.run) (Engine.create cacheEnabled (under root fs))).2
    Storage.Intact (Holds root) (fun _ => True) e.source.storage :=
  Command.runAll_intact (follows root) cs
    (Storage.intact_empty ⟨rfl, .inr ⟨rfl, hr⟩, nofun, ht⟩)

end TableStore.FileStorage
