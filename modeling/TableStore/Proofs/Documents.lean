import TableStore.Proofs.Directories
import TableStore.Proofs.Saves

/-!
Saving and removing a document changes entries beside each other in one directory, and what
can be read elsewhere stays as it was. A save that fails has at most left a draft.
-/

namespace TableStore

namespace FileSystem

open TableStore.Path (IsName)

variable {fs fs' fs'' : FileSystem} {p : Path} {n m : String} {d : Location}

/-- Nothing but the entries with these names in one directory differs, and none of them is or
was a directory. -/
structure Touches (d : Location) (names : List String) (fs fs' : FileSystem) : Prop where
  workingDirectory : fs'.workingDirectory = fs.workingDirectory
  directory : ∀ l, fs'.entry? l = some .directory ↔ fs.entry? l = some .directory
  elsewhere : ∀ l, (∀ n ∈ names, l ≠ n :: d) → fs'.entry? l = fs.entry? l

namespace Touches

variable {names names' : List String}

theorem grows (h : Touches d names fs fs') : Grows fs fs' :=
  ⟨h.workingDirectory, fun l => (h.directory l).mpr⟩

theorem of_changesOnly {places : Location → Prop} (h : ChangesOnly places fs fs')
    (hp : ∀ l, places l → ∃ n ∈ names, l = n :: d) : Touches d names fs fs' := by
  refine ⟨h.workingDirectory, h.directory, fun l hl => h.elsewhere l fun hplace => ?_⟩
  obtain ⟨n, hn, he⟩ := hp l hplace
  exact hl n hn he

end Touches

/-! ## Operations on a name in a directory -/

theorem read_join_congr (hn : IsName n) (he : fs'.enter p = fs.enter p)
    (h : ∀ d, fs.enter p = .ok d → fs'.entry? (n :: d) = fs.entry? (n :: d)) :
    fs'.read (p.join n) = fs.read (p.join n) := by
  simp only [read]
  rw [resolve_join_congr hn he]
  cases hr : fs.resolve (p.join n) with
  | error fault => rfl
  | ok target =>
      obtain ⟨-, d, hd, rfl⟩ := (resolve_join_eq_ok hn).mp hr
      change (fs'.find? d n >>= _) = (fs.find? d n >>= _)
      rw [find?_congr (h d hd)]

/-! ## Documents -/

theorem draft_join (p : Path) (n : String) : draft (p.join n) = p.join (n ++ ".tmp") := by
  simp only [draft, Path.withSuffix, Path.join]
  split <;> simp only [String.append_assoc]

variable {α : Type} [Document α]

/-- A save writes the document and leaves no draft; one that fails has changed the draft at
most. -/
theorem ensures_saveDocument (hn : IsName n) (hm : IsName (n ++ ".tmp")) (value : α) :
    Ensures (saveDocument (p.join n) value) fs
      (fun _ fs' => ∃ d, fs.enter p = .ok d ∧ Touches d [n ++ ".tmp", n] fs fs' ∧
        fs'.read (p.join n) = .ok (Document.encode value))
      fun _ fs' => fs' = fs ∨ ∃ d, fs.enter p = .ok d ∧ Touches d [n ++ ".tmp"] fs fs' := by
  refine ensures_of_cases ?_ ?_
  · intro _ fs' h
    obtain ⟨hread, -, -, -, hc⟩ := saveDocument_ok h
    obtain ⟨l, hl, -⟩ := read_eq_ok.mp hread
    obtain ⟨-, -, d, hd, rfl⟩ := (leadsTo_join hn).mp (hc.toSameDirectories.leadsTo_iff.mp hl)
    refine ⟨d, hd, .of_changesOnly hc ?_, hread⟩
    simp [draft_join, Path.location_join p hn, Path.location_join p hm, location_of_enter hd]
  · intro e fs' h
    by_cases hw : fs.Writable (draft (p.join n))
    · obtain ⟨l, hl, -⟩ := hw
      rw [draft_join] at hl
      obtain ⟨-, -, d, hd, rfl⟩ := (leadsTo_join hm).mp hl
      refine .inr ⟨d, hd, .of_changesOnly (saveDocument_error h).1 ?_⟩
      simp [draft_join, Path.location_join p hm, location_of_enter hd]
    · have hsame := finalState_saveDocument_of_not_writable hw value
      rw [h] at hsame
      exact .inl hsame

/-- A document that has been removed is missing; a removal that fails changes nothing. -/
theorem ensures_removeDocument (hn : IsName n) :
    Ensures (removeDocument (p.join n)) fs
      (fun _ fs' => fs'.read (p.join n) = .error .missing ∧
        (fs' = fs ∨ ∃ d, fs.enter p = .ok d ∧ Touches d [n] fs fs'))
      fun _ fs' => fs' = fs := by
  refine ensures_of_cases ?_ fun _ _ => removeDocument_error
  intro _ fs' h
  obtain ⟨hread, hc⟩ := removeDocument_ok h
  refine ⟨hread, ?_⟩
  by_cases hw : fs.Writable (p.join n)
  · obtain ⟨l, hl, -⟩ := hw
    obtain ⟨-, -, d, hd, rfl⟩ := (leadsTo_join hn).mp hl
    refine .inr ⟨d, hd, .of_changesOnly hc ?_⟩
    simp [Path.location_join p hn, location_of_enter hd]
  · have hsame := finalState_removeDocument_of_not_writable hw
    rw [h] at hsame
    exact .inl hsame

theorem finalState_loadDocument (file : Path) (fs : FileSystem) :
    finalState ((loadDocument file : EStateM Error FileSystem (Loaded α)) fs) = fs := by
  rw [loadDocument]
  split
  · rfl
  · rfl
  · split <;> rfl

/-- What is loaded depends on what can be read alone. -/
theorem outcome_loadDocument {file : Path} (h : fs'.read file = fs.read file) :
    outcome ((loadDocument file : EStateM Error FileSystem (Loaded α)) fs') =
      outcome ((loadDocument file : EStateM Error FileSystem (Loaded α)) fs) := by
  simp only [loadDocument]
  rw [h]
  split
  · rfl
  · rfl
  · split <;> rfl

/-- What is reported as damaged is loaded as a blank document. -/
theorem blank_of_corruption {file : Path} {loaded : Loaded α}
    (h : outcome ((loadDocument file : EStateM Error FileSystem (Loaded α)) fs) = .ok loaded) :
    loaded.corruption = none ∨ loaded.value = Document.blank := by
  rw [loadDocument] at h
  split at h
  · cases h
    exact .inl rfl
  · cases h
  · split at h
    · cases h
      exact .inl rfl
    · cases h
      exact .inr rfl

theorem loadDocument_missing {file : Path} (h : fs.read file = .error .missing) :
    (loadDocument file : EStateM Error FileSystem (Loaded α)) fs = .ok ⟨Document.blank, none⟩ fs := by
  rw [loadDocument, h]

theorem loadDocument_encode {file : Path} {value : α}
    (hd : Document.decode? (Document.encode value) = some value)
    (h : fs.read file = .ok (Document.encode value)) :
    (loadDocument file : EStateM Error FileSystem (Loaded α)) fs = .ok ⟨value, none⟩ fs := by
  simp only [loadDocument, h, hd]

theorem loadDocument_damaged {file : Path} {bytes : ByteArray}
    (hd : Document.decode? bytes = (none : Option α)) (h : fs.read file = .ok bytes) :
    (loadDocument file : EStateM Error FileSystem (Loaded α)) fs =
      .ok ⟨Document.blank, some (.storageCorrupt file "not a document of its kind")⟩ fs := by
  simp only [loadDocument, h, hd]

end FileSystem
end TableStore
