import TableStore.Proofs.Separation

/-!
Drafts that have been left behind, in a database whose registry is apart from its tables. Files
that differ in drafts only cannot be told apart by any call of the storage, and so by no run.
-/

namespace TableStore

namespace FileSystem

variable {fs fs' : FileSystem} {p q : Path} {l : Location} {places : Location → Prop}

/-! ## The same operation on files that are nearly the same -/

theorem ChangesOnly.set (h : ChangesOnly places fs fs') {n : String} {d : Location} (entry : Entry) :
    ChangesOnly places (fs.set (n :: d) entry) (fs'.set (n :: d) entry) := by
  refine ⟨⟨h.workingDirectory, fun l => ?_⟩, fun l hl => ?_⟩
  · rw [entry?_set, entry?_set]
    split
    · rfl
    · exact h.directory l
  · rw [entry?_set, entry?_set]
    split
    · rfl
    · exact h.elsewhere l hl

theorem ChangesOnly.clear (h : ChangesOnly places fs fs') {n : String} {d : Location} :
    ChangesOnly places (fs.clear (n :: d)) (fs'.clear (n :: d)) := by
  refine ⟨⟨h.workingDirectory, fun l => ?_⟩, fun l hl => ?_⟩
  · rw [entry?_clear, entry?_clear]
    split
    · rfl
    · exact h.directory l
  · rw [entry?_clear, entry?_clear]
    split
    · rfl
    · exact h.elsewhere l hl

/-- The operations fail alike, or they succeed and leave files that are nearly the same. -/
def Alike (places : Location → Prop) (r r' : Except Fault FileSystem) : Prop :=
  match r, r' with
  | .ok fs, .ok fs' => ChangesOnly places fs fs'
  | .error fault, .error fault' => fault = fault'
  | _, _ => False

theorem Alike.cases {r r' : Except Fault FileSystem} (h : Alike places r r') :
    (∃ fault, r = .error fault ∧ r' = .error fault) ∨
      ∃ fs fs', r = .ok fs ∧ r' = .ok fs' ∧ ChangesOnly places fs fs' := by
  cases r with
  | error fault =>
      cases r' with
      | error fault' => exact .inl ⟨fault, rfl, congrArg _ (Eq.symm h)⟩
      | ok fs' => exact h.elim
  | ok fs =>
      cases r' with
      | error fault' => exact h.elim
      | ok fs' => exact .inr ⟨fs, fs', rfl, rfl, h⟩

theorem alike_write (h : ChangesOnly places fs fs') (hr : fs'.resolve p = fs.resolve p)
    (contents : ByteArray) : Alike places (fs.write p contents) (fs'.write p contents) := by
  by_cases hw : fs.Writable p
  · obtain ⟨l, hl, hne⟩ := hw
    have hl' := h.toSameDirectories.leadsTo_iff.mpr hl
    have hne' : fs'.entry? l ≠ some .directory := fun he => hne ((h.directory l).mp he)
    rw [write_eq_ok.mpr ⟨l, hl, hne, rfl⟩, write_eq_ok.mpr ⟨l, hl', hne', rfl⟩]
    obtain ⟨d, n, -, -, rfl⟩ := hl
    exact h.set _
  · -- It is the path or a directory that forbids to write, and these are the same.
    rw [write, write, hr]
    cases ht : fs.resolve p with
    | error fault => exact rfl
    | ok target =>
        cases target with
        | directory _ => exact rfl
        | name d n slash =>
            cases slash with
            | true => exact rfl
            | false =>
                simp only [bind, Except.bind, find?]
                by_cases hn : maxName < n.utf8ByteSize
                · simp only [if_pos hn]
                  exact rfl
                · have hd : fs.entry? (n :: d) = some .directory := by
                    refine Classical.byContradiction fun hne => hw ⟨n :: d, ?_, hne⟩
                    exact ⟨d, n, ht, Nat.le_of_not_lt hn, rfl⟩
                  simp only [if_neg hn, hd, (h.directory _).mpr hd]
                  exact rfl

theorem alike_rename (h : ChangesOnly places fs fs') (hr : fs'.resolve p = fs.resolve p)
    (hr' : fs'.resolve q = fs.resolve q)
    (he : fs'.entry? (p.location fs.workingDirectory) = fs.entry? (p.location fs.workingDirectory))
    (he' : fs'.entry? (q.location fs.workingDirectory) = fs.entry? (q.location fs.workingDirectory)) :
    Alike places (fs.rename p q) (fs'.rename p q) := by
  rw [rename, rename, hr, hr']
  cases hp : fs.resolve p with
  | error fault => exact rfl
  | ok source =>
      cases hq : fs.resolve q with
      | error fault => exact rfl
      | ok target =>
          rw [location_of_resolve hp] at he
          rw [location_of_resolve hq] at he'
          cases source with
          | directory _ => exact rfl
          | name d n slash =>
              cases target with
              | directory _ => exact rfl
              | name d' n' slash' =>
                  change Alike places (fs.find? d n >>= _) (fs'.find? d n >>= _)
                  rw [find?_congr he]
                  cases fs.find? d n with
                  | error fault => exact rfl
                  | ok found =>
                      cases found with
                      | none => exact rfl
                      | some entry =>
                          cases entry with
                          | directory => exact rfl
                          | file contents =>
                              change Alike places (fs.find? d' n' >>= _) (fs'.find? d' n' >>= _)
                              rw [find?_congr he']
                              cases fs.find? d' n' with
                              | error fault => exact rfl
                              | ok there =>
                                  simp only [bind, Except.bind]
                                  split
                                  · exact rfl
                                  · split
                                    · exact rfl
                                    · exact h.clear.set _

theorem alike_remove (h : ChangesOnly places fs fs') (hr : fs'.resolve p = fs.resolve p)
    (he : fs'.entry? (p.location fs.workingDirectory) = fs.entry? (p.location fs.workingDirectory)) :
    Alike places (fs.remove p) (fs'.remove p) := by
  rw [remove, remove, hr]
  cases hp : fs.resolve p with
  | error fault => exact rfl
  | ok target =>
      rw [location_of_resolve hp] at he
      cases target with
      | directory _ => exact rfl
      | name d n slash =>
          change Alike places (fs.find? d n >>= _) (fs'.find? d n >>= _)
          rw [find?_congr he]
          cases fs.find? d n with
          | error fault => exact rfl
          | ok found =>
              cases found with
              | none => exact rfl
              | some entry =>
                  cases entry with
                  | directory => exact rfl
                  | file contents =>
                      cases slash with
                      | true => exact rfl
                      | false => exact h.clear

/-! ## Documents -/

section
variable {α : Type} [Document α] (h : ChangesOnly places fs fs') (hg : fs.Grounded p)
  (hp : ¬ places (p.location fs.workingDirectory))
include h hg hp

theorem saveDocument_alike (value : α) :
    outcome (saveDocument p value fs) = outcome (saveDocument p value fs') ∧
      ChangesOnly places (finalState (saveDocument p value fs))
        (finalState (saveDocument p value fs')) := by
  obtain ⟨fault, hw, hw'⟩ | ⟨fs₁, fs₁', hw, hw', h₁⟩ :=
    (alike_write h (hg.resolve_draft_eq (h.sameAt hp)) (Document.encode value)).cases
  · simp only [saveDocument, hw, hw']
    exact ⟨rfl, h⟩
  · have hd := (changesOnly_draft hw).1.toSameDirectories
    have hsame : fs₁.SameAt fs₁' p := h₁.sameAt (hd.workingDirectory ▸ hp)
    have hg₁ := hg.grows hd
    have hdraft : fs₁'.entry? ((draft p).location fs₁.workingDirectory) =
        fs₁.entry? ((draft p).location fs₁.workingDirectory) := by
      obtain ⟨m, hm, -, rfl⟩ := write_eq_ok.mp hw
      obtain ⟨m', hm', -, rfl⟩ := write_eq_ok.mp hw'
      cases hm.unique (h.toSameDirectories.leadsTo_iff.mp hm')
      rw [hm.entry?_set, hm.entry?_set, hd.workingDirectory, hm.location_eq, if_pos rfl, if_pos rfl]
    obtain ⟨fault, hr, hr'⟩ | ⟨fs₂, fs₂', hr, hr', h₂⟩ :=
      (alike_rename h₁ (hg₁.resolve_draft_eq hsame) (hg₁.resolve_eq hsame) hdraft
        hsame.entry).cases
    · simp only [saveDocument, hw, hw', hr, hr']
      exact ⟨rfl, h₁⟩
    · simp only [saveDocument, hw, hw', hr, hr']
      exact ⟨rfl, h₂⟩

omit [Document α] in
theorem removeDocument_alike :
    outcome (removeDocument p fs) = outcome (removeDocument p fs') ∧
      ChangesOnly places (finalState (removeDocument p fs)) (finalState (removeDocument p fs')) := by
  have hsame := h.sameAt hp
  obtain ⟨fault, hr, hr'⟩ | ⟨fs₁, fs₁', hr, hr', h₁⟩ :=
    (alike_remove h (hg.resolve_eq hsame) hsame.entry).cases
  · simp only [removeDocument, hr, hr']
    cases fault <;> exact ⟨rfl, h⟩
  · simp only [removeDocument, hr, hr']
    exact ⟨rfl, h₁⟩

end

end FileSystem

namespace FileLayout

open FileSystem (draft)

variable {l : FileLayout} {d : Location} {p q : Path}

/-- The registry is neither in the place of a table nor in that of the draft of one. -/
def Apart (l : FileLayout) (d : Location) : Prop :=
  ∀ t, Text.isIdentifier t → l.metadataFile.location d ≠ (l.tableDocument t).location d ∧
    l.metadataFile.location d ≠ (draft (l.tableDocument t)).location d

/-- The places of drafts. -/
def IsDraft (l : FileLayout) (d place : Location) : Prop :=
  ∃ p, l.IsDocument p ∧ place = (draft p).location d

/-- Different tables have different places. -/
theorem location_tableDocument_ne {t u : String} (ht : Text.isIdentifier t)
    (hu : Text.isIdentifier u) (hne : t ≠ u) :
    (l.tableDocument t).location d ≠ (l.tableDocument u).location d := by
  rw [tableDocument, tableDocument, Path.location_join _ (isName_document ht),
    Path.location_join _ (isName_document hu)]
  exact fun he => documentName_ne hne (List.cons.inj he).1

namespace Apart

/-- No document has the place of another one. -/
theorem location_ne (h : l.Apart d) (hp : l.IsDocument p) (hq : l.IsDocument q) (hne : p ≠ q) :
    p.location d ≠ q.location d := by
  cases hp with
  | registry =>
      cases hq with
      | registry => exact absurd rfl hne
      | table hi => exact (h _ hi).1
  | table hi =>
      cases hq with
      | registry => exact Ne.symm (h _ hi).1
      | table hi' => exact location_tableDocument_ne hi hi' fun ht => hne (by rw [ht])

/-- No document has the place of a draft. -/
theorem not_isDraft (h : l.Apart d) (hp : l.IsDocument p) : ¬ l.IsDraft d (p.location d) := by
  rintro ⟨q, hq, he⟩
  cases hp with
  | registry =>
      cases hq with
      | registry => exact FileSystem.location_draft_ne _ d he.symm
      | table hi => exact (h _ hi).2 he
  | table hi => exact FileSystem.location_table_ne_draft l hi q d he

end Apart

/-- Under a root the registry is in the directory above that of the tables. -/
theorem underRoot_apart (root : Path) (d : Location) : (underRoot root).Apart d := by
  intro t hi
  have hregistry : (underRoot root).metadataFile.location d = "db_meta.json" :: root.location d :=
    Path.location_join root FileSystem.isName_registry d
  have hdata : (root.join "data").location d = "data" :: root.location d :=
    Path.location_join root FileSystem.isName_data d
  have hne : ∀ n : String, "db_meta.json" :: root.location d ≠ n :: "data" :: root.location d :=
    fun _ he => by simpa using congrArg List.length he
  rw [hregistry]
  refine ⟨?_, ?_⟩
  · have htable := Path.location_join (root.join "data") (isName_document hi) d
    exact fun he => hne _ (he.trans (htable.trans (by rw [hdata])))
  · have htable := Path.location_join (root.join "data") (isName_draft hi) d
    rw [← FileSystem.draft_join] at htable
    exact fun he => hne _ (he.trans (htable.trans (by rw [hdata])))

end FileLayout

namespace FileStorage

open FileSystem (ChangesOnly SameDirectories)

/-- Two storages in files that differ in drafts only. -/
structure SameDocuments (l : FileLayout) (s s' : FileStorage) : Prop where
  layout : s.layout = l
  layout' : s'.layout = l
  prepared : l.Prepared s.files
  apart : l.Apart s.files.workingDirectory
  files : ChangesOnly (l.IsDraft s.files.workingDirectory) s.files s'.files

namespace SameDocuments

variable {l : FileLayout} {s s' : FileStorage} {p : Path}

theorem step (h : SameDocuments l s s') {fs fs' : FileSystem} (hd : SameDirectories s.files fs)
    (hc : ChangesOnly (l.IsDraft s.files.workingDirectory) fs fs') :
    SameDocuments l ⟨l, fs⟩ ⟨l, fs'⟩ := by
  refine ⟨rfl, rfl, h.prepared.grows hd.grows, ?_, ?_⟩
  · rw [hd.workingDirectory]
    exact h.apart
  · rw [hd.workingDirectory]
    exact hc

theorem read_eq (h : SameDocuments l s s') (hp : l.IsDocument p) :
    s'.files.read p = s.files.read p :=
  (h.prepared.grounded hp).read_eq (h.files.sameAt (h.apart.not_isDraft hp))

end SameDocuments

variable {l : FileLayout} {α : Type}

/-- An action on a document agrees with itself if it does not tell drafts apart. -/
theorem agree_onDocument (document : FileLayout → Except Error Path)
    (hdoc : ∀ p, document l = .ok p → l.IsDocument p) {act : Path → EStateM Error FileSystem α}
    (hact : ∀ p s s', l.IsDocument p → SameDocuments l s s' →
      outcome (act p s.files) = outcome (act p s'.files) ∧
        SameDirectories s.files (finalState (act p s.files)) ∧
        ChangesOnly (l.IsDraft s.files.workingDirectory) (finalState (act p s.files))
          (finalState (act p s'.files))) :
    Agree (SameDocuments l) (fun _ => True) (onFiles fun l => ofExcept (document l) >>= act)
      (onFiles fun l => ofExcept (document l) >>= act) := by
  refine agree_of_outcome (fun _ => trivial) fun s s' h => ?_
  rw [outcome_onFiles, outcome_onFiles, finalState_onFiles, finalState_onFiles, h.layout, h.layout']
  cases hd : document l with
  | error e => exact ⟨rfl, h.step (.refl s.files) h.files⟩
  | ok p =>
      obtain ⟨ho, hsame, hc⟩ := hact p s s' (hdoc p hd) h
      exact ⟨ho, h.step hsame hc⟩

theorem isDocument_of_tableFile {t : String} {p : Path} (h : l.tableFile t = .ok p) :
    l.IsDocument p := by
  obtain ⟨hi, rfl⟩ := tableFile_eq_ok h
  exact .table hi

section
variable (document : FileLayout → Except Error Path)
  (hdoc : ∀ p, document l = .ok p → l.IsDocument p)
include hdoc

theorem agree_load [Document α] :
    Agree (SameDocuments l) (fun _ => True)
      (onFiles fun l => ofExcept (document l) >>= fun p =>
        (FileSystem.loadDocument p : EStateM Error FileSystem (Loaded α)))
      (onFiles fun l => ofExcept (document l) >>= FileSystem.loadDocument) := by
  refine agree_onDocument document hdoc fun p s s' hp h => ?_
  rw [FileSystem.finalState_loadDocument, FileSystem.finalState_loadDocument]
  exact ⟨(FileSystem.outcome_loadDocument (h.read_eq hp)).symm, .refl s.files, h.files⟩

theorem agree_save [Document α] (value : α) :
    Agree (SameDocuments l) (fun _ => True)
      (onFiles fun l => ofExcept (document l) >>= fun p => FileSystem.saveDocument p value)
      (onFiles fun l => ofExcept (document l) >>= fun p => FileSystem.saveDocument p value) := by
  refine agree_onDocument document hdoc fun p s s' hp h => ?_
  have hsave := FileSystem.saveDocument_alike h.files (h.prepared.grounded hp)
    (h.apart.not_isDraft hp) value
  exact ⟨hsave.1, (FileSystem.changesOnly_saveDocument p value s.files).toSameDirectories, hsave.2⟩

theorem agree_remove :
    Agree (SameDocuments l) (fun _ => True)
      (onFiles fun l => ofExcept (document l) >>= FileSystem.removeDocument)
      (onFiles fun l => ofExcept (document l) >>= FileSystem.removeDocument) := by
  refine agree_onDocument document hdoc fun p s s' hp h => ?_
  have hremove := FileSystem.removeDocument_alike h.files (h.prepared.grounded hp)
    (h.apart.not_isDraft hp)
  exact ⟨hremove.1, (FileSystem.changesOnly_removeDocument p s.files).toSameDirectories, hremove.2⟩

end

theorem isDocument_of_metadataFile {p : Path}
    (h : (.ok l.metadataFile : Except Error Path) = .ok p) :
    l.IsDocument p := by
  cases h
  exact .registry

/-- No call tells storages apart that differ in drafts only. -/
theorem alike_sameDocuments (l : FileLayout) :
    Storage.Alike (SameDocuments l) (fun _ => True) fun _ => True where
  loadRegistry := by
    refine Agree.mono ?_ (agree_load (fun l => .ok l.metadataFile) fun _ => isDocument_of_metadataFile)
    exact fun _ _ => ⟨fun _ _ => trivial, fun _ _ => trivial⟩
  saveRegistry r _ := agree_save (fun l => .ok l.metadataFile) (fun _ => isDocument_of_metadataFile) r
  loadTable t _ := by
    refine Agree.mono ?_ (agree_load (FileLayout.tableFile · t) fun _ => isDocument_of_tableFile)
    exact fun _ _ _ _ => trivial
  saveTable t rows _ :=
    agree_save (FileLayout.tableFile · t) (fun _ => isDocument_of_tableFile) rows
  removeTable t _ := agree_remove (FileLayout.tableFile · t) fun _ => isDocument_of_tableFile

end FileStorage
end TableStore
