import TableStore.Storage.Files
import TableStore.Proofs.Action
import TableStore.Proofs.Location

/-!
Saving and removing documents, whatever paths they have. A document is written to its draft and
then moved to its place, so that its place is not touched before all of it has been written.
-/

namespace TableStore.FileSystem

open TableStore.Path (IsName follow)

variable {fs fs' : FileSystem} {p : Path} {n : String} {d l : Location}

/-! ## Changes of files -/

/-- The directories are the same, and relative paths start in the same one. -/
structure SameDirectories (fs fs' : FileSystem) : Prop where
  workingDirectory : fs'.workingDirectory = fs.workingDirectory
  directory : ∀ l, fs'.entry? l = some .directory ↔ fs.entry? l = some .directory

namespace SameDirectories

theorem refl (fs : FileSystem) : SameDirectories fs fs := ⟨rfl, fun _ => .rfl⟩

theorem symm (h : SameDirectories fs fs') : SameDirectories fs' fs :=
  ⟨h.workingDirectory.symm, fun l => (h.directory l).symm⟩

theorem grows (h : SameDirectories fs fs') : Grows fs fs' :=
  ⟨h.workingDirectory, fun l => (h.directory l).mpr⟩

theorem leadsTo_iff (h : SameDirectories fs fs') : fs'.LeadsTo p l ↔ fs.LeadsTo p l :=
  ⟨fun hl => hl.grows h.symm.grows, fun hl => hl.grows h.grows⟩

end SameDirectories

/-- The path leads to a place where a file is or may be created. -/
def Writable (fs : FileSystem) (p : Path) : Prop :=
  ∃ l, fs.LeadsTo p l ∧ fs.entry? l ≠ some .directory

theorem Writable.of_sameDirectories (hw : fs.Writable p) (h : SameDirectories fs fs') :
    fs'.Writable p := by
  obtain ⟨l, hl, hne⟩ := hw
  exact ⟨l, h.leadsTo_iff.mpr hl, fun he => hne ((h.directory l).mp he)⟩

/-- Nothing but files at these places differs. -/
structure ChangesOnly (places : Location → Prop) (fs fs' : FileSystem) : Prop
    extends SameDirectories fs fs' where
  elsewhere : ∀ l, ¬ places l → fs'.entry? l = fs.entry? l

namespace ChangesOnly

variable {places places' : Location → Prop} {fs'' : FileSystem}

theorem refl (places : Location → Prop) (fs : FileSystem) : ChangesOnly places fs fs :=
  ⟨.refl fs, fun _ _ => rfl⟩

theorem symm (h : ChangesOnly places fs fs') : ChangesOnly places fs' fs :=
  ⟨h.toSameDirectories.symm, fun l hl => (h.elsewhere l hl).symm⟩

theorem mono (h : ChangesOnly places fs fs') (hs : ∀ l, places l → places' l) :
    ChangesOnly places' fs fs' :=
  ⟨h.toSameDirectories, fun l hl => h.elsewhere l fun hp => hl (hs l hp)⟩

theorem trans (h : ChangesOnly places fs fs') (h' : ChangesOnly places fs' fs'') :
    ChangesOnly places fs fs'' := by
  refine ⟨⟨h'.workingDirectory.trans h.workingDirectory, fun l => ?_⟩, fun l hl => ?_⟩
  · rw [h'.directory, h.directory]
  · rw [h'.elsewhere l hl, h.elsewhere l hl]

end ChangesOnly

theorem LeadsTo.changesOnly_set (h : fs'.LeadsTo p l) (hne : fs.entry? l ≠ some .directory)
    (contents : ByteArray) : ChangesOnly (· = l) fs (fs.set l (.file contents)) := by
  refine ⟨⟨rfl, fun l' => ?_⟩, fun l' hl => ?_⟩
  · rw [h.entry?_set]
    split
    · next he => subst he; exact iff_of_false (by simp) hne
    · rfl
  · rw [h.entry?_set, if_neg hl]

/-- What has been written is what is read. -/
theorem read_of_write {contents : ByteArray} (h : fs.write p contents = .ok fs') :
    fs'.read p = .ok contents := by
  obtain ⟨l, hl, hne, rfl⟩ := write_eq_ok.mp h
  have hsame := (hl.changesOnly_set hne contents).toSameDirectories
  refine read_eq_ok.mpr ⟨l, hsame.leadsTo_iff.mpr hl, ?_⟩
  rw [hl.entry?_set, if_pos rfl]

theorem LeadsTo.changesOnly_clear (h : fs'.LeadsTo p l) (hne : fs.entry? l ≠ some .directory) :
    ChangesOnly (· = l) fs (fs.clear l) := by
  refine ⟨⟨rfl, fun l' => ?_⟩, fun l' hl => ?_⟩
  · rw [h.entry?_clear]
    split
    · next he => subst he; exact iff_of_false (by simp) hne
    · rfl
  · rw [h.entry?_clear, if_neg hl]

/-! ## Drafts -/

theorem noSlash_tmp : '/' ∉ ".tmp".toList := by decide

/-- A draft lies in the directory to which all segments of its document but the last lead. -/
theorem location_draft (p : Path) (d : Location) :
    ∃ front last, p.segments = front ++ [last] ∧
      (draft p).segments = front ++ [last ++ ".tmp"] ∧ IsName (last ++ ".tmp") ∧
      ∃ above, p.location d = follow above last ∧ (draft p).location d = (last ++ ".tmp") :: above := by
  obtain ⟨front, last, hp, hd⟩ := p.segments_withSuffix noSlash_tmp
  have hn : IsName (last ++ ".tmp") :=
    Path.isName_append (Path.noSlash_of_mem_segments (p := p) (by simp [hp])) noSlash_tmp (by decide)
  refine ⟨front, last, hp, hd, hn, front.foldl follow (if p.parts.1 = .root then [] else d), ?_, ?_⟩
  · rw [Path.location, hp, List.foldl_append]
    rfl
  · rw [Path.location, draft, hd, List.foldl_append]
    simp only [Path.isRoot_withSuffix p noSlash_tmp]
    exact Path.follow_name hn _

/-- A document and its draft never share a place. -/
theorem location_draft_ne (p : Path) (d : Location) : (draft p).location d ≠ p.location d := by
  obtain ⟨front, last, -, -, hn, above, hp, hd⟩ := location_draft p d
  rw [hp, hd, follow]
  split
  · intro he
    have := congrArg List.length he
    simp at this
  · split
    · intro he
      have := congrArg List.length he
      simp at this
      omega
    · intro he
      have := congrArg String.length (List.cons.inj he).1
      simp [String.length_append] at this

/-! ## Ways that do not depend on files -/

/-- No file and no missing entry stands in the way. -/
def Firm (fs : FileSystem) (d : Location) (segments : List String) : Prop :=
  fs.walk d segments ≠ .error .missing ∧ fs.walk d segments ≠ .error .notDirectory

namespace Firm

variable {segments front rest : List String}

theorem of_ok {d' : Location} (h : fs.walk d segments = .ok d') : fs.Firm d segments := by
  simp [Firm, h]

theorem left (h : fs.Firm d (front ++ rest)) : fs.Firm d front := by
  rw [Firm, walk_append] at h
  constructor
  · intro he
    rw [he] at h
    exact h.1 rfl
  · intro he
    rw [he] at h
    exact h.2 rfl

theorem walk_eq (hd : SameDirectories fs fs') (h : fs.Firm d segments) :
    fs'.walk d segments = fs.walk d segments := by
  induction segments generalizing d with
  | nil => rfl
  | cons segment rest ih =>
      rw [Firm, walk] at h
      rw [walk, walk]
      split at h
      · next hs => rw [if_pos hs, if_pos hs]; exact ih h
      · next hs =>
          rw [if_neg hs, if_neg hs]
          split at h
          · next ha => rw [if_pos ha, if_pos ha]; exact ih h
          · next ha =>
              rw [if_neg ha, if_neg ha]
              by_cases hn : maxName < segment.utf8ByteSize
              · simp only [find?, if_pos hn]
                rfl
              · simp only [find?, if_neg hn] at h ⊢
                cases he : fs.entry? (segment :: d) with
                | none => rw [he] at h; exact absurd rfl h.1
                | some entry =>
                    rw [he] at h
                    cases entry with
                    | file _ => exact absurd rfl h.2
                    | directory =>
                        rw [(hd.directory _).mpr he]
                        exact ih h

end Firm

/-- Where a path leads depends on the ways along all but its last segments. -/
theorem resolve_congr (hw : fs'.workingDirectory = fs.workingDirectory)
    (h : ∀ above rest, p.segments = above ++ rest → rest ≠ [] →
      fs'.walk (fs.start p) above = fs.walk (fs.start p) above) :
    fs'.resolve p = fs.resolve p := by
  simp only [resolve, hw]
  obtain ⟨hb, -⟩ | ⟨above, last, blanks, hp, -, -, hb⟩ := segments_cases p.segments
  · simp only [hb]
  · have hwalk := h above (last :: blanks) hp (by simp)
    simp only [start] at hwalk
    simp only [hb, List.reverse_reverse, hwalk]

/-- What can be read depends on where the path leads and on what is there. -/
theorem read_congr (hr : fs'.resolve p = fs.resolve p)
    (he : fs'.entry? (p.location fs.workingDirectory) = fs.entry? (p.location fs.workingDirectory)) :
    fs'.read p = fs.read p := by
  simp only [read, hr]
  cases h : fs.resolve p with
  | error fault => rfl
  | ok target =>
      rw [location_of_resolve h] at he
      cases target with
      | directory _ => rfl
      | name d n slash =>
          change (fs'.find? d n >>= _) = (fs.find? d n >>= _)
          rw [find?_congr he]

theorem left_of_concat {segments front above rest : List String} {last : String}
    (h : segments = front ++ [last]) (hs : segments = above ++ rest) (hr : rest ≠ []) :
    ∃ between, front = above ++ between := by
  obtain ⟨between, final, rfl⟩ := (List.eq_nil_or_concat rest).resolve_left hr
  rw [h, List.concat_eq_append, ← List.append_assoc] at hs
  exact ⟨between, (List.append_inj' hs rfl).1⟩

/-! ## Saving -/

/-- What is written to a draft changes nothing else, and the document reads as before. -/
theorem changesOnly_draft {contents : ByteArray} (h : fs.write (draft p) contents = .ok fs') :
    ChangesOnly (· = (draft p).location fs.workingDirectory) fs fs' ∧ fs'.read p = fs.read p := by
  obtain ⟨m, hm, hne, rfl⟩ := write_eq_ok.mp h
  have hc : ChangesOnly (· = (draft p).location fs.workingDirectory) fs (fs.set m (.file contents)) :=
    hm.location_eq ▸ hm.changesOnly_set hne contents
  refine ⟨hc, read_congr (resolve_congr hc.workingDirectory ?_) (hc.elsewhere _ ?_)⟩
  · -- All directories on the way to the document are on the way to the draft as well.
    obtain ⟨front, last, hp, hd, hn, -⟩ := location_draft p fs.workingDirectory
    obtain ⟨d, n, hr, -, -⟩ := hm
    rw [resolve_of_name hd hn] at hr
    obtain ⟨_, -, hr⟩ := exceptBind_eq_ok.mp hr
    obtain ⟨d', hw, -⟩ := exceptMap_eq_ok.mp hr
    have hstart : fs.start (draft p) = fs.start p := by
      simp only [start, draft, Path.isRoot_withSuffix p noSlash_tmp]
    rw [hstart] at hw
    intro above rest hs hrest
    obtain ⟨between, rfl⟩ := left_of_concat hp hs hrest
    exact (Firm.of_ok hw).left.walk_eq hc.toSameDirectories
  · exact (location_draft_ne p _).symm

variable {α : Type} [Document α]

/-- A save that succeeds puts the document in its place and leaves no draft. -/
theorem saveDocument_ok {value : α} (h : saveDocument p value fs = .ok () fs') :
    fs'.read p = .ok (Document.encode value) ∧
      fs'.read (draft p) = .error .missing ∧
      fs'.entry? (p.location fs.workingDirectory) = some (.file (Document.encode value)) ∧
      fs'.entry? ((draft p).location fs.workingDirectory) = none ∧
      ChangesOnly (fun l => l = p.location fs.workingDirectory ∨
        l = (draft p).location fs.workingDirectory) fs fs' := by
  rw [saveDocument] at h
  split at h
  · cases h
  · next fs₁ hw =>
      obtain ⟨hc, -⟩ := changesOnly_draft hw
      obtain ⟨m, hm, hne, rfl⟩ := write_eq_ok.mp hw
      split at h
      · cases h
      · next fs₂ hr =>
          cases h
          obtain ⟨m', l, contents, hm', hl, he, hne', rfl⟩ := rename_eq_ok.mp hr
          rw [hc.toSameDirectories.leadsTo_iff] at hm' hl
          cases hm.unique hm'
          rw [hm.entry?_set, if_pos rfl] at he
          cases he
          have hml : m ≠ l := by
            rw [← hm.location_eq, ← hl.location_eq]
            exact location_draft_ne p _
          let drafted := fs.set m (.file (Document.encode value))
          let taken := drafted.clear m
          let saved := taken.set l (.file (Document.encode value))
          have hclear : ChangesOnly (· = m) drafted taken :=
            hm.changesOnly_clear (by rw [hm.entry?_set, if_pos rfl]; simp)
          have hset : ChangesOnly (· = l) taken saved :=
            hl.changesOnly_set (fun h => hne' ((hclear.directory l).mp h)) _
          have hlast : saved.entry? l = some (.file (Document.encode value)) := by
            rw [hl.entry?_set, if_pos rfl]
          have hnone : saved.entry? m = none := by
            rw [hl.entry?_set, if_neg hml, hm.entry?_clear, if_pos rfl]
          rw [hm.location_eq] at hc ⊢
          rw [hl.location_eq]
          have hall := ((hc.mono fun _ h => Or.inr h).trans
            (hclear.mono fun _ h => Or.inr h)).trans (hset.mono fun _ h => Or.inl h)
          refine ⟨?_, ?_, hlast, hnone, hall⟩
          · exact read_eq_ok.mpr ⟨l, hall.toSameDirectories.leadsTo_iff.mpr hl, hlast⟩
          · exact read_of_none (hall.toSameDirectories.leadsTo_iff.mpr hm) hnone

/-- A save that fails has written to the draft at most. -/
theorem saveDocument_error {value : α} {e : Error} (h : saveDocument p value fs = .error e fs') :
    ChangesOnly (· = (draft p).location fs.workingDirectory) fs fs' ∧ fs'.read p = fs.read p := by
  rw [saveDocument] at h
  split at h
  · cases h
    exact ⟨.refl _ fs, rfl⟩
  · next fs₁ hw =>
      split at h
      · cases h
        exact changesOnly_draft hw
      · cases h

/-- The document can be written, and so can its draft. -/
structure Room (fs : FileSystem) (p : Path) : Prop where
  document : fs.Writable p
  draft : fs.Writable (draft p)

theorem Room.of_sameDirectories (hr : fs.Room p) (h : SameDirectories fs fs') : fs'.Room p :=
  ⟨hr.document.of_sameDirectories h, hr.draft.of_sameDirectories h⟩

/-- A document can be saved where there is room for it. -/
theorem Room.saveDocument (h : fs.Room p) (value : α) :
    ∃ fs', FileSystem.saveDocument p value fs = .ok () fs' := by
  obtain ⟨l, hl, hle⟩ := h.document
  obtain ⟨m, hm, hme⟩ := h.draft
  have hw : fs.write (FileSystem.draft p) (Document.encode value) =
      .ok (fs.set m (.file (Document.encode value))) := write_eq_ok.mpr ⟨m, hm, hme, rfl⟩
  have hc := (changesOnly_draft hw).1.toSameDirectories
  have hr := rename_eq_ok.mpr ⟨m, l, _, hc.leadsTo_iff.mpr hm, hc.leadsTo_iff.mpr hl,
    by rw [hm.entry?_set, if_pos rfl], fun h => hle ((hc.directory l).mp h), rfl⟩
  simp only [FileSystem.saveDocument, hw, hr]
  exact ⟨_, rfl⟩

/-- Where a document has been saved there is room for it. -/
theorem room_of_saveDocument {value : α} (h : FileSystem.saveDocument p value fs = .ok () fs') :
    fs'.Room p := by
  obtain ⟨hread, -, -, -, hc⟩ := saveDocument_ok h
  refine ⟨?_, ?_⟩
  · obtain ⟨l, hl, he⟩ := read_eq_ok.mp hread
    exact ⟨l, hl, by rw [he]; nofun⟩
  · have hdraft : fs.Writable (FileSystem.draft p) := by
      rw [FileSystem.saveDocument] at h
      split at h
      · cases h
      · next hw =>
          obtain ⟨m, hm, hne, -⟩ := write_eq_ok.mp hw
          exact ⟨m, hm, hne⟩
    exact hdraft.of_sameDirectories hc.toSameDirectories

/-- Nothing happens where the draft cannot be written. -/
theorem finalState_saveDocument_of_not_writable (h : ¬ fs.Writable (draft p)) (value : α) :
    finalState (saveDocument p value fs) = fs := by
  rw [saveDocument]
  split
  · rfl
  · next hw =>
      obtain ⟨l, hl, hne, -⟩ := write_eq_ok.mp hw
      exact absurd ⟨l, hl, hne⟩ h

/-- What can be written can be removed, whether it is there or not. -/
theorem Writable.removeDocument (h : fs.Writable p) :
    ∃ fs', FileSystem.removeDocument p fs = .ok () fs' := by
  obtain ⟨l, hl, hne⟩ := h
  rw [FileSystem.removeDocument]
  cases he : fs.entry? l with
  | none =>
      rw [remove_of_none hl he]
      exact ⟨fs, rfl⟩
  | some entry =>
      cases entry with
      | directory => exact absurd he hne
      | file contents =>
          rw [remove_eq_ok.mpr ⟨l, contents, hl, he, rfl⟩]
          exact ⟨_, rfl⟩

theorem read_of_remove_missing (h : fs.remove p = .error .missing) :
    fs.read p = .error .missing := by
  obtain hr | ⟨target, hr, h⟩ := exceptBind_eq_error.mp h
  · exact exceptBind_eq_error.mpr (.inl hr)
  · refine exceptBind_eq_error.mpr (.inr ⟨target, hr, ?_⟩)
    cases target with
    | directory _ => cases h
    | name d n slash =>
        obtain hf | ⟨found, hf, h⟩ := exceptBind_eq_error.mp h
        · exact exceptBind_eq_error.mpr (.inl hf)
        · refine exceptBind_eq_error.mpr (.inr ⟨found, hf, ?_⟩)
          cases found with
          | none => rfl
          | some entry =>
              cases entry with
              | directory => cases h
              | file _ => cases slash <;> cases h

/-- A document that has been removed is missing. -/
theorem removeDocument_ok (h : removeDocument p fs = .ok () fs') :
    fs'.read p = .error .missing ∧ ChangesOnly (· = p.location fs.workingDirectory) fs fs' := by
  rw [removeDocument] at h
  split at h
  · next hr =>
      cases h
      exact ⟨read_of_remove_missing hr, .refl _ _⟩
  · cases h
  · next fs₁ hr =>
      cases h
      obtain ⟨l, contents, hl, he, rfl⟩ := remove_eq_ok.mp hr
      have hc : ChangesOnly (· = l) fs (fs.clear l) := hl.changesOnly_clear (by simp [he])
      rw [hl.location_eq]
      refine ⟨read_of_none (hc.toSameDirectories.leadsTo_iff.mpr hl) ?_, hc⟩
      rw [hl.entry?_clear, if_pos rfl]

/-- A removal that fails changes nothing. -/
theorem removeDocument_error {e : Error} (h : removeDocument p fs = .error e fs') : fs' = fs := by
  rw [removeDocument] at h
  split at h <;> cases h
  rfl

theorem finalState_removeDocument_of_not_writable (h : ¬ fs.Writable p) :
    finalState (removeDocument p fs) = fs := by
  rw [removeDocument]
  split
  · rfl
  · rfl
  · next hr =>
      obtain ⟨l, contents, hl, he, -⟩ := remove_eq_ok.mp hr
      exact absurd ⟨l, hl, by simp [he]⟩ h

/-! What a save or a removal changes, whatever becomes of it. -/

theorem changesOnly_saveDocument (p : Path) (value : α) (fs : FileSystem) :
    ChangesOnly (fun l => l = p.location fs.workingDirectory ∨
      l = (draft p).location fs.workingDirectory) fs (finalState (saveDocument p value fs)) := by
  cases h : saveDocument p value fs with
  | ok _ fs' =>
      obtain ⟨-, -, -, -, hc⟩ := saveDocument_ok h
      exact hc
  | error e fs' => exact (saveDocument_error h).1.mono fun _ hl => Or.inr hl

theorem changesOnly_removeDocument (p : Path) (fs : FileSystem) :
    ChangesOnly (· = p.location fs.workingDirectory) fs (finalState (removeDocument p fs)) := by
  cases h : removeDocument p fs with
  | ok _ fs' => exact (removeDocument_ok h).2
  | error e fs' =>
      cases removeDocument_error h
      exact .refl _ fs

end TableStore.FileSystem
