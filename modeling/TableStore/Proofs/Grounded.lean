import TableStore.Proofs.Confinement
import TableStore.Proofs.Directories
import TableStore.Proofs.Parents
import TableStore.Proofs.Saves

/-!
Documents in directories that are there. What can be read of such a document depends on what
is in its place alone, as long as no directory comes or goes. All documents of a layout that
has been prepared are of this kind.
-/

namespace TableStore

namespace FileSystem

open TableStore.Path (IsName isStep follow)

variable {fs fs' : FileSystem} {p : Path} {d : Location} {segments above rest : List String}

/-! ## Ways by steps -/

theorem walk_filter_isStep (fs : FileSystem) (d : Location) (segments : List String) :
    fs.walk d (segments.filter isStep) = fs.walk d segments := by
  induction segments generalizing d with
  | nil => rfl
  | cons segment rest ih =>
      by_cases hs : isStep segment
      · rw [List.filter_cons_of_pos hs, walk, walk]
        simp only [ih]
      · rw [List.filter_cons_of_neg hs, ih, walk, if_pos]
        simpa [isStep, or_iff_not_imp_left] using hs

theorem foldl_follow_filter (segments : List String) (d : Location) :
    (segments.filter isStep).foldl follow d = segments.foldl follow d := by
  induction segments generalizing d with
  | nil => rfl
  | cons segment rest ih =>
      by_cases hs : isStep segment
      · rw [List.filter_cons_of_pos hs, List.foldl_cons, List.foldl_cons, ih]
      · rw [List.filter_cons_of_neg hs, ih, List.foldl_cons, follow, if_pos]
        simpa [isStep, or_iff_not_imp_left] using hs

theorem location_eq_steps (fs : FileSystem) (p : Path) :
    p.location fs.workingDirectory = p.steps.foldl follow (fs.start p) := by
  rw [p.steps_eq, foldl_follow_filter]
  rfl

theorem firm_filter_isStep : fs.Firm d (segments.filter isStep) ↔ fs.Firm d segments := by
  rw [Firm, Firm, walk_filter_isStep]

theorem foldl_follow_isStep (d : Location) {step : String} (hs : isStep step) :
    [step].foldl follow d = if step = ".." then d.tail else step :: d := by
  simp only [isStep, Bool.and_eq_true, bne_iff_ne, ne_eq] at hs
  simp only [List.foldl_cons, List.foldl_nil, follow, hs.1, hs.2, decide_false, Bool.or_false,
    Bool.false_eq_true, ite_false]

theorem walk_above (fs : FileSystem) (d : Location) : fs.walk d [".."] = .ok d.tail := rfl

theorem Firm.append {front : List String} {d' : Location} (hf : fs.walk d front = .ok d')
    (h : fs.Firm d' rest) : fs.Firm d (front ++ rest) := by
  rw [Firm, walk_append, hf]
  exact h

/-- A directory that is there can be entered, unless its name is too long for that. -/
theorem firm_of_isDirectory (h : fs.isDirectory p) : fs.Firm (fs.start p) p.steps := by
  rw [p.steps_eq]
  rw [isDirectory] at h
  cases hr : fs.resolve p with
  | error fault => rw [hr] at h; cases h
  | ok target =>
      obtain ⟨hblank, -⟩ | ⟨above, last, blanks, d, hp, hne, hblank, hw, htarget⟩ :=
        resolve_cases hr
      · have hnone : p.segments.filter isStep = [] :=
          List.filter_eq_nil_iff.mpr fun s hs => by rw [hblank s hs]; decide
        rw [hnone]
        exact .of_ok rfl
      · have hnone : blanks.filter isStep = [] :=
          List.filter_eq_nil_iff.mpr fun s hs => by rw [hblank s hs]; decide
        have hlast : fs.Firm d [last] := by
          obtain ⟨rfl, -⟩ | ⟨rfl, -⟩ | ⟨hl, ha, slash, rfl⟩ := htarget
          · exact .of_ok rfl
          · exact .of_ok rfl
          · have hstep : isStep last := by simp [isStep, hne, hl]
            rw [hr] at h
            rw [Firm, walk_step fs d hstep ha, find?]
            split
            · simp [bind, Except.bind]
            · cases he : fs.entry? (last :: d) with
              | none => simp [he] at h
              | some entry =>
                  cases entry with
                  | file _ => simp [he, Entry.isDirectory] at h
                  | directory => simp [bind, Except.bind]
        have hall : fs.Firm (fs.start p) (above ++ [last]) := .append hw hlast
        rw [← firm_filter_isStep] at hall
        rw [hp, List.filter_append, List.filter_cons, hnone]
        simpa [List.filter_append, List.filter_cons] using hall

/-! ## Documents whose directories are there -/

/-- All directories on the way to the last step of a path are there. -/
def Grounded (fs : FileSystem) (p : Path) : Prop := fs.Firm (fs.start p) p.steps.dropLast

/-- What a change of files has to leave as it was for a document to be read as before. -/
structure SameAt (fs fs' : FileSystem) (p : Path) : Prop extends SameDirectories fs fs' where
  entry : fs'.entry? (p.location fs.workingDirectory) = fs.entry? (p.location fs.workingDirectory)

namespace Grounded

theorem walk_steps (hg : fs.Grounded p) (h : fs.SameAt fs' p) :
    fs'.walk (fs.start p) p.steps = fs.walk (fs.start p) p.steps := by
  have hinit := hg.walk_eq h.toSameDirectories
  have hentry := h.entry
  obtain hnil | ⟨init, last, hp⟩ := List.eq_nil_or_concat p.steps
  · rw [hnil]
    rfl
  · rw [List.concat_eq_append] at hp
    have hstep : isStep last := List.of_mem_filter (l := p.parts.2) (by
      change last ∈ p.steps
      simp [hp])
    rw [hp, List.dropLast_concat] at hinit
    rw [hp, walk_append, walk_append, hinit]
    cases hw : fs.walk (fs.start p) init with
    | error fault => rfl
    | ok d =>
        change fs'.walk d [last] = fs.walk d [last]
        by_cases ha : last = ".."
        · rw [ha, walk_above, walk_above]
        · have hlocation : p.location fs.workingDirectory = last :: d := by
            rw [location_eq_steps, hp, List.foldl_append, ← location_of_walk hw,
              foldl_follow_isStep d hstep, if_neg ha]
          rw [hlocation] at hentry
          rw [walk_step _ _ hstep ha, walk_step _ _ hstep ha, find?_congr hentry]

/-- Every way to a part of the path is the same. -/
theorem walk_left (hg : fs.Grounded p) (h : fs.SameAt fs' p) (hp : p.segments = above ++ rest) :
    fs'.walk (fs.start p) above = fs.walk (fs.start p) above := by
  have hsteps : p.steps = above.filter isStep ++ rest.filter isStep := by
    rw [p.steps_eq, hp, List.filter_append]
  rw [← walk_filter_isStep fs', ← walk_filter_isStep fs]
  by_cases hr : rest.filter isStep = []
  · rw [hr, List.append_nil] at hsteps
    rw [← hsteps]
    exact hg.walk_steps h
  · rw [Grounded, hsteps, List.dropLast_append_of_ne_nil hr] at hg
    exact hg.left.walk_eq h.toSameDirectories

theorem resolve_eq (hg : fs.Grounded p) (h : fs.SameAt fs' p) : fs'.resolve p = fs.resolve p :=
  resolve_congr h.workingDirectory fun _ _ hp _ => hg.walk_left h hp

theorem read_eq (hg : fs.Grounded p) (h : fs.SameAt fs' p) : fs'.read p = fs.read p :=
  read_congr (hg.resolve_eq h) h.entry

/-- The draft of the document leads where it led. -/
theorem resolve_draft_eq (hg : fs.Grounded p) (h : fs.SameAt fs' p) :
    fs'.resolve (draft p) = fs.resolve (draft p) := by
  obtain ⟨front, last, hp, hd, hn, -⟩ := location_draft p fs.workingDirectory
  have hstart : ∀ fs : FileSystem, fs.start (draft p) = fs.start p := by
    intro fs
    simp only [start, draft, Path.isRoot_withSuffix p noSlash_tmp]
  have hwd : fs'.start p = fs.start p := h.toSameDirectories.grows.start p
  rw [resolve_of_name hd hn, resolve_of_name hd hn, hstart, hstart, hwd, hg.walk_left h hp]

theorem grows (hg : fs.Grounded p) (h : SameDirectories fs fs') : fs'.Grounded p := by
  have hwalk := hg.walk_eq h
  rw [Grounded] at hg ⊢
  rwa [h.grows.start, Firm, hwalk]

end Grounded

theorem grounded_of_present {q : Path} (h : fs.Present q) (hs : p.steps.dropLast = q.steps)
    (hr : q.parts.1 = .root ↔ p.parts.1 = .root) : fs.Grounded p := by
  rw [Grounded, hs]
  obtain ht | hd := h
  · have hq : q = ⟨""⟩ := by
      cases q
      exact congrArg Path.mk ht
    rw [hq]
    exact .of_ok rfl
  · have hstart : fs.start p = fs.start q := by simp only [start, hr]
    rw [hstart]
    exact firm_of_isDirectory hd

end FileSystem

/-! ## Layouts -/

namespace FileLayout

open FileSystem (Grounded)

variable {l : FileLayout} {fs : FileSystem}

/-- All documents of a layout that has been prepared are in directories that are there. -/
theorem Prepared.grounded (h : l.Prepared fs) {p : Path} (hp : l.IsDocument p) : fs.Grounded p := by
  cases hp with
  | registry =>
      cases ha : l.metadataFile.parent? with
      | none =>
          rw [Grounded, Path.steps_of_parent?_none ha]
          exact .of_ok rfl
      | some parent =>
          obtain ⟨hs, hr, -⟩ := Path.parent?_eq_some ha
          exact FileSystem.grounded_of_present (h.metadata parent ha) hs.symm hr
  | table hi =>
      have hn := isName_document hi
      refine FileSystem.grounded_of_present h.data ?_ (Path.isRoot_join _ hn).symm
      rw [tableDocument, Path.steps_join _ hn, List.dropLast_concat]

end FileLayout
end TableStore
