import TableStore.Storage.Files
import TableStore.Proofs.Action
import TableStore.Proofs.FileSystem

/-!
Creating directories, which removes none. Directories that are there need not be created, so
that a layout is prepared only once.
-/

namespace TableStore

namespace FileSystem

variable {fs fs' : FileSystem} {p : Path}

theorem grows_of_makeDirectory (h : fs.makeDirectory p = .ok fs') :
    Grows fs fs' ∧ fs'.isDirectory p := by
  obtain ⟨target, hr, h⟩ := exceptBind_eq_ok.mp h
  cases target with
  | directory _ => cases h
  | name d n slash =>
      obtain ⟨found, hf, h⟩ := exceptBind_eq_ok.mp h
      cases found with
      | some _ => cases h
      | none =>
          cases h
          have hg : Grows fs (fs.set (n :: d) .directory) := by
            refine ⟨rfl, fun l hl => ?_⟩
            rw [entry?_set]
            split
            · rfl
            · exact hl
          refine ⟨hg, ?_⟩
          rw [isDirectory]
          rw [hg.resolve hr]
          simp only [entry?_set, ite_true]
          rfl

theorem makeDirectory_of_isDirectory (h : fs.isDirectory p) :
    ∃ fault, fs.makeDirectory p = .error fault ∧ fault ≠ .missing := by
  rw [isDirectory] at h
  cases hr : fs.resolve p with
  | error fault => rw [hr] at h; cases h
  | ok target =>
      rw [hr] at h
      rw [makeDirectory, hr]
      cases target with
      | directory _ => exact ⟨.taken, rfl, by decide⟩
      | name d n slash =>
          simp only [bind, Except.bind, find?]
          by_cases hn : maxName < n.utf8ByteSize
          · rw [if_pos hn]
            exact ⟨.nameTooLong, rfl, by decide⟩
          · rw [if_neg hn]
            cases he : fs.entry? (n :: d) with
            | none => simp [he] at h
            | some entry => exact ⟨.taken, rfl, by decide⟩

theorem makeAfter_grows {above : EStateM Fault FileSystem Unit}
    (ha : ∀ fs, Grows fs (finalState (above fs))) (p : Path) (fs : FileSystem) :
    Ensures (makeAfter above p) fs (fun _ fs' => Grows fs fs' ∧ fs'.isDirectory p)
      fun _ fs' => Grows fs fs' := by
  refine ensures_of_cases ?_ ?_
  · intro _ fs' h
    rw [makeAfter] at h
    split at h
    · next hm => cases h; exact grows_of_makeDirectory hm
    · split at h
      · cases h
      · next fs₁ hb =>
          have hg : Grows fs fs₁ := by simpa only [hb, finalState] using ha fs
          split at h
          · next hm =>
              cases h
              obtain ⟨hg', hd⟩ := grows_of_makeDirectory hm
              exact ⟨hg.trans hg', hd⟩
          · split at h
            · next hd => cases h; exact ⟨hg, hd⟩
            · cases h
    · split at h
      · next hd => cases h; exact ⟨.refl fs, hd⟩
      · cases h
  · intro fault fs' h
    rw [makeAfter] at h
    split at h
    · cases h
    · split at h
      · next fs₁ hb =>
          cases h
          simpa only [hb, finalState] using ha fs
      · next fs₁ hb =>
          have hg : Grows fs fs₁ := by simpa only [hb, finalState] using ha fs
          split at h
          · cases h
          · split at h
            · cases h
            · cases h; exact hg
    · split at h
      · cases h
      · cases h; exact .refl fs

theorem makeAfter_of_isDirectory (above : EStateM Fault FileSystem Unit) (h : fs.isDirectory p) :
    makeAfter above p fs = .ok () fs := by
  obtain ⟨fault, hm, hne⟩ := makeDirectory_of_isDirectory h
  rw [makeAfter]
  split
  · next ho => rw [hm] at ho; cases ho
  · next he => rw [hm] at he; cases he; exact absurd rfl hne
  · rw [if_pos h]

theorem makeChain_grows (anchor : Path.Anchor) (bodies : List (List String)) (fs : FileSystem) :
    Grows fs (finalState (makeChain anchor bodies fs)) := by
  induction bodies generalizing fs with
  | nil => exact .refl fs
  | cons body above ih =>
      simp only [makeChain]
      by_cases ht : (Path.ofParts anchor body.reverse).text = ""
      · rw [if_pos ht]
        exact .refl fs
      · rw [if_neg ht]
        exact ((makeAfter_grows ih _ fs).mono (fun _ _ h => h.1) fun _ _ h => h).final

/-- A directory that is wanted is there; nothing is wanted for an empty path. -/
def Present (fs : FileSystem) (p : Path) : Prop := p.text = "" ∨ fs.isDirectory p

theorem Grows.present (h : Grows fs fs') (hp : fs.Present p) : fs'.Present p :=
  hp.imp_right h.isDirectory

theorem ensureDirectory_grows (p : Path) (fs : FileSystem) :
    Ensures (ensureDirectory p) fs (fun _ fs' => Grows fs fs' ∧ fs'.Present p)
      fun _ fs' => Grows fs fs' := by
  have hm : Ensures (makeDirectories p) fs (fun _ fs' => Grows fs fs' ∧ fs'.Present p)
      fun _ fs' => Grows fs fs' := by
    rw [makeDirectories]
    split
    · next ht => exact ⟨.refl fs, .inl ht⟩
    · exact (makeAfter_grows (makeChain_grows _ _) p fs).mono (fun _ _ h => ⟨h.1, .inr h.2⟩)
        fun _ _ h => h
  rw [Ensures, ensureDirectory] at *
  cases h : makeDirectories p fs with
  | ok _ fs' => simpa only [h] using hm
  | error fault fs' => simpa only [h] using hm

theorem ensureDirectory_of_present (h : fs.Present p) : ensureDirectory p fs = .ok () fs := by
  have hm : makeDirectories p fs = .ok () fs := by
    rw [makeDirectories]
    split
    · rfl
    · next ht => exact makeAfter_of_isDirectory _ (h.resolve_left ht)
  rw [ensureDirectory, hm]

end FileSystem

namespace FileLayout

open FileSystem (Grows Present)

variable {l : FileLayout} {fs fs' : FileSystem}

structure Prepared (l : FileLayout) (fs : FileSystem) : Prop where
  data : fs.Present l.dataDirectory
  metadata : ∀ parent, l.metadataFile.parent? = some parent → fs.Present parent

theorem Prepared.grows (h : l.Prepared fs) (hg : Grows fs fs') : l.Prepared fs' :=
  ⟨hg.present h.data, fun parent hp => hg.present (h.metadata parent hp)⟩

theorem prepare_grows (l : FileLayout) (fs : FileSystem) :
    Ensures l.prepare fs (fun _ fs' => Grows fs fs' ∧ l.Prepared fs') fun _ fs' => Grows fs fs' := by
  refine ensures_bind ((FileSystem.ensureDirectory_grows l.dataDirectory fs).mono ?_ fun _ _ h => h)
  intro _ fs₁ hpost
  obtain ⟨hg, hd⟩ := hpost
  split
  · next parent hp =>
      split
      · next ht =>
          refine ⟨hg, hd, fun parent' hp' => ?_⟩
          cases hp.symm.trans hp'
          exact .inl ht
      · refine (FileSystem.ensureDirectory_grows parent fs₁).mono ?_ ?_
        · intro _ fs₂ hpost
          obtain ⟨hg', hd'⟩ := hpost
          refine ⟨hg.trans hg', hg'.present hd, fun parent' hp' => ?_⟩
          cases hp.symm.trans hp'
          exact hd'
        · intro _ fs₂ hg'
          exact hg.trans hg'
  · next hp => exact ⟨hg, hd, fun parent hp' => by rw [hp] at hp'; cases hp'⟩

/-- Only the directory of the tables is created if the other one is there after that. -/
theorem prepare_of_data (hd : FileSystem.ensureDirectory l.dataDirectory fs = .ok () fs')
    (hm : ∀ parent, l.metadataFile.parent? = some parent → fs'.Present parent) :
    l.prepare fs = .ok () fs' := by
  rw [prepare]
  rw [bind_apply, hd]
  cases hp : l.metadataFile.parent? with
  | none => rfl
  | some parent =>
      by_cases ht : parent.text = ""
      · simp only [if_pos ht]
        rfl
      · simp only [if_neg ht]
        exact FileSystem.ensureDirectory_of_present (hm parent hp)

/-- What has been prepared stays as it is. -/
theorem prepare_of_prepared (h : l.Prepared fs) : l.prepare fs = .ok () fs :=
  prepare_of_data (FileSystem.ensureDirectory_of_present h.data) h.metadata

end FileLayout
end TableStore
