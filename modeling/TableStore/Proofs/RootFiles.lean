import TableStore.Proofs.Opening
import TableStore.Proofs.Separation

/-!
The files of a database under a root. Whatever the root is and however it is spelled, its
configuration is valid, and each of the files has a place of its own.
-/

namespace TableStore

open TableStore.Path (IsName)

/-- What a database uses a file for. -/
inductive Role where
  | registry
  | registryDraft
  | table (name : String)
  | tableDraft (name : String)

namespace Role

/-- A table has a file if its name is an identifier. -/
def Proper : Role → Prop
  | registry | registryDraft => True
  | table name | tableDraft name => Text.isIdentifier name

def fileName : Role → String
  | registry => "db_meta.json"
  | registryDraft => "db_meta.json" ++ ".tmp"
  | table name => documentName name
  | tableDraft name => documentName name ++ ".tmp"

/-- The directories between the root and the file. -/
def below : Role → Location
  | registry | registryDraft => []
  | table _ | tableDraft _ => ["data"]

def directory (root : Path) : Role → Path
  | registry | registryDraft => root
  | table _ | tableDraft _ => root.join "data"

theorem isName_fileName {role : Role} (h : role.Proper) : IsName role.fileName := by
  cases role with
  | registry => exact FileSystem.isName_registry
  | registryDraft => exact FileSystem.isName_registryDraft
  | table name => exact isName_document h
  | tableDraft name => exact isName_draft h

/-- The name and the directories tell the roles of files apart. -/
theorem eq_of_names {a b : Role} (h : a.fileName :: a.below = b.fileName :: b.below) : a = b := by
  obtain ⟨hname, hbelow⟩ := List.cons.inj h
  have hdraft {m n : String} (h : documentName m ++ ".tmp" = documentName n ++ ".tmp") : m = n := by
    by_contra hne
    refine documentName_ne hne (String.toList_inj.mp ?_)
    have hl := congrArg String.toList h
    rw [String.toList_append, String.toList_append] at hl
    exact List.append_cancel_right hl
  cases a with
  | registry =>
      cases b with
      | registry => rfl
      | registryDraft => exact absurd hname (by decide)
      | table _ | tableDraft _ => cases hbelow
  | registryDraft =>
      cases b with
      | registry => exact absurd hname (by decide)
      | registryDraft => rfl
      | table _ | tableDraft _ => cases hbelow
  | table m =>
      cases b with
      | registry | registryDraft => cases hbelow
      | table n => rw [not_ne_iff.mp fun hne => documentName_ne hne hname]
      | tableDraft n => exact absurd hname documentName_ne_draft
  | tableDraft m =>
      cases b with
      | registry | registryDraft => cases hbelow
      | table n => exact absurd hname.symm documentName_ne_draft
      | tableDraft n => rw [hdraft hname]

end Role

namespace FileLayout

/-- The file with a role. -/
def path (l : FileLayout) : Role → Path
  | .registry => l.metadataFile
  | .registryDraft => l.metadataFile.withSuffix ".tmp"
  | .table name => l.dataDirectory.join (name ++ ".json")
  | .tableDraft name => (l.dataDirectory.join (name ++ ".json")).withSuffix ".tmp"

theorem path_underRoot (root : Path) (role : Role) :
    (underRoot root).path role = (role.directory root).join role.fileName := by
  cases role with
  | registry | table _ => rfl
  | registryDraft => exact FileSystem.draft_join root "db_meta.json"
  | tableDraft name => exact FileSystem.draft_join (root.join "data") (documentName name)

theorem location_path (root : Path) {role : Role} (h : role.Proper) (d : Location) :
    ((underRoot root).path role).location d =
      role.fileName :: role.below ++ root.location d := by
  rw [path_underRoot, Path.location_join _ (Role.isName_fileName h)]
  cases role with
  | registry | registryDraft => rfl
  | table _ | tableDraft _ =>
      exact congrArg _ (Path.location_join root FileSystem.isName_data d)

/-- Files with different roles have different places. -/
theorem location_path_injective (root : Path) (d : Location) {a b : Role} (ha : a.Proper)
    (hb : b.Proper)
    (h : ((underRoot root).path a).location d = ((underRoot root).path b).location d) : a = b := by
  rw [location_path root ha, location_path root hb] at h
  exact Role.eq_of_names (List.append_cancel_right h)

end FileLayout

namespace FileSystem

variable {fs : FileSystem} {root : Path}

/-- Where the directory of the tables is there, it can be entered, and so can the root. -/
theorem enter_of_prepared (h : (FileLayout.underRoot root).Prepared fs) :
    ∃ d, fs.enter root = .ok d ∧ fs.enter (root.join "data") = .ok ("data" :: d) := by
  obtain ⟨front, hs, -⟩ := root.segments_join isName_data
  have hdirectory : fs.isDirectory (root.join "data") :=
    h.data.resolve_left (text_ne_of_name hs isName_data)
  rw [isDirectory] at hdirectory
  split at hdirectory
  · cases hdirectory
  · next hr =>
      obtain ⟨-, _, -, htarget⟩ := (resolve_join_eq_ok isName_data).mp hr
      cases htarget
  · next above _ _ hr =>
      obtain ⟨-, _, hd, htarget⟩ := (resolve_join_eq_ok isName_data).mp hr
      cases htarget
      refine ⟨above, hd, enter_created isName_data (by decide) hd ?_⟩
      cases he : fs.entry? ("data" :: above) with
      | none => rw [he] at hdirectory; cases hdirectory
      | some entry =>
          cases entry with
          | file _ => rw [he] at hdirectory; cases hdirectory
          | directory => rfl

/-- The file can be reached, unless its name or its path is too long. -/
theorem leadsTo_path (h : (FileLayout.underRoot root).Prepared fs) {role : Role}
    (hp : role.Proper)
    (htext : checkText ((FileLayout.underRoot root).path role) = .ok ())
    (hname : role.fileName.utf8ByteSize ≤ maxName) :
    fs.LeadsTo ((FileLayout.underRoot root).path role)
      (((FileLayout.underRoot root).path role).location fs.workingDirectory) := by
  obtain ⟨d, hroot, hdata⟩ := enter_of_prepared h
  obtain ⟨above, habove⟩ : ∃ above, fs.enter (role.directory root) = .ok above := by
    cases role with
    | registry | registryDraft => exact ⟨d, hroot⟩
    | table _ | tableDraft _ => exact ⟨_, hdata⟩
  rw [FileLayout.path_underRoot] at htext ⊢
  rw [Path.location_join _ (Role.isName_fileName hp), location_of_enter habove]
  exact (leadsTo_join (Role.isName_fileName hp)).mpr ⟨htext, hname, above, habove, rfl⟩

end FileSystem

namespace Config

/-- The configuration under a root is valid. Once a database has been opened with it, its files
have places of their own, to which their paths lead unless they are too long. -/
theorem underRoot_sound (root : Path) :
    (underRoot root).validate = .ok () ∧
    ∀ fs₀ engine fs, (underRoot root).openFiles fs₀ = .ok engine fs →
      let l := engine.source.storage.layout
      let place := fun role => (l.path role).location fs.workingDirectory
      (∀ a b : Role, a.Proper → b.Proper → a ≠ b → place a ≠ place b) ∧
      ∀ role : Role, role.Proper →
        (∀ l', fs.LeadsTo (l.path role) l' → l' = place role) ∧
        (FileSystem.checkText (l.path role) = .ok () →
          role.fileName.utf8ByteSize ≤ FileSystem.maxName →
          fs.LeadsTo (l.path role) (place role)) := by
  refine ⟨validate_underRoot root, fun fs₀ engine fs hopen => ?_⟩
  obtain ⟨-, hprepared, rfl⟩ := openFiles_eq_ok hopen
  refine ⟨fun a b ha hb hne hplace => ?_, fun role hp => ⟨fun l' hl => ?_, fun htext hname => ?_⟩⟩
  · exact hne (FileLayout.location_path_injective root _ ha hb hplace)
  · exact hl.location_eq.symm
  · exact FileSystem.leadsTo_path hprepared hp htext hname

/-- A root that is spelled with a way up and a slash behind it. -/
theorem underRoot_sound_above :
    ∃ engine fs, (underRoot ⟨"./x/../y/"⟩).openFiles .empty = .ok engine fs ∧
      (⟨"./x/../y/db_meta.json.tmp"⟩ : Path).location fs.workingDirectory ≠
        (⟨"./x/../y/data/t.json"⟩ : Path).location fs.workingDirectory ∧
      fs.LeadsTo ⟨"./x/../y/data/t.json.tmp"⟩ ["t.json.tmp", "data", "y", "work"] := by
  obtain ⟨hplace, hrole⟩ := (underRoot_sound ⟨"./x/../y/"⟩).2 .empty _ _ rfl
  exact ⟨_, _, rfl, hplace .registryDraft (.table "t") trivial rfl nofun,
    (hrole (.tableDraft "t") rfl).2 rfl (by decide)⟩

end Config
end TableStore
