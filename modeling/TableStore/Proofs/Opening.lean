import TableStore.Proofs.CacheInvisible
import TableStore.Proofs.Grounded

/-!
Opening a database in an empty directory, which succeeds and creates the directory for the
tables. There is then room for all documents whose names are not too long.
-/

namespace TableStore

/-! ## Texts of paths -/

namespace Path

variable {p q : Path} {n : String} {k m : Nat}

/-- The text is one of a path, also with so many bytes more. -/
structure Fits (p : Path) (k : Nat) : Prop where
  noZero : '\x00' ∉ p.text.toList
  size : p.text.utf8ByteSize + k ≤ FileSystem.maxPath

namespace Fits

theorem checkText (h : p.Fits k) : FileSystem.checkText p = .ok () := by
  have hz : ¬ p.text.toList.contains '\x00' := by simpa using h.noZero
  have hs := h.size
  rw [FileSystem.checkText, if_neg hz, if_neg (by omega)]

theorem join (h : p.Fits m) (hn : '\x00' ∉ n.toList) (hm : n.utf8ByteSize + 1 + k ≤ m) :
    (p.join n).Fits k := by
  have hs := h.size
  rw [Path.join]
  split
  · refine ⟨?_, ?_⟩
    · rw [String.toList_append, List.mem_append, not_or]
      exact ⟨h.noZero, hn⟩
    · rw [String.utf8ByteSize_append]
      omega
  · refine ⟨?_, ?_⟩
    · rw [String.toList_append, String.toList_append, List.mem_append, List.mem_append, not_or, not_or]
      exact ⟨⟨h.noZero, by decide⟩, hn⟩
    · rw [String.utf8ByteSize_append, String.utf8ByteSize_append]
      have hslash : "/".utf8ByteSize = 1 := by decide
      omega

theorem mono (h : p.Fits m) (hk : k ≤ m) : p.Fits k :=
  ⟨h.noZero, Nat.le_trans (Nat.add_le_add_left hk _) h.size⟩

theorem of_prefix (h : p.Fits k) {suffix : String} (hp : p.text = q.text ++ suffix) : q.Fits k := by
  obtain ⟨hz, hs⟩ := h
  rw [hp, String.toList_append, List.mem_append, not_or] at hz
  rw [hp, String.utf8ByteSize_append] at hs
  exact ⟨hz.1, by omega⟩

end Fits
end Path

namespace FileSystem

open TableStore.Path (IsName isStep)

variable {fs fs' : FileSystem} {p q : Path} {n : String} {d l : Location} {k : Nat}

/-! ## Directories that can be entered -/

theorem isDirectory_of_enter (h : p.Fits k) (hne : p.text ≠ "") (he : fs.enter p = .ok d) :
    fs.isDirectory p := by
  have hz : ¬ p.text.toList.contains '\x00' := by simpa using h.noZero
  have hs := h.size
  rw [isDirectory]
  rw [resolve, if_neg hz, if_neg hne, if_neg (by omega)]
  obtain ⟨hb, -⟩ | ⟨above, last, blanks, hp, hlast, -, hb⟩ := segments_cases p.segments
  · simp only [hb]
  · rw [enter, start, hp, walk_append] at he
    obtain ⟨d', hw, he⟩ := exceptBind_eq_ok.mp he
    simp only [hb, List.reverse_reverse, hw, bind, Except.bind]
    by_cases hl : last = "."
    · simp only [if_pos hl]
    · by_cases ha : last = ".."
      · simp only [if_neg hl, if_pos ha]
      · simp only [if_neg hl, if_neg ha]
        rw [← List.singleton_append, walk_append,
          walk_step fs d' (by simp [isStep, hlast, hl]) ha] at he
        obtain ⟨_, he, -⟩ := exceptBind_eq_ok.mp he
        obtain ⟨found, hf, he⟩ := exceptBind_eq_ok.mp he
        rw [(find?_eq_ok.mp hf).2]
        cases found with
        | none => cases he
        | some entry =>
            cases entry with
            | file _ => cases he
            | directory => rfl

/-- The directory above is entered like the one in which the last name is. -/
theorem enter_parent (hn : IsName n) (hp : (p.join n).parent? = some q) :
    fs.enter q = fs.enter p := by
  obtain ⟨hs, hr, -⟩ := Path.parent?_eq_some hp
  rw [Path.steps_join p hn, List.dropLast_concat] at hs
  have hstart : fs.start q = fs.start p := by
    simp only [start, hr.trans (Path.isRoot_join p hn)]
  rw [enter, enter, ← walk_filter_isStep fs, ← walk_filter_isStep fs _ p.segments, ← Path.steps_eq,
    ← Path.steps_eq, hs, hstart]

theorem present_parent (hn : IsName n) (hfits : (p.join n).Fits k) (he : fs.enter p = .ok d)
    (hp : (p.join n).parent? = some q) : fs.Present q := by
  obtain ⟨-, -, suffix, ht⟩ := Path.parent?_eq_some hp
  refine or_iff_not_imp_left.mpr fun hne => ?_
  exact isDirectory_of_enter (hfits.of_prefix ht) hne ((enter_parent hn hp).trans he)

/-! ## Names in a directory -/

theorem leadsTo_of_fits (hn : IsName n) (hfits : (p.join n).Fits k) (hl : n.utf8ByteSize ≤ maxName)
    (he : fs.enter p = .ok d) : fs.LeadsTo (p.join n) (n :: d) :=
  (leadsTo_join hn).mpr ⟨hfits.checkText, hl, d, he, rfl⟩

theorem makeDirectories_join (hn : IsName n) (hfits : (p.join n).Fits k)
    (hl : n.utf8ByteSize ≤ maxName) (he : fs.enter p = .ok d) (hnone : fs.entry? (n :: d) = none) :
    makeDirectories (p.join n) fs = .ok () (fs.set (n :: d) .directory) := by
  obtain ⟨front, hj, -⟩ := p.segments_join hn
  have hr := (resolve_join_eq_ok hn).mpr ⟨hfits.checkText, d, he, rfl⟩
  have hm : fs.makeDirectory (p.join n) = .ok (fs.set (n :: d) .directory) :=
    exceptBind_eq_ok.mpr ⟨_, hr, exceptBind_eq_ok.mpr ⟨_, find?_eq_ok.mpr ⟨hl, hnone⟩, rfl⟩⟩
  rw [makeDirectories, if_neg (text_ne_of_name hj hn), makeAfter, hm]

theorem enter_created (hn : IsName n) (hl : n.utf8ByteSize ≤ maxName) (he : fs.enter p = .ok d)
    (hd : fs.entry? (n :: d) = some .directory) : fs.enter (p.join n) = .ok (n :: d) := by
  rw [enter_join fs p hn, he]
  change fs.walk d [n] = _
  rw [walk_name hn, find?_eq_ok.mpr ⟨hl, hd⟩]
  rfl

end FileSystem

/-! ## Empty directories -/

theorem Config.validate_underRoot (root : Path) : (underRoot root).validate = .ok () := by
  have hregistry : (root.join "db_meta.json").text ≠ "" :=
    have ⟨_, hs, _⟩ := root.segments_join FileSystem.isName_registry
    FileSystem.text_ne_of_name hs FileSystem.isName_registry
  have hdata : (root.join "data").text ≠ "" :=
    have ⟨_, hs, _⟩ := root.segments_join FileSystem.isName_data
    FileSystem.text_ne_of_name hs FileSystem.isName_data
  have habove : (root.join "db_meta.json").parent?.any (root.join "data").same = false := by
    rw [Option.any_eq_false]
    intro parent hp
    obtain ⟨hs, -, -⟩ := Path.parent?_eq_some hp
    rw [Path.steps_join root FileSystem.isName_registry, List.dropLast_concat] at hs
    simp [Path.same, Path.steps_join root FileSystem.isName_data, hs]
  simp [validate, underRoot, FileLayout.underRoot, FileLayout.default, hregistry, hdata, habove]

/-- The path leads to an empty directory, and the paths of documents under it are not too long.
The default layout is that under the empty path, for which they never are. -/
structure FileSystem.Vacant (fs : FileSystem) (root : Path) : Prop where
  fits : root.Fits 261
  empty : ∃ d, fs.enter root = .ok d ∧ ∀ below, below ≠ [] → fs.entry? (below ++ d) = none

/-- What opening leaves: the directory of the tables, with nothing in it and nothing beside it. -/
structure FileSystem.Opened (fs : FileSystem) (root : Path) (d : Location) : Prop where
  above : fs.enter root = .ok d
  data : fs.enter (root.join "data") = .ok ("data" :: d)
  beside : ∀ n, n ≠ "data" → fs.entry? (n :: d) = none
  within : ∀ n, fs.entry? (n :: "data" :: d) = none

/-- The working directory is empty at first. -/
theorem FileSystem.vacant_empty : FileSystem.empty.Vacant ⟨""⟩ := by
  refine ⟨⟨by decide, by decide⟩, ["work"], rfl, fun below hb => ?_⟩
  have hne : below ++ ["work"] ≠ [] := by simp
  simp [ entry?, empty, hne, hb, KeyedList.get?_insert]

namespace FileSystem.Vacant

variable {fs : FileSystem} {root : Path}

/-- A database can be opened in an empty directory. -/
theorem opening (h : fs.Vacant root) :
    ∃ d fs', Session.opening root fs = .ok () fs' ∧ fs'.Opened root d := by
  obtain ⟨hfits, d, he, hempty⟩ := h
  have hnone : fs.entry? ("data" :: d) = none := hempty ["data"] (by simp)
  have hdata : (root.join "data").Fits 256 := hfits.join (by decide) (by decide)
  have hmake := makeDirectories_join isName_data hdata (by decide) he hnone
  have hentry (l : Location) : FileSystem.entry? (fs.set ("data" :: d) .directory) l =
      if l = "data" :: d then some .directory else fs.entry? l := entry?_set fs "data" d l _
  have hg : Grows fs (fs.set ("data" :: d) .directory) := by
    refine ⟨rfl, fun l hl => ?_⟩
    rw [hentry]
    split
    · rfl
    · exact hl
  have hroot := hg.enter he
  refine ⟨d, fs.set ("data" :: d) .directory, ?_, hroot, ?_, ?_, ?_⟩
  · have hdirectory : ensureDirectory (root.join "data") fs =
        .ok () (fs.set ("data" :: d) .directory) := by rw [ensureDirectory, hmake]
    have hregistry : (root.join "db_meta.json").Fits 0 := hfits.join (by decide) (by decide)
    rw [Session.opening, bind_apply, Config.validate_underRoot]
    exact FileLayout.prepare_of_data hdirectory fun parent hp =>
      present_parent isName_registry hregistry hroot hp
  · exact enter_created isName_data (by decide) hroot (by rw [hentry, if_pos rfl])
  · intro n hn
    rw [hentry, if_neg (by simpa using hn)]
    exact hempty [n] (by simp)
  · intro n
    rw [hentry, if_neg (by simp)]
    exact hempty [n, "data"] (by simp)

end FileSystem.Vacant
end TableStore
