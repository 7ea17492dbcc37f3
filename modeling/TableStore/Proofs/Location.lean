import Mathlib.Data.List.TakeWhile
import TableStore.Proofs.FileSystem

/-!
Places. A path that leads anywhere leads where its text says, with `..` going up along the
text. So a place is known from the path and the working directory alone, and so is what an
operation on a file does.
-/

namespace TableStore

namespace Path

/-! ## Where the text of a path leads -/

/-- Goes along a segment, whatever is there. -/
def follow (d : Location) (segment : String) : Location :=
  if segment = "" || segment = "." then d
  else if segment = ".." then d.tail
  else segment :: d

def location (p : Path) (workingDirectory : Location) : Location :=
  p.segments.foldl follow (if p.parts.1 = .root then [] else workingDirectory)

theorem follow_name {n : String} (h : IsName n) (d : Location) : follow d n = n :: d := by
  simp [follow, h.nonempty, h.notHere, h.notAbove]

theorem location_join (p : Path) {n : String} (h : IsName n) (d : Location) :
    (p.join n).location d = n :: p.location d := by
  obtain ⟨front, hj, hs⟩ := p.segments_join h
  have hfront (d : Location) : p.segments.foldl follow d = front.foldl follow d := by
    obtain hs | hs := hs
    · rw [hs]
    · rw [hs, List.foldl_append]
      rfl
  rw [location, location, hj, hfront, List.foldl_append]
  simp only [isRoot_join p h]
  exact follow_name h _

end Path

namespace FileSystem

open TableStore.Path (IsName follow)

variable {fs fs' : FileSystem} {p q : Path} {n : String} {d l : Location}

/-! ## Where a path leads -/

theorem location_of_walk {segments : List String} {d' : Location}
    (h : fs.walk d segments = .ok d') : d' = segments.foldl follow d := by
  induction segments generalizing d with
  | nil => cases h; rfl
  | cons segment rest ih =>
      rw [walk] at h
      rw [List.foldl_cons, follow]
      split at h
      · next hs => rw [if_pos hs]; exact ih h
      · next hs =>
          rw [if_neg hs]
          split at h
          · next ha => rw [if_pos ha]; exact ih h
          · next ha =>
              rw [if_neg ha]
              obtain ⟨found, -, h⟩ := exceptBind_eq_ok.mp h
              cases found with
              | none => cases h
              | some entry =>
                  cases entry with
                  | file _ => cases h
                  | directory => exact ih h

theorem location_of_enter (h : fs.enter p = .ok d) : p.location fs.workingDirectory = d :=
  (location_of_walk h).symm

theorem foldl_follow_blank {blanks : List String} (h : ∀ s ∈ blanks, s = "") (d : Location) :
    blanks.foldl follow d = d := by
  induction blanks with
  | nil => rfl
  | cons s blanks ih =>
      cases h s List.mem_cons_self
      exact ih fun s hs => h s (List.mem_cons_of_mem _ hs)

/-- A path is all blanks, or it ends in a segment with blanks behind it. -/
theorem segments_cases (segments : List String) :
    (segments.reverse.dropWhile (· == "") = [] ∧ ∀ s ∈ segments, s = "") ∨
      ∃ above last blanks, segments = above ++ last :: blanks ∧ last ≠ "" ∧
        (∀ s ∈ blanks, s = "") ∧
        segments.reverse.dropWhile (· == "") = last :: above.reverse := by
  have hsplit := List.takeWhile_append_dropWhile (p := (· == "")) (l := segments.reverse)
  cases h : segments.reverse.dropWhile (· == "") with
  | nil =>
      refine .inl ⟨rfl, fun s hs => ?_⟩
      simpa using List.dropWhile_eq_nil_iff.mp h s (List.mem_reverse.mpr hs)
  | cons last above =>
      rw [h] at hsplit
      have hrev := congrArg List.reverse hsplit
      rw [List.reverse_append, List.reverse_cons, List.reverse_reverse, List.append_assoc] at hrev
      refine .inr ⟨above.reverse, last, _, hrev.symm, ?_, fun s hs => ?_,
        by rw [List.reverse_reverse]⟩
      · simpa [h] using List.head_dropWhile_not (p := (· == "")) (l := segments.reverse) (by simp [h])
      · simpa using List.mem_takeWhile_imp (List.mem_reverse.mp hs)

def Target.location : Target → Location
  | .directory d => d
  | .name d n _ => n :: d

/-- A path leads where all its segments but the last lead, and from there along the last one. -/
theorem resolve_cases {target : Target} (h : fs.resolve p = .ok target) :
    ((∀ s ∈ p.segments, s = "") ∧ target = .directory (fs.start p)) ∨
      ∃ above last blanks d, p.segments = above ++ last :: blanks ∧ last ≠ "" ∧
        (∀ s ∈ blanks, s = "") ∧ fs.walk (fs.start p) above = .ok d ∧
        ((last = "." ∧ target = .directory d) ∨ (last = ".." ∧ target = .directory d.tail) ∨
          (last ≠ "." ∧ last ≠ ".." ∧ ∃ slash, target = .name d last slash)) := by
  rw [resolve] at h
  split at h
  · cases h
  · split at h
    · cases h
    · split at h
      · cases h
      · obtain ⟨hb, hblank⟩ | ⟨above, last, blanks, hp, hne, hblank, hb⟩ :=
          segments_cases p.segments
        · simp only [hb] at h
          cases h
          exact .inl ⟨hblank, rfl⟩
        · simp only [hb, List.reverse_reverse] at h
          obtain ⟨d, hw, h⟩ := exceptBind_eq_ok.mp h
          refine .inr ⟨above, last, blanks, d, hp, hne, hblank, hw, ?_⟩
          split at h
          · next hl => cases h; exact .inl ⟨hl, rfl⟩
          · next hl =>
              split at h
              · next ha => cases h; exact .inr (.inl ⟨ha, rfl⟩)
              · next ha => cases h; exact .inr (.inr ⟨hl, ha, _, rfl⟩)

theorem location_of_resolve {target : Target} (h : fs.resolve p = .ok target) :
    p.location fs.workingDirectory = target.location := by
  change p.segments.foldl follow (fs.start p) = _
  obtain ⟨hblank, rfl⟩ | ⟨above, last, blanks, d, hp, hne, hblank, hw, htarget⟩ := resolve_cases h
  · exact foldl_follow_blank hblank _
  · have hd : d = above.foldl follow (fs.start p) := location_of_walk hw
    rw [hp, List.foldl_append, List.foldl_cons, foldl_follow_blank hblank, ← hd]
    obtain ⟨rfl, rfl⟩ | ⟨rfl, rfl⟩ | ⟨hl, ha, slash, rfl⟩ := htarget
    · rfl
    · rfl
    · simp [follow, hne, hl, ha, Target.location]

/-- The path leads to a place where a file may be. -/
def LeadsTo (fs : FileSystem) (p : Path) (l : Location) : Prop :=
  ∃ d n, fs.resolve p = .ok (.name d n false) ∧ n.utf8ByteSize ≤ maxName ∧ l = n :: d

theorem leadsTo_join (hn : IsName n) :
    fs.LeadsTo (p.join n) l ↔
      checkText (p.join n) = .ok () ∧ n.utf8ByteSize ≤ maxName ∧ ∃ d, fs.enter p = .ok d ∧ l = n :: d := by
  constructor
  · rintro ⟨d, n', hr, hl, rfl⟩
    obtain ⟨hc, d', hd, he⟩ := (resolve_join_eq_ok hn).mp hr
    cases he
    exact ⟨hc, hl, d, hd, rfl⟩
  · rintro ⟨hc, hl, d, hd, rfl⟩
    exact ⟨d, n, (resolve_join_eq_ok hn).mpr ⟨hc, d, hd, rfl⟩, hl, rfl⟩

namespace LeadsTo

theorem location_eq (h : fs.LeadsTo p l) : p.location fs.workingDirectory = l := by
  obtain ⟨d, n, hr, -, rfl⟩ := h
  exact location_of_resolve hr

theorem unique {l' : Location} (h : fs.LeadsTo p l) (h' : fs.LeadsTo p l') : l = l' :=
  h.location_eq.symm.trans h'.location_eq

theorem grows (h : fs.LeadsTo p l) (hg : Grows fs fs') : fs'.LeadsTo p l := by
  obtain ⟨d, n, hr, hn, rfl⟩ := h
  exact ⟨d, n, hg.resolve hr, hn, rfl⟩

theorem entry?_set (h : fs.LeadsTo p l) (fs' : FileSystem) (entry : Entry) (l' : Location) :
    FileSystem.entry? (fs'.set l entry) l' = if l' = l then some entry else fs'.entry? l' := by
  obtain ⟨d, n, -, -, rfl⟩ := h
  exact FileSystem.entry?_set fs' n d l' entry

theorem entry?_clear (h : fs.LeadsTo p l) (fs' : FileSystem) (l' : Location) :
    FileSystem.entry? (fs'.clear l) l' = if l' = l then none else fs'.entry? l' := by
  obtain ⟨d, n, -, -, rfl⟩ := h
  exact FileSystem.entry?_clear fs' n d l'

end LeadsTo

/-! ## Operations by places -/

theorem read_eq_ok {contents : ByteArray} :
    fs.read p = .ok contents ↔ ∃ l, fs.LeadsTo p l ∧ fs.entry? l = some (.file contents) := by
  constructor
  · intro h
    obtain ⟨target, hr, h⟩ := exceptBind_eq_ok.mp h
    cases target with
    | directory _ => cases h
    | name d n slash =>
        obtain ⟨found, hf, h⟩ := exceptBind_eq_ok.mp h
        obtain ⟨hn, he⟩ := find?_eq_ok.mp hf
        cases found with
        | none => cases h
        | some entry =>
            cases entry with
            | directory => cases h
            | file b =>
                cases slash with
                | true => cases h
                | false => cases h; exact ⟨_, ⟨d, n, hr, hn, rfl⟩, he⟩
  · rintro ⟨l, ⟨d, n, hr, hn, rfl⟩, he⟩
    exact exceptBind_eq_ok.mpr ⟨_, hr, exceptBind_eq_ok.mpr ⟨_, find?_eq_ok.mpr ⟨hn, he⟩, rfl⟩⟩

theorem read_of_none (hp : fs.LeadsTo p l) (he : fs.entry? l = none) :
    fs.read p = .error .missing := by
  obtain ⟨d, n, hr, hn, rfl⟩ := hp
  exact exceptBind_eq_error.mpr (.inr ⟨_, hr, exceptBind_eq_error.mpr
    (.inr ⟨_, find?_eq_ok.mpr ⟨hn, he⟩, rfl⟩)⟩)

theorem write_eq_ok {contents : ByteArray} :
    fs.write p contents = .ok fs' ↔
      ∃ l, fs.LeadsTo p l ∧ fs.entry? l ≠ some .directory ∧ fs' = fs.set l (.file contents) := by
  constructor
  · intro h
    obtain ⟨target, hr, h⟩ := exceptBind_eq_ok.mp h
    cases target with
    | directory _ => cases h
    | name d n slash =>
        cases slash with
        | true => cases h
        | false =>
            obtain ⟨found, hf, h⟩ := exceptBind_eq_ok.mp h
            obtain ⟨hn, he⟩ := find?_eq_ok.mp hf
            refine ⟨n :: d, ⟨d, n, hr, hn, rfl⟩, ?_⟩
            rw [he]
            cases found with
            | none => cases h; exact ⟨nofun, rfl⟩
            | some entry =>
                cases entry with
                | directory => cases h
                | file _ => cases h; exact ⟨nofun, rfl⟩
  · rintro ⟨l, ⟨d, n, hr, hn, rfl⟩, hne, rfl⟩
    refine exceptBind_eq_ok.mpr ⟨_, hr, exceptBind_eq_ok.mpr ⟨_, find?_eq_ok.mpr ⟨hn, rfl⟩, ?_⟩⟩
    cases he : fs.entry? (n :: d) with
    | none => rfl
    | some entry =>
        cases entry with
        | directory => exact absurd he hne
        | file _ => rfl

theorem remove_eq_ok :
    fs.remove p = .ok fs' ↔
      ∃ l contents, fs.LeadsTo p l ∧ fs.entry? l = some (.file contents) ∧ fs' = fs.clear l := by
  constructor
  · intro h
    obtain ⟨target, hr, h⟩ := exceptBind_eq_ok.mp h
    cases target with
    | directory _ => cases h
    | name d n slash =>
        obtain ⟨found, hf, h⟩ := exceptBind_eq_ok.mp h
        obtain ⟨hn, he⟩ := find?_eq_ok.mp hf
        cases found with
        | none => cases h
        | some entry =>
            cases entry with
            | directory => cases h
            | file b =>
                cases slash with
                | true => cases h
                | false => cases h; exact ⟨_, b, ⟨d, n, hr, hn, rfl⟩, he, rfl⟩
  · rintro ⟨l, b, ⟨d, n, hr, hn, rfl⟩, he, rfl⟩
    exact exceptBind_eq_ok.mpr ⟨_, hr, exceptBind_eq_ok.mpr ⟨_, find?_eq_ok.mpr ⟨hn, he⟩, rfl⟩⟩

theorem remove_of_none (hp : fs.LeadsTo p l) (he : fs.entry? l = none) :
    fs.remove p = .error .missing := by
  obtain ⟨d, n, hr, hn, rfl⟩ := hp
  exact exceptBind_eq_error.mpr (.inr ⟨_, hr, exceptBind_eq_error.mpr
    (.inr ⟨_, find?_eq_ok.mpr ⟨hn, he⟩, rfl⟩)⟩)

theorem rename_eq_ok :
    fs.rename p q = .ok fs' ↔
      ∃ l m contents, fs.LeadsTo p l ∧ fs.LeadsTo q m ∧ fs.entry? l = some (.file contents) ∧
        fs.entry? m ≠ some .directory ∧ fs' = (fs.clear l).set m (.file contents) := by
  constructor
  · intro h
    obtain ⟨source, hr, h⟩ := exceptBind_eq_ok.mp h
    obtain ⟨target, hr', h⟩ := exceptBind_eq_ok.mp h
    cases source with
    | directory _ => cases h
    | name d n slash =>
        cases target with
        | directory _ => cases h
        | name d' n' slash' =>
            obtain ⟨found, hf, h⟩ := exceptBind_eq_ok.mp h
            obtain ⟨hn, he⟩ := find?_eq_ok.mp hf
            cases found with
            | none => cases h
            | some entry =>
                cases entry with
                | directory => cases h
                | file b =>
                    obtain ⟨there, ht, h⟩ := exceptBind_eq_ok.mp h
                    obtain ⟨hn', he'⟩ := find?_eq_ok.mp ht
                    cases slash with
                    | true => cases h
                    | false =>
                        cases slash' with
                        | true => cases h
                        | false =>
                            refine ⟨_, _, b, ⟨d, n, hr, hn, rfl⟩, ⟨d', n', hr', hn', rfl⟩, he, ?_⟩
                            rw [he']
                            cases there with
                            | none => cases h; exact ⟨nofun, rfl⟩
                            | some entry =>
                                cases entry with
                                | directory => cases h
                                | file _ => cases h; exact ⟨nofun, rfl⟩
  · rintro ⟨l, m, b, ⟨d, n, hr, hn, rfl⟩, ⟨d', n', hr', hn', rfl⟩, he, hne, rfl⟩
    refine exceptBind_eq_ok.mpr ⟨_, hr, exceptBind_eq_ok.mpr ⟨_, hr', exceptBind_eq_ok.mpr
      ⟨_, find?_eq_ok.mpr ⟨hn, he⟩, exceptBind_eq_ok.mpr ⟨_, find?_eq_ok.mpr ⟨hn', rfl⟩, ?_⟩⟩⟩⟩
    cases he' : fs.entry? (n' :: d') with
    | none => rfl
    | some entry =>
        cases entry with
        | directory => exact absurd he' hne
        | file _ => rfl

end FileSystem
end TableStore
