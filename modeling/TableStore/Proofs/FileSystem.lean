import TableStore.FileSystem.Basic
import TableStore.Proofs.Except
import TableStore.Proofs.Path

/-!
Where paths lead, and what an operation on files leaves as it was. A path is followed along
directories only, so that no file matters to it but the last, and operations on files keep all
directories.
-/

namespace TableStore.FileSystem

open TableStore.Path (IsName)

variable {fs fs' fs'' : FileSystem} {p : Path} {n : String} {d : Location}

/-! ## Entries -/

theorem entry?_set (fs : FileSystem) (n : String) (d l : Location) (entry : Entry) :
    entry? (fs.set (n :: d) entry) l = if l = n :: d then some entry else fs.entry? l := by
  simp only [ entry?, set]
  rw [KeyedList.get?_insert]
  split
  · next h => subst h; simp
  · rfl

theorem entry?_clear (fs : FileSystem) (n : String) (d l : Location) :
    entry? (fs.clear (n :: d)) l = if l = n :: d then none else fs.entry? l := by
  simp only [ entry?, clear]
  rw [KeyedList.get?_erase]
  split
  · next h => subst h; simp
  · rfl

theorem find?_eq_ok {entry : Option Entry} :
    fs.find? d n = .ok entry ↔ n.utf8ByteSize ≤ maxName ∧ fs.entry? (n :: d) = entry := by
  rw [find?]
  split
  · next h => simp [Nat.not_le.mpr h]
  · next h => simp [Nat.not_lt.mp h]

theorem find?_congr (h : fs'.entry? (n :: d) = fs.entry? (n :: d)) :
    fs'.find? d n = fs.find? d n := by
  simp only [find?]
  rw [h]

/-! ## Following paths -/

theorem walk_append (fs : FileSystem) (d : Location) (front rest : List String) :
    fs.walk d (front ++ rest) = fs.walk d front >>= fun d => fs.walk d rest := by
  induction front generalizing d with
  | nil => rfl
  | cons segment front ih =>
      rw [List.cons_append, walk, walk]
      split
      · exact ih d
      · split
        · exact ih d.tail
        · cases fs.find? d segment with
          | error fault => rfl
          | ok found =>
              cases found with
              | none => rfl
              | some entry =>
                  cases entry with
                  | file _ => rfl
                  | directory => exact ih (segment :: d)

theorem walk_step (fs : FileSystem) (d : Location) {step : String} (hs : Path.isStep step)
    (hd : step ≠ "..") :
    fs.walk d [step] =
      fs.find? d step >>= fun
        | none => .error .missing
        | some (.file _) => .error .notDirectory
        | some .directory => .ok (step :: d) := by
  simp only [Path.isStep, Bool.and_eq_true, bne_iff_ne, ne_eq] at hs
  rw [walk, if_neg (by simp [hs]), if_neg hd]
  cases fs.find? d step with
  | error fault => rfl
  | ok found =>
      cases found with
      | none => rfl
      | some entry => cases entry <;> rfl

theorem walk_name (h : IsName n) (fs : FileSystem) (d : Location) :
    fs.walk d [n] =
      fs.find? d n >>= fun
        | none => .error .missing
        | some (.file _) => .error .notDirectory
        | some .directory => .ok (n :: d) :=
  walk_step fs d (by simp [Path.isStep, h.nonempty, h.notHere]) h.notAbove

def start (fs : FileSystem) (p : Path) : Location :=
  if p.parts.1 = .root then [] else fs.workingDirectory

/-- The directory to which a path leads if all its segments are followed. -/
def enter (fs : FileSystem) (p : Path) : Except Fault Location := fs.walk (fs.start p) p.segments

/-- What is asked of the text of a path. -/
def checkText (p : Path) : Except Fault Unit :=
  if p.text.toList.contains '\x00' then .error .zeroInPath
  else if maxPath < p.text.utf8ByteSize then .error .nameTooLong
  else .ok ()

theorem start_join (fs : FileSystem) (p : Path) (h : IsName n) :
    fs.start (p.join n) = fs.start p := by
  simp only [start]
  simp only [Path.isRoot_join p h]

theorem walk_of_segments_join {front : List String}
    (h : p.segments = front ∨ p.segments = front ++ [""]) :
    fs.walk (fs.start p) front = fs.enter p := by
  rw [enter]
  obtain h | h := h
  · rw [h]
  · rw [h, walk_append]
    cases fs.walk (fs.start p) front <;> rfl

theorem enter_join (fs : FileSystem) (p : Path) (h : IsName n) :
    fs.enter (p.join n) = fs.enter p >>= fun d => fs.walk d [n] := by
  obtain ⟨front, hj, hs⟩ := p.segments_join h
  rw [← walk_of_segments_join hs, ← walk_append, ← hj, ← start_join fs p h]
  rfl

theorem text_ne_of_name {front : List String} (hp : p.segments = front ++ [n]) (h : IsName n) :
    p.text ≠ "" := by
  intro ht
  have he : p.segments = [""] := by rw [Path.segments, ht]; rfl
  have hn := congrArg List.getLast? (he.symm.trans hp)
  rw [List.getLast?_concat] at hn
  exact h.nonempty (Option.some.inj hn).symm

/-- A path whose last segment is a name leads to this name, if the way there is open. -/
theorem resolve_of_name {front : List String} (hp : p.segments = front ++ [n]) (h : IsName n) :
    fs.resolve p =
      checkText p >>= fun _ => (fs.walk (fs.start p) front).map fun d => .name d n false := by
  have hr : p.segments.reverse = n :: front.reverse := by simp [hp]
  have hd : (n :: front.reverse).dropWhile (· == "") = n :: front.reverse := by
    simp [h.nonempty]
  rw [resolve, checkText]
  split
  · rfl
  · rw [if_neg (text_ne_of_name hp h)]
    split
    · rfl
    · simp only [hr, hd, List.reverse_reverse]
      change (fs.walk (fs.start p) front >>= _) = _
      cases fs.walk (fs.start p) front with
      | error fault => rfl
      | ok d =>
          change (if n = "." then _ else _) = _
          rw [if_neg h.notHere, if_neg h.notAbove]
          have hb : ((n :: front.reverse).head? == some "") = false := by simp [h.nonempty]
          rw [hb]
          rfl

theorem resolve_join (fs : FileSystem) (p : Path) (h : IsName n) :
    fs.resolve (p.join n) =
      checkText (p.join n) >>= fun _ => (fs.enter p).map fun d => .name d n false := by
  obtain ⟨front, hj, hs⟩ := p.segments_join h
  rw [resolve_of_name hj h, start_join fs p h, walk_of_segments_join hs]

theorem resolve_join_eq_ok (h : IsName n) {target : Target} :
    fs.resolve (p.join n) = .ok target ↔
      checkText (p.join n) = .ok () ∧ ∃ d, fs.enter p = .ok d ∧ target = .name d n false := by
  rw [resolve_join fs p h, exceptBind_eq_ok]
  constructor
  · intro h
    obtain ⟨_, ha, hm⟩ := h
    obtain ⟨d, hd, rfl⟩ := exceptMap_eq_ok.mp hm
    exact ⟨ha, d, hd, rfl⟩
  · intro h
    obtain ⟨ha, d, hd, rfl⟩ := h
    exact ⟨(), ha, exceptMap_eq_ok.mpr ⟨d, hd, rfl⟩⟩

theorem resolve_join_congr (h : IsName n) (he : fs'.enter p = fs.enter p) :
    fs'.resolve (p.join n) = fs.resolve (p.join n) := by
  rw [resolve_join fs p h, resolve_join fs' p h, he]

theorem enter_join_congr (h : IsName n) (he : fs'.enter p = fs.enter p)
    (hn : ∀ d, fs.enter p = .ok d → fs'.entry? (n :: d) = fs.entry? (n :: d)) :
    fs'.enter (p.join n) = fs.enter (p.join n) := by
  rw [enter_join fs p h, enter_join fs' p h, he]
  cases hd : fs.enter p with
  | error fault => rfl
  | ok d =>
      change fs'.walk d [n] = fs.walk d [n]
      rw [walk_name h, walk_name h, find?_congr (hn d hd)]

theorem enter_join_eq_ok (h : IsName n) (he : fs.enter (p.join n) = .ok d) :
    ∃ above, fs.enter p = .ok above ∧ d = n :: above := by
  rw [enter_join fs p h] at he
  obtain ⟨above, ha, hw⟩ := exceptBind_eq_ok.mp he
  rw [walk_name h] at hw
  obtain ⟨found, -, hf⟩ := exceptBind_eq_ok.mp hw
  cases found with
  | none => cases hf
  | some entry =>
      cases entry with
      | file _ => cases hf
      | directory =>
          cases hf
          exact ⟨above, ha, rfl⟩

/-! ## Directories that stay -/

/-- All directories are still there, and so is the working directory. -/
structure Grows (fs fs' : FileSystem) : Prop where
  workingDirectory : fs'.workingDirectory = fs.workingDirectory
  directory : ∀ l, fs.entry? l = some .directory → fs'.entry? l = some .directory

namespace Grows

theorem refl (fs : FileSystem) : Grows fs fs := ⟨rfl, fun _ => id⟩

theorem trans (h : Grows fs fs') (h' : Grows fs' fs'') : Grows fs fs'' :=
  ⟨h'.workingDirectory.trans h.workingDirectory, fun l hl => h'.directory l (h.directory l hl)⟩

theorem walk (h : Grows fs fs') {segments : List String} {d' : Location}
    (hw : fs.walk d segments = .ok d') : fs'.walk d segments = .ok d' := by
  induction segments generalizing d with
  | nil => exact hw
  | cons segment rest ih =>
      rw [FileSystem.walk] at hw ⊢
      split at hw
      · next hs => rw [if_pos hs]; exact ih hw
      · next hs =>
          rw [if_neg hs]
          split at hw
          · next ha => rw [if_pos ha]; exact ih hw
          · next ha =>
              rw [if_neg ha]
              obtain ⟨found, hf, hw⟩ := exceptBind_eq_ok.mp hw
              obtain ⟨hl, he⟩ := find?_eq_ok.mp hf
              cases found with
              | none => cases hw
              | some entry =>
                  cases entry with
                  | file _ => cases hw
                  | directory =>
                      have hf' := find?_eq_ok.mpr ⟨hl, h.directory _ he⟩
                      exact exceptBind_eq_ok.mpr ⟨_, hf', ih hw⟩

theorem start (h : Grows fs fs') (p : Path) : fs'.start p = fs.start p := by
  simp only [FileSystem.start]
  rw [h.workingDirectory]

theorem enter (h : Grows fs fs') (he : fs.enter p = .ok d) : fs'.enter p = .ok d := by
  rw [FileSystem.enter]
  rw [h.start]
  exact h.walk he

theorem resolve (h : Grows fs fs') {target : Target} (hr : fs.resolve p = .ok target) :
    fs'.resolve p = .ok target := by
  rw [FileSystem.resolve] at hr ⊢
  split at hr
  · cases hr
  · next hz =>
      rw [if_neg hz]
      split at hr
      · cases hr
      · next ht =>
          rw [if_neg ht]
          split at hr
          · cases hr
          · next hl =>
              rw [if_neg hl]
              simp only [h.workingDirectory] at hr ⊢
              cases hb : p.segments.reverse.dropWhile (· == "") with
              | nil =>
                  rw [hb] at hr
                  exact hr
              | cons last above =>
                  rw [hb] at hr
                  obtain ⟨d, hw, hr⟩ := exceptBind_eq_ok.mp hr
                  exact exceptBind_eq_ok.mpr ⟨d, h.walk hw, hr⟩

theorem isDirectory (h : Grows fs fs') (hd : fs.isDirectory p) : fs'.isDirectory p := by
  rw [FileSystem.isDirectory] at hd ⊢
  cases hr : fs.resolve p with
  | error fault => rw [hr] at hd; cases hd
  | ok target =>
      rw [hr] at hd
      rw [h.resolve hr]
      cases target with
      | directory _ => rfl
      | name d n _ =>
          simp only at hd ⊢
          cases he : fs.entry? (n :: d) with
          | none => rw [he] at hd; cases hd
          | some entry =>
              rw [he] at hd
              cases entry with
              | file _ => cases hd
              | directory => rw [h.directory _ he]; rfl

end Grows

end TableStore.FileSystem
