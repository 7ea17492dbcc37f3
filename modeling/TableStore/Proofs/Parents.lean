import Mathlib.Data.String.Basic
import TableStore.Proofs.Path

/-!
The steps of a path, and the path above it. What a path names depends on its steps and on
whether it starts at the root; the path above has the same steps but the last.
-/

namespace TableStore.Path

variable {p q : Path} {body front rest : List String}

/-! ## Segments of texts -/

theorem segments_intercalate (h : ∀ s ∈ body, '/' ∉ s.toList) (hne : body ≠ []) :
    (⟨"/".intercalate body⟩ : Path).segments = body := by
  induction body with
  | nil => exact absurd rfl hne
  | cons segment body ih =>
      have hs := segments_of_noSlash (h segment List.mem_cons_self)
      cases body with
      | nil => rwa [String.intercalate_singleton]
      | cons second body =>
          rw [String.intercalate_cons_cons, segments_slash, hs,
            ih (fun s hm => h s (List.mem_cons_of_mem _ hm)) (by simp)]
          rfl

theorem intercalate_splitSlashes (cs : List Char) :
    "/".intercalate ((splitSlashes cs).map String.ofList) = String.ofList cs := by
  induction cs with
  | nil => rfl
  | cons c cs ih =>
      by_cases hc : c = '/'
      · subst hc
        rw [splitSlashes_slash, List.map_cons]
        cases hs : splitSlashes cs with
        | nil => exact absurd hs (splitSlashes_ne_nil cs)
        | cons segment segments =>
            rw [hs] at ih
            rw [List.map_cons, String.intercalate_cons_cons, ← List.map_cons, ih]
            rw [← String.toList_inj]
            simp
      · rw [splitSlashes, if_neg hc]
        cases hs : splitSlashes cs with
        | nil => exact absurd hs (splitSlashes_ne_nil cs)
        | cons segment segments =>
            rw [hs] at ih
            rw [← String.toList_inj] at ih ⊢
            cases segments with
            | nil =>
                simp only [List.map_cons, List.map_nil, String.intercalate_singleton,
                  String.toList_ofList] at ih ⊢
                rw [ih]
            | cons second segments =>
                simp only [List.map_cons, String.intercalate_cons_cons, String.toList_append,
                  String.toList_ofList] at ih ⊢
                rw [← ih]
                rfl

theorem intercalate_segments (p : Path) : "/".intercalate p.segments = p.text := by
  rw [segments, intercalate_splitSlashes, String.ofList_toList]

theorem intercalate_append (front rest : List String) :
    ∃ suffix, "/".intercalate (front ++ rest) = "/".intercalate front ++ suffix := by
  induction front with
  | nil => exact ⟨_, (String.empty_append).symm⟩
  | cons segment front ih =>
      cases front with
      | nil =>
          cases rest with
          | nil => exact ⟨"", (String.append_empty).symm⟩
          | cons second rest =>
              refine ⟨"/" ++ "/".intercalate (second :: rest), ?_⟩
              rw [List.singleton_append, String.intercalate_cons_cons, String.intercalate_singleton,
                String.append_assoc]
      | cons second front =>
          obtain ⟨suffix, h⟩ := ih
          refine ⟨suffix, ?_⟩
          rw [List.cons_append] at h ⊢
          rw [List.cons_append, String.intercalate_cons_cons, String.intercalate_cons_cons, h,
            String.append_assoc, String.append_assoc, String.append_assoc]

/-! ## Anchors -/

theorem isRoot_iff_segments (p : Path) :
    p.parts.1 = .root ↔ ∃ rest, p.segments = "" :: rest ∧ rest ≠ [] := by
  rw [isRoot_iff]
  constructor
  · exact segments_of_slash
  · rintro ⟨rest, hs, hr⟩
    exact head_of_segments hs hr

theorem ofParts_parts (p : Path) : ofParts p.parts.1 p.parts.2 = p := by
  have ht := intercalate_segments p
  obtain ⟨text⟩ := p
  rw [parts]
  split
  · next rest hs =>
      rw [hs] at ht
      split
      · next hr =>
          rw [List.isEmpty_iff.mp hr] at ht
          exact congrArg Path.mk ht
      · cases rest with
        | nil => simp at *
        | cons second rest =>
            rw [String.intercalate_cons_cons, String.empty_append] at ht
            exact congrArg Path.mk ht
  · next rest hs =>
      rw [hs] at ht
      exact congrArg Path.mk ht
  · exact congrArg Path.mk ht

theorem ofParts_append (anchor : Anchor) (front rest : List String) :
    ∃ suffix, (ofParts anchor (front ++ rest)).text = (ofParts anchor front).text ++ suffix := by
  cases anchor with
  | root =>
      obtain ⟨suffix, h⟩ := intercalate_append front rest
      refine ⟨suffix, ?_⟩
      simp only [ofParts]
      rw [h, String.append_assoc]
  | here => exact intercalate_append ("." :: front) rest
  | plain => exact intercalate_append front rest

theorem steps_eq (p : Path) : p.steps = p.segments.filter isStep := by
  rw [steps, parts]
  split
  · next rest hs =>
      rw [hs]
      split
      · next hr =>
          rw [List.isEmpty_iff.mp hr]
          rfl
      · rfl
  · next rest hs =>
      rw [hs]
      rfl
  · rfl

theorem isStep_of_isName {n : String} (h : IsName n) : isStep n := by
  simp [isStep, h.nonempty, h.notHere]

theorem steps_join (p : Path) {n : String} (h : IsName n) : (p.join n).steps = p.steps ++ [n] := by
  obtain ⟨front, hj, hs⟩ := p.segments_join h
  have hfront : p.segments.filter isStep = front.filter isStep := by
    obtain hs | hs := hs
    · rw [hs]
    · rw [hs, List.filter_append]
      exact List.append_nil _
  rw [steps_eq, steps_eq, hj, hfront, List.filter_append, List.filter_cons_of_pos (isStep_of_isName h)]
  rfl

theorem mem_segments_of_mem_parts {segment : String} (h : segment ∈ p.parts.2) :
    segment ∈ p.segments := by
  rw [parts] at h
  split at h
  · next rest hs =>
      rw [hs]
      split at h
      · cases h
      · exact List.mem_cons_of_mem _ h
  · next rest hs =>
      rw [hs]
      exact List.mem_cons_of_mem _ h
  · exact h

theorem steps_ofParts {anchor : Anchor} (h : ∀ s ∈ body, '/' ∉ s.toList) :
    (ofParts anchor body).steps = body.filter isStep := by
  have hs : ((⟨"/".intercalate body⟩ : Path).segments).filter isStep = body.filter isStep := by
    cases body with
    | nil => rfl
    | cons segment body => rw [segments_intercalate h (by simp)]
  rw [steps_eq]
  cases anchor with
  | root =>
      have hslash := segments_slash "" ("/".intercalate body)
      rw [String.empty_append] at hslash
      rw [ofParts, hslash, List.filter_append, hs]
      rfl
  | here =>
      have hdot : ∀ s ∈ "." :: body, '/' ∉ s.toList :=
        List.forall_mem_cons.mpr ⟨by decide, h⟩
      rw [ofParts, segments_intercalate hdot (by simp)]
      rfl
  | plain => exact hs

theorem head?_of_plain (h : p.parts.1 = .plain) : p.parts.2.head? ≠ some "" := by
  intro hhead
  rw [parts] at h hhead
  split at h
  · next hs =>
      simp only [hs] at hhead
      split at h
      · next hr => rw [if_pos hr] at hhead; cases hhead
      · cases h
  · cases h
  · next hempty hhere =>
      split at hhead
      · next hs => exact hempty _ hs
      · next hs => exact hhere _ hs
      · obtain ⟨rest, hs⟩ := List.head?_eq_some_iff.mp hhead
        exact hempty rest hs

/-- A path made of the first parts of another one starts where the other one does. -/
theorem isRoot_ofParts (h : p.parts.2 = front ++ rest) :
    (ofParts p.parts.1 front).parts.1 = .root ↔ p.parts.1 = .root := by
  have hslash : ∀ s ∈ front, '/' ∉ s.toList := fun s hs =>
    noSlash_of_mem_segments (mem_segments_of_mem_parts (by rw [h]; exact List.mem_append_left _ hs))
  cases ha : p.parts.1 with
  | root =>
      refine iff_of_true ((isRoot_iff _).mpr ?_) rfl
      rw [ofParts, String.toList_append]
      rfl
  | here =>
      refine iff_of_false (fun hr => ?_) nofun
      obtain ⟨rest', hs, -⟩ := (isRoot_iff_segments _).mp hr
      have hdot : ∀ s ∈ "." :: front, '/' ∉ s.toList :=
        List.forall_mem_cons.mpr ⟨by decide, hslash⟩
      rw [ofParts, segments_intercalate hdot (by simp)] at hs
      exact absurd (List.cons.inj hs).1 (by decide)
  | plain =>
      refine iff_of_false (fun hr => ?_) nofun
      obtain ⟨rest', hs, hne⟩ := (isRoot_iff_segments _).mp hr
      cases front with
      | nil => exact absurd (List.cons.inj hs).2.symm hne
      | cons segment front =>
          rw [ofParts, segments_intercalate hslash (by simp)] at hs
          refine head?_of_plain ha ?_
          rw [h, (List.cons.inj hs).1]
          rfl

/-! ## The path above -/

theorem filter_dropWhile_not (body : List String) :
    (body.dropWhile (!isStep ·)).filter isStep = body.filter isStep := by
  induction body with
  | nil => rfl
  | cons segment body ih =>
      cases hs : isStep segment with
      | true => simp [hs]
      | false => simp [hs, ih]

theorem parentBodies_cases (body : List String) :
    (parentBodies body = [] ∧ body.filter isStep = []) ∨
      ∃ above bodies, parentBodies body = above :: bodies ∧
        (∃ below, body = below ++ above) ∧ above.filter isStep = (body.filter isStep).tail := by
  induction body with
  | nil => exact .inl ⟨rfl, rfl⟩
  | cons segment body ih =>
      rw [parentBodies]
      by_cases hs : isStep segment
      · rw [if_pos hs, List.filter_cons_of_pos hs, List.tail_cons]
        refine .inr ⟨_, _, rfl, ⟨segment :: body.takeWhile (!isStep ·), ?_⟩, ?_⟩
        · rw [List.cons_append, List.takeWhile_append_dropWhile]
        · exact filter_dropWhile_not body
      · rw [if_neg hs, List.filter_cons_of_neg hs]
        obtain h | ⟨above, bodies, hb, ⟨below, rfl⟩, hf⟩ := ih
        · exact .inl h
        · exact .inr ⟨above, bodies, hb, ⟨segment :: below, rfl⟩, hf⟩

theorem steps_of_parent?_none (h : p.parent? = none) : p.steps = [] := by
  rw [parent?] at h
  obtain ⟨-, hf⟩ | ⟨above, bodies, hb, -, -⟩ := parentBodies_cases p.parts.2.reverse
  · rwa [List.filter_reverse, List.reverse_eq_nil_iff] at hf
  · rw [hb] at h
    cases h

/-- The path above has all steps but the last, and its text comes first in that of the path. -/
theorem parent?_eq_some (h : p.parent? = some q) :
    q.steps = p.steps.dropLast ∧ (q.parts.1 = .root ↔ p.parts.1 = .root) ∧
      ∃ suffix, p.text = q.text ++ suffix := by
  rw [parent?] at h
  obtain ⟨hb, hf⟩ | ⟨above, bodies, hb, ⟨below, hbody⟩, hf⟩ :=
    parentBodies_cases p.parts.2.reverse
  · rw [hb] at h
    rw [List.filter_reverse, List.reverse_eq_nil_iff] at hf
    split at h
    · next hc => cases hc
    · next hc ha =>
        cases h
        refine ⟨?_, iff_of_false nofun fun hr => ?_, p.text, String.empty_append.symm⟩
        · have hs : p.steps = [] := hf
          rw [hs]
          rfl
        · rw [ha] at hr
          cases hr
    · cases h
  · rw [hb] at h
    cases h
    have hparts : p.parts.2 = above.reverse ++ below.reverse := by
      rw [← List.reverse_append, ← hbody, List.reverse_reverse]
    have hslash : ∀ s ∈ above.reverse, '/' ∉ s.toList := fun s hs =>
      noSlash_of_mem_segments (mem_segments_of_mem_parts
        (by rw [hparts]; exact List.mem_append_left _ hs))
    refine ⟨?_, isRoot_ofParts hparts, ?_⟩
    · rw [steps_ofParts hslash, List.filter_reverse, hf, List.filter_reverse, List.tail_reverse,
        List.reverse_reverse, steps]
    · obtain ⟨suffix, hs⟩ := ofParts_append p.parts.1 above.reverse below.reverse
      rw [← hparts, ofParts_parts] at hs
      exact ⟨suffix, hs⟩

end TableStore.Path
