import TableStore.Path

/-!
The segments of a path that a name has been joined to, or a suffix. A joined name is the last
segment, behind those of the directory, and a suffix goes to the last segment that was there.
-/

namespace TableStore.Path

theorem splitSlashes_slash (cs : List Char) : splitSlashes ('/' :: cs) = [] :: splitSlashes cs := by
  rw [splitSlashes, if_pos rfl]

theorem splitSlashes_ne_nil (cs : List Char) : splitSlashes cs ≠ [] := by
  cases cs with
  | nil => exact List.cons_ne_nil _ _
  | cons c cs =>
      rw [splitSlashes]
      split
      · exact List.cons_ne_nil _ _
      · split <;> exact List.cons_ne_nil _ _

theorem splitSlashes_of_not_mem {cs : List Char} (h : '/' ∉ cs) : splitSlashes cs = [cs] := by
  induction cs with
  | nil => rfl
  | cons c cs ih =>
      rw [List.mem_cons, not_or] at h
      rw [splitSlashes, if_neg (Ne.symm h.1), ih h.2]

theorem splitSlashes_append (front cs : List Char) :
    splitSlashes (front ++ '/' :: cs) = splitSlashes front ++ splitSlashes cs := by
  induction front with
  | nil => exact splitSlashes_slash cs
  | cons c front ih =>
      rw [List.cons_append]
      by_cases hc : c = '/'
      · rw [hc, splitSlashes_slash, splitSlashes_slash, ih, List.cons_append]
      · rw [splitSlashes, if_neg hc, ih, splitSlashes, if_neg hc]
        cases hf : splitSlashes front with
        | nil => exact absurd hf (splitSlashes_ne_nil front)
        | cons segment rest => rfl

theorem not_mem_of_mem_splitSlashes {cs segment : List Char} (h : segment ∈ splitSlashes cs) :
    '/' ∉ segment := by
  induction cs generalizing segment with
  | nil =>
      cases List.mem_singleton.mp h
      simp
  | cons c cs ih =>
      by_cases hc : c = '/'
      · rw [hc, splitSlashes_slash, List.mem_cons] at h
        obtain rfl | h := h
        · simp
        · exact ih h
      · rw [splitSlashes, if_neg hc] at h
        split at h
        · cases List.mem_singleton.mp h
          simpa using Ne.symm hc
        · next first rest hs =>
            rw [hs] at ih
            rw [List.mem_cons] at h
            obtain rfl | h := h
            · rw [List.mem_cons, not_or]
              exact ⟨Ne.symm hc, ih List.mem_cons_self⟩
            · exact ih (List.mem_cons_of_mem _ h)

theorem noSlash_of_mem_segments {p : Path} {segment : String} (h : segment ∈ p.segments) :
    '/' ∉ segment.toList := by
  obtain ⟨cs, hc, rfl⟩ := List.mem_map.mp h
  rw [String.toList_ofList]
  exact not_mem_of_mem_splitSlashes hc

/-- A name is a segment that stands for nothing else. -/
structure IsName (n : String) : Prop where
  nonempty : n ≠ ""
  notHere : n ≠ "."
  notAbove : n ≠ ".."
  noSlash : '/' ∉ n.toList

theorem segments_of_noSlash {n : String} (h : '/' ∉ n.toList) : (⟨n⟩ : Path).segments = [n] := by
  rw [segments, splitSlashes_of_not_mem h, List.map_singleton, String.ofList_toList]

theorem segments_slash (front n : String) :
    (⟨front ++ "/" ++ n⟩ : Path).segments = (⟨front⟩ : Path).segments ++ (⟨n⟩ : Path).segments := by
  simp only [segments, String.toList_append, List.append_assoc]
  rw [← List.map_append, ← splitSlashes_append]
  rfl

/-- The name comes last, behind the segments of the directory but for an empty last one. -/
theorem segments_join (p : Path) {n : String} (h : IsName n) :
    ∃ front, (p.join n).segments = front ++ [n] ∧
      (p.segments = front ∨ p.segments = front ++ [""]) := by
  obtain ⟨text⟩ := p
  rw [join]
  split
  · next hc =>
      rw [Bool.or_eq_true, decide_eq_true_eq, decide_eq_true_eq] at hc
      obtain rfl | hc := hc
      · refine ⟨[], ?_, .inr rfl⟩
        rw [String.empty_append]
        exact segments_of_noSlash h.noSlash
      · obtain ⟨front, hf⟩ := List.getLast?_eq_some_iff.mp hc
        have ht : text = String.ofList front ++ "/" := String.toList_inj.mp (by simp [hf])
        subst ht
        refine ⟨(⟨String.ofList front⟩ : Path).segments, ?_, .inr ?_⟩
        · rw [segments_slash, segments_of_noSlash h.noSlash]
        · have := segments_slash (String.ofList front) ""
          rwa [String.append_empty] at this
  · refine ⟨(⟨text⟩ : Path).segments, ?_, .inl rfl⟩
    rw [segments_slash, segments_of_noSlash h.noSlash]

theorem segments_of_slash {p : Path} (h : p.text.toList.head? = some '/') :
    ∃ rest, p.segments = "" :: rest ∧ rest ≠ [] := by
  obtain ⟨cs, hc⟩ := List.head?_eq_some_iff.mp h
  refine ⟨(splitSlashes cs).map String.ofList, ?_, ?_⟩
  · rw [segments, hc, splitSlashes_slash]
    rfl
  · rw [Ne, List.map_eq_nil_iff]
    exact splitSlashes_ne_nil cs

theorem head_of_segments {p : Path} {rest : List String} (h : p.segments = "" :: rest)
    (hr : rest ≠ []) : p.text.toList.head? = some '/' := by
  rw [segments] at h
  cases hc : p.text.toList with
  | nil =>
      rw [hc] at h
      exact absurd (List.cons.inj h).2.symm hr
  | cons c cs =>
      rw [hc, splitSlashes] at h
      split at h
      · next hs => rw [hs]; rfl
      · have hne : ∀ segment, String.ofList (c :: segment) ≠ "" := by simp
        split at h
        · exact absurd (List.cons.inj h).1 (hne _)
        · exact absurd (List.cons.inj h).1 (hne _)

/-- A path starts at the root if its text starts with a slash. -/
theorem isRoot_iff (p : Path) : p.parts.1 = .root ↔ p.text.toList.head? = some '/' := by
  constructor
  · intro h
    rw [parts] at h
    split at h
    · next rest hs =>
        split at h
        · cases h
        · next hr => exact head_of_segments hs (by simpa using hr)
    · cases h
    · cases h
  · intro h
    obtain ⟨rest, hs, hr⟩ := segments_of_slash h
    simp only [parts, hs, List.isEmpty_iff, if_neg hr]

theorem isRoot_join (p : Path) {n : String} (h : IsName n) :
    (p.join n).parts.1 = .root ↔ p.parts.1 = .root := by
  rw [isRoot_iff, isRoot_iff]
  obtain ⟨text⟩ := p
  rw [join]
  split
  · next hc =>
      rw [Bool.or_eq_true, decide_eq_true_eq, decide_eq_true_eq] at hc
      obtain rfl | hc := hc
      · simp only [String.empty_append]
        refine iff_of_false (fun hn => h.noSlash ?_) (by simp)
        exact List.mem_of_mem_head? hn
      · cases ht : text.toList with
        | nil => simp [ht] at hc
        | cons c cs => simp [ht]
  · next hc =>
      cases ht : text.toList with
      | nil =>
          rw [String.toList_eq_nil_iff] at ht
          simp [ht] at hc
      | cons c cs => simp [ht]

/-! ## Suffixes -/

theorem splitSlashes_append_of_not_mem (cs : List Char) {suffix : List Char} (hs : '/' ∉ suffix) :
    ∃ front last, splitSlashes cs = front ++ [last] ∧
      splitSlashes (cs ++ suffix) = front ++ [last ++ suffix] := by
  induction cs with
  | nil => exact ⟨[], [], rfl, splitSlashes_of_not_mem hs⟩
  | cons c cs ih =>
      obtain ⟨front, last, h, hsuffix⟩ := ih
      by_cases hc : c = '/'
      · subst hc
        refine ⟨[] :: front, last, ?_, ?_⟩
        · rw [splitSlashes_slash, h, List.cons_append]
        · rw [List.cons_append, splitSlashes_slash, hsuffix, List.cons_append]
      · cases front with
        | nil =>
            refine ⟨[], c :: last, ?_, ?_⟩
            · rw [splitSlashes, if_neg hc, h]
              rfl
            · rw [List.cons_append, splitSlashes, if_neg hc, hsuffix]
              rfl
        | cons segment front =>
            refine ⟨(c :: segment) :: front, last, ?_, ?_⟩
            · rw [splitSlashes, if_neg hc, h]
              rfl
            · rw [List.cons_append, splitSlashes, if_neg hc, hsuffix]
              rfl

/-- A suffix goes to the last segment. -/
theorem segments_withSuffix (p : Path) {suffix : String} (hs : '/' ∉ suffix.toList) :
    ∃ front last, p.segments = front ++ [last] ∧
      (p.withSuffix suffix).segments = front ++ [last ++ suffix] := by
  obtain ⟨front, last, h, hsuffix⟩ := splitSlashes_append_of_not_mem p.text.toList hs
  refine ⟨front.map String.ofList, String.ofList last, ?_, ?_⟩
  · rw [segments, h, List.map_append, List.map_singleton]
  · rw [segments, withSuffix, String.toList_append, hsuffix, List.map_append, List.map_singleton,
      String.ofList_append, String.ofList_toList]

theorem isRoot_withSuffix (p : Path) {suffix : String} (hs : '/' ∉ suffix.toList) :
    (p.withSuffix suffix).parts.1 = .root ↔ p.parts.1 = .root := by
  rw [isRoot_iff, isRoot_iff, withSuffix, String.toList_append]
  cases hp : p.text.toList with
  | nil =>
      rw [List.nil_append]
      refine iff_of_false (fun h => hs ?_) (by simp)
      exact List.mem_of_mem_head? h
  | cons c cs => simp

/-- A segment with a long enough suffix is a name. -/
theorem isName_append {segment suffix : String} (h : '/' ∉ segment.toList)
    (hs : '/' ∉ suffix.toList) (hl : 2 < suffix.length) : IsName (segment ++ suffix) := by
  have short : ∀ s : String, s.length ≤ 2 → segment ++ suffix ≠ s := by
    intro s hs he
    cases he
    rw [String.length_append] at hs
    omega
  refine ⟨short _ (by decide), short _ (by decide), short _ (by decide), ?_⟩
  · rw [String.toList_append, List.mem_append, not_or]
    exact ⟨h, hs⟩

end TableStore.Path
