import TableStore.Proofs.Lexemes

/-!
String literals: the scanner takes what stands between quotes apart into its segments, and the
text it gathers is the one that they denote. A first half of a pair that was read last is still
open: what comes next decides whether the literal stands for a text.
-/

namespace TableStore.Json

/-! ## Segments -/

namespace Segment

/-- The pieces after one segment more, latest first. -/
def add (pieces : List Piece) : Segment → List Piece
  | char c => .char c :: pieces
  | unit u => Piece.addUnit u.toNat pieces

theorem unescape?_eq_some {letter c : Char} :
    Token.unescape? letter = some c ↔ (letter, c) ∈ shortEscapes := by
  constructor
  · intro h
    unfold Token.unescape? at h
    split at h <;> cases h <;> decide
  · intro h
    simp only [shortEscapes, List.mem_cons, Prod.mk.injEq, List.not_mem_nil, or_false] at h
    obtain ⟨rfl, rfl⟩ | ⟨rfl, rfl⟩ | ⟨rfl, rfl⟩ | ⟨rfl, rfl⟩ | ⟨rfl, rfl⟩ | ⟨rfl, rfl⟩ |
      ⟨rfl, rfl⟩ | ⟨rfl, rfl⟩ := h <;> rfl

end Segment

namespace Token.Scanner

open Segment (hexValue)

variable {ts : List Token} {pieces : List Piece} {cs : List Char}

/-- All digits of an escape are read before their code unit is added. -/
theorem foldlM_hex {ds : List Char} {values : List Nat} (hds : ds ≠ [])
    (h : ds.mapM Hex.value? = some values) (unit : Nat) :
    ds.foldlM step ⟨ts, .hex pieces ds.length unit⟩ =
      some ⟨ts, .quoted (Piece.addUnit (values.foldl (fun n v => n * 16 + v) unit) pieces)⟩ := by
  induction ds generalizing values unit with
  | nil => exact absurd rfl hds
  | cons d ds ih =>
      rw [List.mapM_cons] at h
      obtain ⟨v, hv, h⟩ := Option.bind_eq_some_iff.mp h
      obtain ⟨vs, hvs, h⟩ := Option.bind_eq_some_iff.mp h
      cases h
      rw [List.foldlM_cons, step_hex _ _ _ _ hv, List.length_cons]
      cases ds with
      | nil =>
          cases hvs
          rfl
      | cons d' ds =>
          rw [if_neg (by simp)]
          exact ih (List.cons_ne_nil _ _) hvs (unit * 16 + v)

theorem foldlM_segment {segment : Segment} (h : cs ∈ segment.spellings) :
    cs.foldlM step ⟨ts, .quoted pieces⟩ = some ⟨ts, .quoted (segment.add pieces)⟩ := by
  cases segment with
  | char c =>
      obtain ⟨rfl, hquote, hslash, hc⟩ | ⟨letter, hl, rfl⟩ := h
      · rw [List.foldlM_cons]
        simp only [step, if_neg hquote, if_neg hslash, if_neg (Nat.not_lt.mpr hc)]
        rfl
      · have hu : letter ≠ 'u' := by
          rintro rfl
          cases Segment.unescape?_eq_some.mpr hl
        change [letter].foldlM step ⟨ts, .escape pieces⟩ = _
        rw [List.foldlM_cons]
        simp only [step, if_neg hu, Segment.unescape?_eq_some.mpr hl]
        rfl
  | unit u =>
      obtain ⟨ds, values, rfl, hlength, hvalues, hu⟩ := h
      have hne : ds ≠ [] := by
        rintro rfl
        cases hlength
      change ds.foldlM step ⟨ts, .hex pieces 4 0⟩ = _
      rw [← hlength, foldlM_hex hne hvalues]
      exact congrArg (fun n => some (Scanner.mk ts (.quoted (Piece.addUnit n pieces)))) hu

theorem foldlM_segments {segments : List Segment}
    (h : cs ∈ (segments.map Segment.spellings).prod) :
    cs.foldlM step ⟨ts, .quoted pieces⟩ =
      some ⟨ts, .quoted (segments.foldl Segment.add pieces)⟩ := by
  induction segments generalizing pieces cs with
  | nil =>
      cases h
      rfl
  | cons segment segments ih =>
      obtain ⟨front, hf, rest, hr, rfl⟩ := Language.mem_mul.mp h
      rw [List.foldlM_append, foldlM_segment hf]
      exact ih hr

end Token.Scanner

/-! ## What segments denote -/

namespace Segment

open Piece (isHigh isLow)

variable {u v : UInt16} {c : Char} {segments : List Segment} {text : List Char}

theorem isHigh_iff {n : Nat} : isHigh n ↔ 0xD800 ≤ n ∧ n < 0xDC00 := by
  rw [isHigh, Bool.and_eq_true, decide_eq_true_eq, decide_eq_true_eq]

theorem isLow_iff {n : Nat} : isLow n ↔ 0xDC00 ≤ n ∧ n < 0xE000 := by
  rw [isLow, Bool.and_eq_true, decide_eq_true_eq, decide_eq_true_eq]

theorem toNat_ofNat {n : Nat} (h : n.isValidChar) : (Char.ofNat n).toNat = n := by
  rw [Char.toNat, Char.ofNat, dif_pos h]
  rfl

theorem eq_ofNat_of_toNat {n : Nat} (h : c.toNat = n) : c = Char.ofNat n := by
  rw [← h, Char.ofNat_toNat]

/-- No character is half of a pair. -/
theorem not_half (h : c.toNat = u.toNat) : ¬ isHigh u.toNat ∧ ¬ isLow u.toNat := by
  rw [isHigh_iff, isLow_iff, ← h]
  have hc : c.toNat < 0xD800 ∨ 0xDFFF < c.toNat ∧ c.toNat < 0x110000 := c.valid
  omega

theorem denotes_nil : Denotes [] text ↔ text = [] := by
  constructor
  · rintro ⟨⟩
    rfl
  · rintro rfl
    exact .nil

theorem denotes_char :
    Denotes (.char c :: segments) text ↔ ∃ rest, Denotes segments rest ∧ text = c :: rest := by
  constructor
  · rintro (_ | rest)
    exact ⟨_, rest, rfl⟩
  · rintro ⟨rest, h, rfl⟩
    exact .char h

/-- A code unit that is no half of a pair is a character. -/
theorem denotes_unit (hu : ¬ isHigh u.toNat ∧ ¬ isLow u.toNat) :
    Denotes (.unit u :: segments) text ↔
      ∃ rest, Denotes segments rest ∧ text = Char.ofNat u.toNat :: rest := by
  constructor
  · rintro (_ | _ | ⟨code, rest⟩ | ⟨first, -, -, -⟩)
    · exact ⟨_, rest, congrArg (· :: _) (eq_ofNat_of_toNat code)⟩
    · exact absurd (isHigh_iff.mpr first) hu.1
  · rintro ⟨rest, h, rfl⟩
    refine .unit (toNat_ofNat ?_) h
    rw [isHigh_iff, isLow_iff] at hu
    have := u.toNat_lt
    simp only [Nat.isValidChar]
    omega

theorem not_denotes_low (hu : isLow u.toNat) : ¬ Denotes (.unit u :: segments) text := by
  rintro (_ | _ | ⟨code, -⟩ | ⟨first, -, -, -⟩)
  · exact (not_half code).2 hu
  · have := isLow_iff.mp hu
    omega

/-- A first half needs a second one. -/
theorem not_denotes_high (hu : isHigh u.toNat)
    (h : ∀ v rest, segments = .unit v :: rest → ¬ isLow v.toNat) :
    ¬ Denotes (.unit u :: segments) text := by
  rintro (_ | _ | ⟨code, -⟩ | ⟨-, second, -, -⟩)
  · exact (not_half code).1 hu
  · exact h _ _ rfl (isLow_iff.mpr second)

theorem denotes_pair (hu : isHigh u.toNat) (hv : isLow v.toNat) :
    Denotes (.unit u :: .unit v :: segments) text ↔
      ∃ rest, Denotes segments rest ∧ text = Piece.join u.toNat v.toNat :: rest := by
  constructor
  · rintro (_ | _ | ⟨code, -⟩ | ⟨-, -, code, rest⟩)
    · exact absurd hu (not_half code).1
    · exact ⟨_, rest, congrArg (· :: _) (eq_ofNat_of_toNat code)⟩
  · rintro ⟨rest, h, rfl⟩
    have hu := isHigh_iff.mp hu
    have hv := isLow_iff.mp hv
    refine .pair hu hv (toNat_ofNat ?_) h
    simp only [Nat.isValidChar]
    omega

end Segment

/-! ## The text of a literal -/

namespace Piece

variable {pieces : List Piece} {u v : UInt16} {segments : List Segment} {text : List Char}

/-- The characters of pieces, latest first, if they are all characters. -/
def chars? (pieces : List Piece) : Option (List Char) := pieces.reverse.mapM char?

theorem content_eq_some {text : String} :
    content pieces = some text ↔ chars? pieces = some text.toList := by
  rw [content, ← chars?, Option.map_eq_some_iff]
  constructor
  · rintro ⟨cs, h, rfl⟩
    rw [h, String.toList_ofList]
  · intro h
    exact ⟨_, h, String.ofList_toList⟩

theorem chars?_cons (p : Piece) :
    chars? (p :: pieces) = (chars? pieces).bind fun front => p.char?.map fun c => front ++ [c] := by
  rw [chars?, List.reverse_cons, List.mapM_append, chars?]
  cases pieces.reverse.mapM char? with
  | none => rfl
  | some front => cases p <;> rfl

theorem chars?_char {c : Char} :
    chars? (.char c :: pieces) = some text ↔ ∃ front, chars? pieces = some front ∧
      text = front ++ [c] := by
  rw [chars?_cons, Option.bind_eq_some_iff]
  simp only [char?, Option.map_some, Option.some.injEq, eq_comm (a := text)]

theorem chars?_half (n : Nat) : chars? (.half n :: pieces) = none := by
  rw [chars?_cons]
  cases chars? pieces <;> rfl

/-- A first half that may still become part of a pair. -/
def IsOpen (pieces : List Piece) : Prop := ∃ n rest, pieces = .half n :: rest ∧ isHigh n

theorem not_isOpen_char (c : Char) : ¬ IsOpen (.char c :: pieces) := by
  rintro ⟨_, _, h, -⟩
  cases h

theorem isHigh_of_isOpen {n : Nat} (h : IsOpen (.half n :: pieces)) : isHigh n := by
  obtain ⟨_, _, h, hn⟩ := h
  cases h
  exact hn

theorem not_isHigh_of_isLow {n : Nat} (h : isLow n) : ¬ isHigh n := by
  rw [Segment.isHigh_iff]
  rw [Segment.isLow_iff] at h
  omega

/-- Only a second half joins what is open. -/
theorem addUnit_alone {n : Nat} (h : isLow n → ¬ IsOpen pieces) :
    addUnit n pieces = addUnit.single n :: pieces := by
  cases pieces with
  | nil => rfl
  | cons p rest =>
      cases p with
      | half high =>
          have hpair : ¬ (isHigh high && isLow n) := fun hp =>
            have ⟨hh, hl⟩ := Bool.and_eq_true_iff.mp hp
            h hl ⟨high, rest, rfl, hh⟩
          exact if_neg hpair
      | char | stray => rfl

theorem addUnit_of_isHigh {n : Nat} (hn : isHigh n) : addUnit n pieces = .half n :: pieces := by
  rw [addUnit_alone fun hl => absurd hn (not_isHigh_of_isLow hl), addUnit.single, hn, Bool.true_or,
    if_pos rfl]

theorem addUnit_of_not_half {n : Nat} (hn : ¬ isHigh n ∧ ¬ isLow n) :
    addUnit n pieces = .char (Char.ofNat n) :: pieces := by
  rw [addUnit_alone fun hl => absurd hl hn.2, addUnit.single, if_neg]
  rw [Bool.or_eq_true]
  exact fun h => h.elim hn.1 hn.2

theorem addUnit_pair {high low : Nat} (hh : isHigh high) (hl : isLow low) :
    addUnit low (.half high :: pieces) = .char (join high low) :: pieces := by
  rw [addUnit, hh, hl, Bool.true_and, if_pos rfl]

theorem addUnit_low {n : Nat} (hn : isLow n) (h : ¬ IsOpen pieces) :
    addUnit n pieces = .half n :: pieces := by
  rw [addUnit_alone fun _ => h, addUnit.single, hn, Bool.or_true, if_pos rfl]

theorem half_cases (n : Nat) : isHigh n ∨ isLow n ∨ ¬ isHigh n ∧ ¬ isLow n := by
  by_cases hh : isHigh n
  · exact .inl hh
  · by_cases hl : isLow n
    · exact .inr (.inl hl)
    · exact .inr (.inr ⟨hh, hl⟩)

/-- The text of the pieces and of segments behind them. -/
def Adds (pieces : List Piece) (segments : List Segment) (text : List Char) : Prop :=
  ∃ front rest, chars? pieces = some front ∧ Segment.Denotes segments rest ∧ text = front ++ rest

theorem adds_nil : Adds pieces [] text ↔ chars? pieces = some text := by
  simp only [Adds, Segment.denotes_nil]
  constructor
  · rintro ⟨front, _, h, rfl, rfl⟩
    rwa [List.append_nil]
  · intro h
    exact ⟨text, [], h, rfl, (List.append_nil text).symm⟩

theorem not_adds_half (n : Nat) : ¬ Adds (.half n :: pieces) segments text := by
  rintro ⟨front, -, h, -⟩
  rw [chars?_half] at h
  cases h

theorem not_adds_char_half {n : Nat} {c : Char} :
    ¬ Adds (.char c :: .half n :: pieces) segments text := by
  rintro ⟨front, -, h, -⟩
  obtain ⟨_, h, -⟩ := chars?_char.mp h
  rw [chars?_half] at h
  cases h

/-- A character that comes next in the text belongs as well to the pieces. -/
theorem adds_step {segments segments' : List Segment} {c : Char}
    (h : ∀ text, Segment.Denotes segments' text ↔
      ∃ rest, Segment.Denotes segments rest ∧ text = c :: rest) :
    Adds (.char c :: pieces) segments text ↔ Adds pieces segments' text := by
  simp only [Adds, h, chars?_char]
  constructor
  · rintro ⟨_, rest, ⟨front, hf, rfl⟩, hr, rfl⟩
    exact ⟨front, _, hf, ⟨rest, hr, rfl⟩, by rw [List.append_assoc, List.singleton_append]⟩
  · rintro ⟨front, _, hf, ⟨rest, hr, rfl⟩, rfl⟩
    exact ⟨_, rest, ⟨front, hf, rfl⟩, hr, by rw [List.append_assoc, List.singleton_append]⟩

/-- The text after more segments is the one that they denote. An open first half belongs to the
segments, as only they decide what it stands for. -/
theorem chars?_foldl (segments : List Segment) :
    (∀ pieces text, ¬ IsOpen pieces →
      (chars? (segments.foldl Segment.add pieces) = some text ↔ Adds pieces segments text)) ∧
    ∀ pieces (u : UInt16) text, isHigh u.toNat →
      (chars? (segments.foldl Segment.add (.half u.toNat :: pieces)) = some text ↔
        Adds pieces (.unit u :: segments) text) := by
  have lost {u : UInt16} {pieces : List Piece} {segments : List Segment} {text : List Char}
      (hu : isHigh u.toNat) (h : ∀ v rest, segments = .unit v :: rest → ¬ isLow v.toNat) :
      ¬ Adds pieces (.unit u :: segments) text := by
    rintro ⟨_, _, -, h', -⟩
    exact Segment.not_denotes_high hu h h'
  induction segments with
  | nil =>
      refine ⟨fun pieces text _ => adds_nil.symm, fun pieces u text hu => ?_⟩
      rw [List.foldl_nil, chars?_half]
      exact iff_of_false nofun (lost hu nofun)
  | cons segment segments ih =>
      obtain ⟨closed, opened⟩ := ih
      refine ⟨fun pieces text hp => ?_, fun pieces u text hu => ?_⟩
      · cases segment with
        | char c =>
            rw [List.foldl_cons, Segment.add, closed _ _ (not_isOpen_char c)]
            exact adds_step fun _ => Segment.denotes_char
        | unit v =>
            rw [List.foldl_cons, Segment.add]
            obtain hv | hv | hv := half_cases v.toNat
            · rw [addUnit_of_isHigh hv, opened _ _ _ hv]
            · have hclosed : ¬ IsOpen (.half v.toNat :: pieces) := fun h =>
                not_isHigh_of_isLow hv (isHigh_of_isOpen h)
              rw [addUnit_low hv hp, closed _ _ hclosed]
              refine iff_of_false (not_adds_half _) ?_
              rintro ⟨_, _, -, h, -⟩
              exact Segment.not_denotes_low hv h
            · rw [addUnit_of_not_half hv, closed _ _ (not_isOpen_char _)]
              exact adds_step fun _ => Segment.denotes_unit hv
      · cases segment with
        | char c =>
            rw [List.foldl_cons, Segment.add, closed _ _ (not_isOpen_char c)]
            exact iff_of_false not_adds_char_half (lost hu nofun)
        | unit v =>
            rw [List.foldl_cons, Segment.add]
            obtain hv | hv | hv := half_cases v.toNat
            · rw [addUnit_of_isHigh hv, opened _ _ _ hv]
              refine iff_of_false (not_adds_half _) (lost hu ?_)
              rintro _ _ ⟨⟩ hl
              exact not_isHigh_of_isLow hl hv
            · rw [addUnit_pair hu hv, closed _ _ (not_isOpen_char _)]
              exact adds_step fun _ => Segment.denotes_pair hu hv
            · rw [addUnit_of_not_half hv, closed _ _ (not_isOpen_char _)]
              refine iff_of_false not_adds_char_half (lost hu ?_)
              rintro _ _ ⟨⟩ hl
              exact hv.2 hl

/-- Segments read one after the other leave the text that they denote. -/
theorem content_foldl {text : String} :
    content (segments.foldl Segment.add []) = some text ↔
      Segment.Denotes segments text.toList := by
  rw [content_eq_some, (chars?_foldl segments).1 [] _ (by rintro ⟨_, _, ⟨⟩, -⟩), Adds]
  constructor
  · rintro ⟨_, rest, ⟨⟩, h, rfl⟩
    exact h
  · intro h
    exact ⟨[], _, rfl, h, rfl⟩

end Piece

/-! ## Literals -/

/-- There is one content for the segments of a literal. -/
theorem content_eq {content : Option String} {segments : List Segment}
    (h : ∀ text, content = some text ↔ Segment.Denotes segments text.toList) :
    Piece.content (segments.foldl Segment.add []) = content :=
  Option.ext fun _ => Piece.content_foldl.trans (h _).symm

namespace Token.Scanner

variable {s : Scanner} {ts : List Token} {content : Option String} {cs : List Char}

theorem foldlM_text (hf : s.finish? = some ts) (h : cs ∈ (text content).spellings) :
    cs.foldlM step s = some ⟨text content :: ts, .between⟩ := by
  obtain ⟨_, hbody, rfl⟩ := mem_singleton_mul.mp h
  obtain ⟨body, ⟨segments, hsegments, hcontent⟩, _, rfl, rfl⟩ := Language.mem_mul.mp hbody
  have hquote : s.step '"' = some ⟨ts, .quoted []⟩ := step_delimiter hf rfl
  rw [List.singleton_append, List.foldlM_cons, hquote]
  change (body ++ ['"']).foldlM step ⟨ts, .quoted []⟩ = _
  rw [List.foldlM_append, foldlM_segments hsegments, ← content_eq hcontent]
  rfl

end Token.Scanner
end TableStore.Json
