import Mathlib.Tactic.SplitIfs
import TableStore.Toml.Text

/-!
A text that is written as a TOML string is read back, whichever style is chosen for it. The
writer and the readers agree on how a text may be spelled between the marks of a style.
-/

namespace TableStore.Toml.Text

/-! ## Spellings -/

/-- What may stand behind a backslash for a character, whatever follows. It is no escaped
line break. -/
def Escapes (code : List Char) (c : Char) : Prop :=
  ∀ rest, escape? (code ++ rest) = some (c, code.length) ∧ continuation? (code ++ rest) = none

namespace Style

def mark : Style → Char
  | basic | basicLines => '"'
  | literal | literalLines => '\''

/-- Whether a backslash escapes what follows. -/
def escapes : Style → Bool
  | basic | basicLines => true
  | literal | literalLines => false

/-- Whether the marks are tripled, so that line feeds may stand between them. -/
def tripled : Style → Bool
  | basic | literal => false
  | basicLines | literalLines => true

/-- How many marks in a row may belong to the text. -/
def marks (style : Style) : Nat := if style.tripled then 2 else 0

/-- How a text is written between the marks of a style, where `run` marks in a row stand in
front that belong to the text. -/
inductive Spells (style : Style) : (run : Nat) → (written text : List Char) → Prop
  | nil {run : Nat} : Spells style run [] []
  | mark {run : Nat} {written text : List Char} : run < style.marks →
      Spells style (run + 1) written text →
      Spells style run (style.mark :: written) (style.mark :: text)
  | plain {run : Nat} {c : Char} {written text : List Char} : c ≠ style.mark →
      (c = '\\' → style.escapes = false) →
      (isTextChar c = true ∨ style.tripled = true ∧ c = '\n') →
      Spells style 0 written text → Spells style run (c :: written) (c :: text)
  | escaped {run : Nat} {code : List Char} {c : Char} {written text : List Char} :
      style.escapes = true → Escapes code c → Spells style 0 written text →
      Spells style run ('\\' :: (code ++ written)) (c :: text)

theorem mark_ne (style : Style) : style.mark ≠ '\\' := by cases style <;> decide

theorem marks_le (style : Style) : style.marks ≤ 2 := by cases style <;> decide

theorem mark_eq_or (style : Style) : style.mark = '"' ∨ style.mark = '\'' := by
  cases style <;> decide

end Style

/-! ## Reading -/

theorem dropBreak?_eq_none {c : Char} (hn : c ≠ '\n') (hr : c ≠ '\r') (rest : List Char) :
    dropBreak? (c :: rest) = none := by
  unfold dropBreak?
  split
  · next h => exact absurd (List.cons.inj h).1 hn
  · next h => exact absurd (List.cons.inj h).1 hr
  · rfl

theorem basic?_skip (front rest : List Char) :
    basic? front.length (front ++ rest) = basic? 0 rest := by
  induction front with
  | nil => rfl
  | cons c front ih => exact ih

theorem lines?_skip (mark : Char) (escapes : Bool) (front rest : List Char) :
    lines? mark escapes front.length (front ++ rest) = lines? mark escapes 0 rest := by
  induction front with
  | nil => rfl
  | cons c front ih => exact ih

theorem basic?_plain {c : Char} (hquote : c ≠ '"') (hslash : c ≠ '\\') (hc : isTextChar c = true)
    (rest : List Char) :
    basic? 0 (c :: rest) = (basic? 0 rest).map fun r => (c :: r.1, r.2) := by
  rw [basic?, if_pos hc]
  · exact hquote
  · exact hslash

theorem literal?_plain {c : Char} (hmark : c ≠ '\'') (hc : isTextChar c = true)
    (rest : List Char) :
    literal? (c :: rest) = (literal? rest).map fun r => (c :: r.1, r.2) := by
  rw [literal?, if_pos hc]
  exact hmark

theorem lines?_plain {mark c : Char} {escapes : Bool} (hmark : c ≠ mark)
    (hslash : c = '\\' → escapes = false) (hc : isTextChar c = true ∨ c = '\n')
    (rest : List Char) :
    lines? mark escapes 0 (c :: rest) =
      (lines? mark escapes 0 rest).map fun r => (c :: r.1, r.2) := by
  have hescapes : ¬(c = '\\' ∧ escapes = true) := fun h => by simp [hslash h.1] at h
  rw [lines?, if_neg hmark, if_neg hescapes]
  split
  · next hn => rw [hn]
  · next hn =>
      have hc' := hc.resolve_right hn
      have hr : c ≠ '\r' := by
        rintro rfl
        cases hc'
      rw [if_neg (fun h => hr h.1), if_pos hc']

theorem exists_eq_cons_cons {c d : Char} {cs : List Char} (h : cs.take 2 = [c, d]) :
    ∃ rest, cs = c :: d :: rest := by
  have hsplit := List.take_append_drop 2 cs
  rw [h] at hsplit
  exact ⟨_, hsplit.symm⟩

theorem closing?_replicate {mark : Char} {rest : List Char} (h : rest.head? ≠ some mark)
    {marks : Nat} (hmarks : marks ≤ 2) :
    closing? mark (List.replicate (marks + 3) mark ++ rest) =
      some (List.replicate marks mark, rest) := by
  have hrest : rest.takeWhile (· == mark) = [] := by
    cases rest with
    | nil => rfl
    | cons c rest => exact List.takeWhile_cons_of_neg fun hc => h (congrArg some (beq_iff_eq.mp hc))
  have hall : (List.replicate (marks + 3) mark ++ rest).takeWhile (· == mark) =
      List.replicate (marks + 3) mark := by
    rw [List.takeWhile_append_of_pos, hrest, List.append_nil]
    exact fun c hc => beq_iff_eq.mpr (List.eq_of_mem_replicate hc)
  simp only [closing?, hall, List.length_replicate]
  rw [if_pos (by omega), Nat.add_sub_cancel, List.drop_left' List.length_replicate]

namespace Style.Spells

variable {style : Style} {run : Nat} {written text rest : List Char}

theorem basic?_append (h : basic.Spells run written text) (rest : List Char) :
    basic? 0 (written ++ '"' :: rest) = some (text, rest) := by
  induction h with
  | nil => rfl
  | mark hrun => exact absurd hrun (Nat.not_lt_zero _)
  | plain hmark hslash hc _ ih =>
      have hc' := hc.resolve_right nofun
      rw [List.cons_append, basic?_plain hmark (nomatch hslash ·) hc', ih]
      rfl
  | escaped _ hcode _ ih =>
      rw [List.cons_append, List.append_assoc, basic?, (hcode _).1]
      simp only [Option.bind_eq_bind, Option.bind_some, basic?_skip, ih]
      rfl

theorem literal?_append (h : literal.Spells run written text) (rest : List Char) :
    literal? (written ++ '\'' :: rest) = some (text, rest) := by
  induction h with
  | nil => rfl
  | mark hrun => exact absurd hrun (Nat.not_lt_zero _)
  | plain hmark _ hc _ ih =>
      rw [List.cons_append, literal?_plain hmark (hc.resolve_right nofun), ih]
      rfl
  | escaped hescapes => cases hescapes

/-- Where a mark comes next, the text is at its end, or the mark belongs to it. -/
theorem cases_of_eq_cons {cs : List Char} (h : style.Spells run written text)
    (heq : written ++ rest = style.mark :: cs) :
    written = [] ∧ text = [] ∨
      ∃ written' text', run < style.marks ∧ style.Spells (run + 1) written' text' ∧
        written = style.mark :: written' ∧ text = style.mark :: text' ∧ written' ++ rest = cs := by
  cases h with
  | nil => exact .inl ⟨rfl, rfl⟩
  | mark hrun h => exact .inr ⟨_, _, hrun, h, rfl, rfl, (List.cons.inj heq).2⟩
  | plain hmark => exact absurd (List.cons.inj heq).1 hmark
  | escaped => exact absurd (List.cons.inj heq).1.symm style.mark_ne

/-- Two marks in a row behind one of the text are there only if nothing but marks is left of it. -/
theorem eq_replicate {cs : List Char} (h : style.Spells (run + 1) written text)
    (heq : written ++ rest = style.mark :: style.mark :: cs) :
    ∃ marks, marks < 2 ∧ written = List.replicate marks style.mark ∧
      text = List.replicate marks style.mark := by
  obtain ⟨rfl, rfl⟩ | ⟨_, _, -, h', rfl, rfl, heq'⟩ := h.cases_of_eq_cons heq
  · exact ⟨0, Nat.two_pos, rfl, rfl⟩
  · obtain ⟨rfl, rfl⟩ | ⟨_, _, hrun, -⟩ := h'.cases_of_eq_cons heq'
    · exact ⟨1, Nat.one_lt_two, rfl, rfl⟩
    · have hle := style.marks_le
      omega

theorem lines?_append (h : style.Spells run written text) (hrest : rest.head? ≠ some style.mark) :
    lines? style.mark style.escapes 0
      (written ++ style.mark :: style.mark :: style.mark :: rest) = some (text, rest) := by
  induction h with
  | nil =>
      rw [List.nil_append, lines?, if_pos rfl]
      exact (if_pos rfl).trans (closing?_replicate hrest (Nat.zero_le 2))
  | @mark run written text _ h ih =>
      rw [List.cons_append, lines?, if_pos rfl]
      split
      · next hmarks =>
          obtain ⟨cs, heq⟩ := exists_eq_cons_cons hmarks
          obtain ⟨marks, hlt, rfl, rfl⟩ := h.eq_replicate heq
          have hsplit : style.mark :: (List.replicate marks style.mark ++
              style.mark :: style.mark :: style.mark :: rest) =
              List.replicate (marks + 1 + 3) style.mark ++ rest := by
            rw [← List.replicate_append_replicate, List.append_assoc]
            rfl
          rw [hsplit]
          exact closing?_replicate hrest hlt
      · rw [ih]
        rfl
  | plain hmark hslash hc _ ih =>
      rw [List.cons_append, lines?_plain hmark hslash (hc.imp_right And.right), ih]
      rfl
  | escaped hescapes hcode _ ih =>
      rw [List.cons_append, List.append_assoc, lines?, if_neg style.mark_ne.symm,
        if_pos ⟨rfl, hescapes⟩, (hcode _).1, (hcode _).2]
      simp only [lines?_skip, ih]
      rfl

/-- Between tripled marks a text does not begin with a line break, unless it has a line feed. -/
theorem dropFirstBreak_append (h : style.Spells run written text) (htext : '\n' ∉ text)
    (rest : List Char) :
    dropFirstBreak (written ++ style.mark :: rest) = written ++ style.mark :: rest := by
  suffices hnone : dropBreak? (written ++ style.mark :: rest) = none by
    rw [dropFirstBreak, hnone, Option.getD_none]
  cases h with
  | nil | mark => cases style <;> rfl
  | escaped => rfl
  | plain _ _ hc =>
      rw [List.mem_cons, not_or] at htext
      refine dropBreak?_eq_none (Ne.symm htext.1) ?_ _
      rintro rfl
      exact hc.elim nofun (fun h => absurd h.2 (by decide))

end Style.Spells

/-! ## Writing -/

theorem value?_upper : ∀ n < 16, Hex.value? (Hex.upper n) = some n := by decide

/-- The escape of a character by its code point. -/
theorem escapes_codePoint {c : Char} (hc : c.toNat < 0x100) :
    Escapes ['u', '0', '0', Hex.upper (c.toNat / 16), Hex.upper (c.toNat % 16)] c := by
  intro rest
  have h0 : Hex.value? '0' = some 0 := rfl
  have h1 := value?_upper (c.toNat / 16) (by omega)
  have h2 := value?_upper (c.toNat % 16) (by omega)
  have hvalue : hexValue? ['0', '0', Hex.upper (c.toNat / 16), Hex.upper (c.toNat % 16)] =
      some c.toNat := by
    simp only [hexValue?, List.foldlM_cons, List.foldlM_nil, h0, h1, h2, Option.map_some,
      Option.bind_eq_bind, Option.bind_some]
    exact congrArg some (by omega)
  have hpoint : codePoint? 4 ('0' :: '0' :: Hex.upper (c.toNat / 16) ::
      Hex.upper (c.toNat % 16) :: rest) = some c := by
    change (hexValue? ['0', '0', _, _]).bind _ = _
    rw [hvalue, Option.bind_some, if_pos ⟨by simp, c.valid⟩, Char.ofNat_toNat]
  refine ⟨?_, rfl⟩
  rw [List.cons_append, escape?]
  simp only [List.cons_append, List.nil_append, hpoint]
  rfl

/-- A character that is no quotation mark is written as it is, or by an escape. -/
theorem escape_plain_or_escaped {c : Char} (hquote : c ≠ '"') (broken : Bool) :
    (escape broken c = [c] ∧ c ≠ '\\' ∧ (isTextChar c = true ∨ broken = true ∧ c = '\n')) ∨
      ∃ code, escape broken c = '\\' :: code ∧ Escapes code c := by
  simp only [escape]
  split
  case h_3 =>
    cases broken with
    | true => exact .inl ⟨rfl, by decide, .inr ⟨rfl, rfl⟩⟩
    | false => exact .inr ⟨['n'], rfl, fun _ => ⟨rfl, rfl⟩⟩
  case h_7 hslash =>
    split
    · next hc => exact .inr ⟨_, rfl, escapes_codePoint (by omega)⟩
    · next hc =>
        rw [not_or, Nat.not_lt] at hc
        exact .inl ⟨rfl, hslash, .inl (by simp [isTextChar, hc])⟩
  all_goals exact .inr ⟨_, rfl, fun _ => ⟨rfl, rfl⟩⟩

namespace Style

/-- In quotation marks every text is written so that it can be read. -/
theorem spells_escapeAll {style : Style} (h : style.escapes = true) (run : Nat) (cs : List Char) :
    style.Spells run (escapeAll style.tripled run cs) cs := by
  have hmark : style.mark = '"' := by cases style <;> first | rfl | cases h
  induction cs generalizing run with
  | nil => exact .nil
  | cons c cs ih =>
      rw [escapeAll]
      split
      · next hc =>
          rw [hc]
          split
          · next hrun =>
              rw [← hmark]
              exact .mark (by rw [marks, if_pos hrun.1]; exact hrun.2) (ih (run + 1))
          · have hcode : Escapes ['"'] '"' := fun _ => ⟨rfl, rfl⟩
            exact .escaped h hcode (ih 0)
      · next hc =>
          obtain ⟨heq, hslash, hplain⟩ | ⟨code, heq, hcode⟩ :=
            escape_plain_or_escaped hc style.tripled
          · rw [heq]
            exact .plain (hmark ▸ hc) (absurd · hslash) hplain (ih 0)
          · rw [heq]
            exact .escaped h hcode (ih 0)

theorem le_longestRun (mark : Char) (longest run : Nat) (cs : List Char) :
    longest ≤ longestRun mark longest run cs := by
  induction cs generalizing longest run with
  | nil => exact Nat.le_refl _
  | cons c cs ih =>
      rw [longestRun]
      split
      · exact Nat.le_trans (Nat.le_max_left ..) (ih _ _)
      · exact ih _ _

/-- In apostrophes a text is written as it is, if it has neither control characters nor too many
apostrophes in a row. -/
theorem spells_self {style : Style} (h : style.escapes = false) {cs : List Char}
    (hplain : ∀ c ∈ cs, isTextChar c = true ∨ style.tripled = true ∧ c = '\n')
    {longest run : Nat} (hmarks : longestRun style.mark longest run cs ≤ style.marks) :
    style.Spells run cs cs := by
  induction cs generalizing longest run with
  | nil => exact .nil
  | cons c cs ih =>
      rw [List.forall_mem_cons] at hplain
      rw [longestRun] at hmarks
      split at hmarks
      · next hc =>
          have hrun : run + 1 ≤ style.marks :=
            Nat.le_trans (Nat.le_max_right ..) (Nat.le_trans (le_longestRun ..) hmarks)
          rw [hc]
          exact .mark hrun (ih hplain.2 hmarks)
      · next hc => exact .plain hc (fun _ => h) hplain.1 (ih hplain.2 hmarks)

/-- What a style writes between its marks. -/
def body (style : Style) (cs : List Char) : List Char :=
  if style.escapes then escapeAll style.tripled 0 cs else cs

end Style

theorem isTextChar_or_of_plain {cs : List Char} (h : !cs.any needsEscape) :
    ∀ c ∈ cs, isTextChar c = true ∨ c = '\n' := by
  intro c hc
  rw [Bool.not_eq_true', List.any_eq_false] at h
  have hneeds := h c hc
  rw [needsEscape] at hneeds
  grind

/-- The style that is chosen for a text can spell it. -/
theorem spells_style (cs : List Char) : (style cs).Spells 0 ((style cs).body cs) cs := by
  unfold style
  extract_lets quotes apostrophes plain backslash broken
  split_ifs with h1 h2 h3 h4
  · exact Style.spells_escapeAll rfl 0 cs
  · simp only [Bool.and_eq_true, Bool.not_eq_true', decide_eq_true_eq] at h2
    have hmarks : longestRun '\'' 0 0 cs ≤ 0 := Nat.le_of_eq h2.1.2
    refine Style.spells_self rfl (fun c hc => .inl ?_) hmarks
    refine (isTextChar_or_of_plain h2.1.1 c hc).resolve_right ?_
    rintro rfl
    exact absurd (List.contains_iff_mem.mpr hc) (ne_true_of_eq_false h2.2)
  · exact Style.spells_escapeAll rfl 0 cs
  · simp only [Bool.and_eq_true, decide_eq_true_eq] at h4
    have hmarks : longestRun '\'' 0 0 cs ≤ 2 := h4.2
    refine Style.spells_self rfl (fun c hc => ?_) hmarks
    exact (isTextChar_or_of_plain h4.1 c hc).imp_right fun h => ⟨rfl, h⟩
  · exact Style.spells_escapeAll rfl 0 cs
  · exact Style.spells_escapeAll rfl 0 cs

/-! ## Reading what is written -/

theorem read?_eq_readLine? {mark : Char} {cs : List Char} (h : cs.take 2 ≠ [mark, mark]) :
    read? (mark :: cs) = readLine? (mark :: cs) := by
  unfold read?
  split
  · next heq =>
      cases heq
      exact absurd rfl h
  · next heq =>
      cases heq
      exact absurd rfl h
  · rfl

/-- On one line no two marks stand at the opening one, unless one comes behind the string. -/
theorem Style.Spells.take_ne {style : Style} {run : Nat} {written text rest : List Char}
    (h : style.Spells run written text) (hmarks : style.marks = 0)
    (hrest : rest.head? ≠ some style.mark) :
    (written ++ style.mark :: rest).take 2 ≠ [style.mark, style.mark] := by
  intro htake
  obtain ⟨cs, heq⟩ := exists_eq_cons_cons htake
  obtain ⟨rfl, -⟩ | ⟨_, _, hrun, -⟩ := h.cases_of_eq_cons heq
  · exact hrest (congrArg List.head? (List.cons.inj heq).2)
  · omega

/-- The line break behind opening marks is dropped, and nothing else is. -/
theorem dropFirstBreak_opening {style : Style} {cs written : List Char}
    (h : style.Spells 0 written cs) (rest : List Char) :
    dropFirstBreak (opening cs ++ (written ++ style.mark :: rest)) =
      written ++ style.mark :: rest := by
  rw [opening]
  split
  · rfl
  · next hn => exact h.dropFirstBreak_append (fun hmem => hn (List.contains_iff_mem.mpr hmem)) rest

namespace Style

variable {style : Style}

theorem writeAs_line (h : style.tripled = false) (cs rest : List Char) :
    writeAs cs style ++ rest = style.mark :: (style.body cs ++ style.mark :: rest) := by
  cases style with
  | basic | literal => simp [writeAs, body, mark, escapes, tripled]
  | basicLines | literalLines => cases h

theorem writeAs_tripled (h : style.tripled = true) (cs rest : List Char) :
    writeAs cs style ++ rest = style.mark :: style.mark :: style.mark ::
      (opening cs ++ (style.body cs ++ style.mark :: style.mark :: style.mark :: rest)) := by
  cases style with
  | basic | literal => cases h
  | basicLines | literalLines => simp [writeAs, body, mark, escapes, tripled]

theorem read?_tripled (h : style.tripled = true) (cs : List Char) :
    read? (style.mark :: style.mark :: style.mark :: cs) =
      lines? style.mark style.escapes 0 (dropFirstBreak cs) := by
  cases style with
  | basic | literal => cases h
  | basicLines | literalLines => rfl

theorem Spells.readLine?_append {run : Nat} {written text : List Char}
    (h : style.Spells run written text) (hline : style.tripled = false) (rest : List Char) :
    readLine? (style.mark :: (written ++ style.mark :: rest)) = some (text, rest) := by
  cases style with
  | basic => exact h.basic?_append rest
  | literal => exact h.literal?_append rest
  | basicLines | literalLines => cases hline

theorem read?_writeAs {cs rest : List Char} (h : style.Spells 0 (style.body cs) cs)
    (hrest : rest.head? ≠ some style.mark) : read? (writeAs cs style ++ rest) = some (cs, rest) := by
  cases hstyle : style.tripled with
  | false =>
      have hmarks : style.marks = 0 := by simp [marks, hstyle]
      rw [writeAs_line hstyle, read?_eq_readLine? (h.take_ne hmarks hrest)]
      exact h.readLine?_append hstyle rest
  | true =>
      rw [writeAs_tripled hstyle, read?_tripled hstyle, dropFirstBreak_opening h]
      exact h.lines?_append hrest

end Style

/-- A text is read back from what is written for it, if no mark stands behind. -/
theorem read?_write (s : String) {rest : List Char}
    (hquote : rest.head? ≠ some '"') (hapostrophe : rest.head? ≠ some '\'') :
    read? (write s ++ rest) = some (s.toList, rest) := by
  refine Style.read?_writeAs (spells_style s.toList) ?_
  obtain h | h := (style s.toList).mark_eq_or
  · rwa [h]
  · rwa [h]

theorem write_eq_cons (s : String) : ∃ cs, write s = (style s.toList).mark :: cs := by
  rw [write]
  cases style s.toList <;> exact ⟨_, rfl⟩

end TableStore.Toml.Text
