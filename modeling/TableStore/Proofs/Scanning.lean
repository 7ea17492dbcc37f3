import Mathlib.Data.List.TakeWhile
import TableStore.Json.Printer

/-!
The text of a JSON value is read back as that value, in every layout that adds nothing but
white space. All characters between lexemes are delimiters, so that what has been printed so
far always ends a token wherever another one begins.
-/

namespace TableStore.Json

/-! ## Numbers -/

namespace Number

theorem head_toDigits {n : Nat} (h : (Nat.toDigits 10 n).head? = some '0') : n = 0 := by
  induction n using Nat.strongRecOn with
  | ind n ih =>
      by_cases hn : n < 10
      · rw [Nat.toDigits_of_lt_base hn] at h
        simpa using h
      · rw [Nat.toDigits_of_base_le (by omega) (by omega), List.head?_append] at h
        cases hd : (Nat.toDigits 10 (n / 10)).head? with
        | none => exact absurd (List.head?_eq_none_iff.mp hd) Nat.toDigits_ne_nil
        | some c =>
            rw [hd] at h
            have := ih (n / 10) (by omega) (hd.trans h)
            omega

theorem isDigit_toDigits (n : Nat) : ∀ c ∈ Nat.toDigits 10 n, c.isDigit :=
  fun _ => Nat.isDigit_of_mem_toDigits (by decide) (by decide)

theorem isWhole_toDigits (n : Nat) : isWhole (Nat.toDigits 10 n) := by
  by_cases hn : n = 0
  · subst hn; rfl
  · have hd : isDigits (Nat.toDigits 10 n) := by
      simpa [isDigits] using isDigit_toDigits n
    have hh : (Nat.toDigits 10 n).head? ≠ some '0' := fun h => hn (head_toDigits h)
    simp [isWhole, hd, hh]

theorem ofUnsigned?_toDigits (negative : Bool) (n : Nat) :
    ofUnsigned? negative (Nat.toDigits 10 n) = some (whole negative n) := by
  have ht : (Nat.toDigits 10 n).takeWhile Char.isDigit = Nat.toDigits 10 n :=
    List.takeWhile_eq_self_iff.mpr (isDigit_toDigits n)
  have hd : (Nat.toDigits 10 n).dropWhile Char.isDigit = [] :=
    List.dropWhile_eq_nil_iff.mpr (isDigit_toDigits n)
  rw [ofUnsigned?, ht, hd, if_pos (isWhole_toDigits n)]
  simp only [Nat.ofDigitChars_toDigits (by decide : 1 < 10) (Nat.le_refl 10)]

theorem ofLexeme?_spell (n : Number) : ofLexeme? n.spell = some n := by
  cases n with
  | fractional => rfl
  | whole negative n =>
      cases negative with
      | true => exact ofUnsigned?_toDigits true n
      | false =>
          rw [← ofUnsigned?_toDigits false n, spell]
          simp only [ofLexeme?]
          split
          · next cs h =>
              have hd := isDigit_toDigits n '-' (h ▸ List.mem_cons_self)
              exact absurd hd (by decide)
          · rfl

end Number

namespace Token

/-! ## Lexemes -/

theorem mem_spell (n : Number) : ∀ c ∈ n.spell, c.isDigit ∨ c = '-' ∨ c = '.' := by
  intro c hc
  cases n with
  | fractional =>
      simp only [Number.spell, List.mem_cons, List.not_mem_nil, or_false] at hc
      obtain rfl | rfl | rfl := hc
      · exact .inl rfl
      · exact .inr (.inr rfl)
      · exact .inl rfl
  | whole negative n =>
      cases negative with
      | true =>
          obtain rfl | hc := List.mem_cons.mp hc
          · exact .inr (.inl rfl)
          · exact .inl (Number.isDigit_toDigits n c hc)
      | false => exact .inl (Number.isDigit_toDigits n c hc)

theorem ofLexeme?_spell (n : Number) : ofLexeme? n.spell = some (number n) := by
  have word {cs : List Char} {c : Char} (hc : c ∈ cs) (hd : ¬ (c.isDigit ∨ c = '-' ∨ c = '.')) :
      n.spell ≠ cs := fun h => hd (mem_spell n c (h ▸ hc))
  rw [ofLexeme?, if_neg (word List.mem_cons_self (by decide)),
    if_neg (word List.mem_cons_self (by decide)), if_neg (word List.mem_cons_self (by decide)),
    Number.ofLexeme?_spell, Option.map_some]

theorem isDelimiter_of_isDigit {c : Char} (h : c.isDigit) : isDelimiter c = false := by
  rw [← Bool.not_eq_true]
  intro hd
  simp only [isDelimiter, isSpace, Bool.or_eq_true, beq_iff_eq] at hd
  obtain (rfl | ((rfl | rfl) | rfl) | rfl) | hp := hd
  case inr =>
    simp only [ofPunctuation?] at hp
    split at hp <;> first | exact absurd h (by decide) | cases hp
  all_goals exact absurd h (by decide)

theorem isDelimiter_spell (n : Number) : ∀ c ∈ n.spell, isDelimiter c = false := by
  intro c hc
  obtain h | rfl | rfl := mem_spell n c hc
  · exact isDelimiter_of_isDigit h
  · rfl
  · rfl

theorem spell_ne_nil (n : Number) : n.spell ≠ [] := by
  cases n with
  | fractional => exact List.cons_ne_nil _ _
  | whole negative n =>
      cases negative with
      | true => exact List.cons_ne_nil _ _
      | false => exact Nat.toDigits_ne_nil

namespace Scanner

/-- Reading the characters ends a list of tokens. -/
def Yields (s : Scanner) (cs : List Char) (ts : List Token) : Prop :=
  ∃ s', cs.foldlM step s = some s' ∧ s'.finish? = some ts

theorem Yields.append {s : Scanner} {cs cs' : List Char} {ts ts' : List Token}
    (h : Yields s cs ts) (h' : ∀ s', s'.finish? = some ts → Yields s' cs' ts') :
    Yields s (cs ++ cs') ts' := by
  obtain ⟨s', hs, hf⟩ := h
  obtain ⟨s'', hs', hf'⟩ := h' s' hf
  exact ⟨s'', by rw [List.foldlM_append, hs]; exact hs', hf'⟩

theorem Yields.cons {s s' : Scanner} {c : Char} {cs : List Char} {ts : List Token}
    (hs : s.step c = some s') (h : Yields s' cs ts) : Yields s (c :: cs) ts := by
  obtain ⟨s'', hs', hf⟩ := h
  exact ⟨s'', by rw [List.foldlM_cons, hs]; exact hs', hf⟩

/-- A delimiter ends what comes before it, and a token may begin with it. -/
theorem step_delimiter {s : Scanner} {ts : List Token} {c : Char} (hf : s.finish? = some ts)
    (hc : isDelimiter c) : s.step c = some (begin ts c) := by
  obtain ⟨finished, mode⟩ := s
  cases mode with
  | between => cases hf; rfl
  | bare lexeme => simp only [step, hc, ite_true, hf, Option.map_some]
  | quoted _ | escape _ | hex _ _ _ => cases hf

theorem step_punctuation {s : Scanner} {ts : List Token} {c : Char} {t : Token}
    (hf : s.finish? = some ts) (hc : ofPunctuation? c = some t) :
    s.step c = some ⟨t :: ts, .between⟩ := by
  have hq : c ≠ '"' ∧ isSpace c = false := by
    refine ⟨?_, ?_⟩
    · intro he
      cases he
      cases hc
    · simp only [ofPunctuation?] at hc
      split at hc <;> first | rfl | cases hc
  rw [step_delimiter hf (by simp [isDelimiter, hc]), begin, if_neg hq.1, hq.2, if_neg nofun, hc]

theorem step_space {s : Scanner} {ts : List Token} {c : Char} (hf : s.finish? = some ts)
    (hc : isSpace c) : s.step c = some ⟨ts, .between⟩ := by
  have hq : c ≠ '"' := by
    intro he
    cases he
    exact absurd hc (by decide)
  rw [step_delimiter hf (by simp [isDelimiter, hc]), begin, if_neg hq, if_pos hc]

/-- White space changes nothing where a token may begin. -/
theorem foldlM_spaces (ts : List Token) {cs : List Char} (h : ∀ c ∈ cs, isSpace c) :
    cs.foldlM step ⟨ts, .between⟩ = some ⟨ts, .between⟩ := by
  induction cs with
  | nil => rfl
  | cons c cs ih =>
      rw [List.foldlM_cons, step_space rfl (h c List.mem_cons_self)]
      exact ih fun d hd => h d (List.mem_cons_of_mem _ hd)

theorem yields_spaces {s : Scanner} {ts : List Token} {cs : List Char} (hf : s.finish? = some ts)
    (h : ∀ c ∈ cs, isSpace c) : Yields s cs ts := by
  cases cs with
  | nil => exact ⟨s, rfl, hf⟩
  | cons c cs =>
      refine .cons (step_space hf (h c List.mem_cons_self)) ⟨⟨ts, .between⟩, ?_, rfl⟩
      exact foldlM_spaces ts fun d hd => h d (List.mem_cons_of_mem _ hd)

/-- Characters that end nothing make up a lexeme. -/
theorem foldlM_bare (ts : List Token) {cs : List Char} (h : ∀ c ∈ cs, isDelimiter c = false)
    (lexeme : List Char) :
    cs.foldlM step ⟨ts, .bare lexeme⟩ = some ⟨ts, .bare (cs.reverse ++ lexeme)⟩ := by
  induction cs generalizing lexeme with
  | nil => rfl
  | cons c cs ih =>
      have hc := h c List.mem_cons_self
      have hs : step ⟨ts, .bare lexeme⟩ c = some ⟨ts, .bare (c :: lexeme)⟩ := by simp [step, hc]
      rw [List.foldlM_cons, hs, List.reverse_cons, List.append_assoc]
      exact ih (fun d hd => h d (List.mem_cons_of_mem _ hd)) (c :: lexeme)

theorem yields_lexeme (ts : List Token) {cs : List Char} {t : Token} (hne : cs ≠ [])
    (h : ∀ c ∈ cs, isDelimiter c = false) (ht : ofLexeme? cs = some t) :
    Yields ⟨ts, .between⟩ cs (t :: ts) := by
  cases cs with
  | nil => exact absurd rfl hne
  | cons c cs =>
      have hc := h c List.mem_cons_self
      have hs : step ⟨ts, .between⟩ c = some ⟨ts, .bare [c]⟩ := by
        simp only [isDelimiter, Bool.or_eq_false_iff, beq_eq_false_iff_ne,
          Option.isSome_eq_false_iff, Option.isNone_iff_eq_none] at hc
        simp [step, begin, hc.1.1, hc.1.2, hc.2]
      refine .cons hs ⟨⟨ts, .bare (cs.reverse ++ [c])⟩,
        foldlM_bare ts (fun d hd => h d (List.mem_cons_of_mem _ hd)) [c], ?_⟩
      simp [finish?, ht]

/-! ## String literals -/

theorem value?_lower : ∀ n < 16, Hex.value? (Hex.lower n) = some n := by decide

/-- A code unit that is no half of a pair stands for its character. -/
theorem addUnit_toNat (pieces : List Piece) {c : Char} (hc : c.toNat < 0xD800) :
    Piece.addUnit c.toNat pieces = .char c :: pieces := by
  have hh : Piece.isHigh c.toNat = false := by
    rw [Piece.isHigh, decide_eq_false (by omega), Bool.false_and]
  have hl : Piece.isLow c.toNat = false := by
    rw [Piece.isLow, decide_eq_false (by omega), Bool.false_and]
  have hs : Piece.addUnit.single c.toNat = .char c := by
    simp [Piece.addUnit.single, hh, hl]
  simp only [Piece.addUnit]
  split
  · rw [hl, Bool.and_false, if_neg nofun, hs]
  · rw [hs]

theorem step_hex (ts : List Token) (pieces : List Piece) (missing unit : Nat) {c : Char} {d : Nat}
    (h : Hex.value? c = some d) :
    step ⟨ts, .hex pieces missing unit⟩ c =
      some (if missing ≤ 1 then ⟨ts, .quoted (Piece.addUnit (unit * 16 + d) pieces)⟩
        else ⟨ts, .hex pieces (missing - 1) (unit * 16 + d)⟩) := by
  simp only [step, h, Option.map_some]

/-- A character is read back from the way it is written in a string literal. -/
theorem foldlM_escape (ts : List Token) (pieces : List Piece) (c : Char) :
    (Json.escape c).foldlM step ⟨ts, .quoted pieces⟩ = some ⟨ts, .quoted (.char c :: pieces)⟩ := by
  simp only [Json.escape]
  split
  case h_8 hquote hslash _ _ _ _ _ =>
    split
    · next hc =>
        have h1 := value?_lower (c.toNat / 16) (by omega)
        have h2 := value?_lower (c.toNat % 16) (by omega)
        have hunit : (0 * 16 + c.toNat / 16) * 16 + c.toNat % 16 = c.toNat := by omega
        change [Hex.lower (c.toNat / 16), Hex.lower (c.toNat % 16)].foldlM step
          ⟨ts, .hex pieces 2 0⟩ = _
        rw [List.foldlM_cons, step_hex _ _ _ _ h1, if_neg (by decide)]
        change [Hex.lower (c.toNat % 16)].foldlM step
          ⟨ts, .hex pieces 1 (0 * 16 + c.toNat / 16)⟩ = _
        rw [List.foldlM_cons, step_hex _ _ _ _ h2, if_pos (by decide), hunit, addUnit_toNat _ (by omega)]
        rfl
    · next hc =>
        have hs : step ⟨ts, .quoted pieces⟩ c = some ⟨ts, .quoted (.char c :: pieces)⟩ := by
          simp only [step, if_neg (show ¬ c = '"' from hquote), if_neg (show ¬ c = '\\' from hslash),
            if_neg hc]
        rw [List.foldlM_cons, hs]
        rfl
  all_goals rfl

theorem foldlM_escapes (ts : List Token) (pieces : List Piece) (cs : List Char) :
    (cs.flatMap Json.escape).foldlM step ⟨ts, .quoted pieces⟩ =
      some ⟨ts, .quoted ((cs.map Piece.char).reverse ++ pieces)⟩ := by
  induction cs generalizing pieces with
  | nil => rfl
  | cons c cs ih =>
      rw [List.flatMap_cons, List.foldlM_append, foldlM_escape, List.map_cons, List.reverse_cons,
        List.append_assoc]
      exact ih (.char c :: pieces)

theorem content_chars (cs : List Char) :
    Piece.content (cs.map Piece.char).reverse = some (String.ofList cs) := by
  have hm : (cs.map Piece.char).mapM Piece.char? = some cs := by
    induction cs with
    | nil => rfl
    | cons c cs ih => rw [List.map_cons, List.mapM_cons, ih]; rfl
  rw [Piece.content, List.reverse_reverse, hm, Option.map_some]

theorem yields_quote {s : Scanner} {ts : List Token} (hf : s.finish? = some ts)
    (content : Option String) : Yields s (quote content) (.text content :: ts) := by
  have hq : s.step '"' = some ⟨ts, .quoted []⟩ := step_delimiter hf (by decide)
  cases content with
  | none => exact .cons hq ⟨_, rfl, rfl⟩
  | some text =>
      refine .cons hq ⟨⟨.text (some text) :: ts, .between⟩, ?_, rfl⟩
      change (text.toList.flatMap Json.escape ++ ['"']).foldlM step ⟨ts, .quoted []⟩ = _
      rw [List.foldlM_append, foldlM_escapes, List.append_nil]
      change some (Scanner.mk (.text (Piece.content _) :: ts) .between) = _
      rw [content_chars, String.ofList_toList]

/-! ## Values -/

structure Blank (l : Layout) : Prop where
  lineBreak : ∀ depth, ∀ c ∈ l.lineBreak depth, isSpace c
  afterColon : ∀ c ∈ l.afterColon, isSpace c

theorem blank_pretty : Blank .pretty := by
  refine ⟨fun depth c hc => ?_, List.forall_mem_singleton.mpr rfl⟩
  obtain rfl | hc := List.mem_cons.mp hc
  · rfl
  · rw [(List.mem_replicate.mp hc).2]
    rfl

theorem blank_compact : Blank .compact := ⟨nofun, nofun⟩

theorem yields_after {s : Scanner} {ts ts' : List Token} {c : Char} {t : Token}
    {spaces cs : List Char} (hf : s.finish? = some ts) (hc : ofPunctuation? c = some t)
    (hs : ∀ c ∈ spaces, isSpace c) (h : Yields ⟨t :: ts, .between⟩ cs ts') :
    Yields s (c :: (spaces ++ cs)) ts' := by
  refine .cons (step_punctuation hf hc) ?_
  obtain ⟨s', hs', hf'⟩ := h
  exact ⟨s', by rw [List.foldlM_append, foldlM_spaces _ hs]; exact hs', hf'⟩

theorem yields_closing {s : Scanner} {ts : List Token} {c : Char} {t : Token} {spaces : List Char}
    (hf : s.finish? = some ts) (hs : ∀ c ∈ spaces, isSpace c) (hc : ofPunctuation? c = some t) :
    Yields s (spaces ++ [c]) (t :: ts) :=
  (yields_spaces hf hs).append fun _ hf => .cons (step_punctuation hf hc) ⟨_, rfl, rfl⟩

variable {l : Layout} (hl : Blank l)
include hl

theorem yields_member {s : Scanner} {ts : List Token} {c : Char} {t : Token} {depth : Nat}
    (key : Option String) {j : Json} (hf : s.finish? = some ts) (hc : ofPunctuation? c = some t)
    (hvalue : ∀ ts, Yields ⟨ts, .between⟩ (print l depth j) (j.tokens.reverse ++ ts)) :
    Yields s (c :: (l.lineBreak depth ++ (quote key ++ ':' :: (l.afterColon ++ print l depth j))))
      (j.tokens.reverse ++ .colon :: .text key :: t :: ts) := by
  refine yields_after hf hc (hl.lineBreak _) ((yields_quote rfl key).append fun _ hf => ?_)
  exact yields_after (c := ':') hf rfl hl.afterColon (hvalue _)

mutual

theorem yields_print (ts : List Token) (depth : Nat) : (j : Json) →
    Yields ⟨ts, .between⟩ (print l depth j) (j.tokens.reverse ++ ts)
  | .null => ⟨_, rfl, rfl⟩
  | .boolean true => ⟨_, rfl, rfl⟩
  | .boolean false => ⟨_, rfl, rfl⟩
  | .number n => yields_lexeme ts (spell_ne_nil n) (isDelimiter_spell n) (ofLexeme?_spell n)
  | .text content => yields_quote rfl content
  | .array [] => ⟨_, rfl, rfl⟩
  | .array (j :: rest) => by
      have hitem := yields_print (.openBracket :: ts) (depth + 1) j
      have hitems := (yields_after (c := '[') (s := ⟨ts, .between⟩) rfl rfl (hl.lineBreak (depth + 1))
        hitem).append fun _ hf =>
        yields_items hf (depth + 1) rest
      have h := hitems.append fun _ hf => yields_closing (c := ']') hf (hl.lineBreak depth) rfl
      simpa [print, tokens] using h
  | .object [] => ⟨_, rfl, rfl⟩
  | .object ((key, j) :: rest) => by
      have hmember := yields_member hl key (c := '{') (s := ⟨ts, .between⟩) rfl rfl
        fun ts => yields_print ts (depth + 1) j
      have hmembers := hmember.append fun _ hf => yields_members hf (depth + 1) rest
      have h := hmembers.append fun _ hf => yields_closing (c := '}') hf (hl.lineBreak depth) rfl
      simpa [print, tokens] using h

theorem yields_items {s : Scanner} {ts : List Token} (hf : s.finish? = some ts) (depth : Nat) :
    (items : List Json) → Yields s (printItems l depth items) ((moreItems items).reverse ++ ts)
  | [] => ⟨s, rfl, hf⟩
  | j :: rest => by
      have hitem := yields_print (.comma :: ts) depth j
      have h := (yields_after (c := ',') hf rfl (hl.lineBreak depth) hitem).append fun _ hf =>
        yields_items hf depth rest
      simpa [printItems, moreItems] using h

theorem yields_members {s : Scanner} {ts : List Token} (hf : s.finish? = some ts) (depth : Nat) :
    (members : List (Option String × Json)) →
    Yields s (printMembers l depth members) ((moreMembers members).reverse ++ ts)
  | [] => ⟨s, rfl, hf⟩
  | (key, j) :: rest => by
      have hmember := yields_member hl key (c := ',') hf rfl fun ts =>
        yields_print ts depth j
      have h := hmember.append fun _ hf => yields_members hf depth rest
      simpa [printMembers, moreMembers] using h

end

/-- The tokens of a value are what its text is made of. -/
theorem scan?_print (j : Json) : scan? (Text.characters (String.ofList (print l 0 j))) =
    some j.tokens := by
  obtain ⟨s, hs, hf⟩ := yields_print hl [] 0 j
  rw [scan?, foldlM_read_characters, String.toList_ofList]
  change ((print l 0 j).foldlM step ⟨[], .between⟩ >>= finish?).map List.reverse = _
  rw [hs]
  simp [hf]

end Scanner
end Token

/-- Every value is read back from its text. -/
theorem ofText?_pretty (j : Json) : ofText? j.pretty = some j := by
  rw [ofText?, parse?, pretty, Token.Scanner.scan?_print Token.Scanner.blank_pretty]
  exact ofTokens?_tokens j

theorem ofText?_compact (j : Json) : ofText? j.compact = some j := by
  rw [ofText?, parse?, compact, Token.Scanner.scan?_print Token.Scanner.blank_compact]
  exact ofTokens?_tokens j

end TableStore.Json
