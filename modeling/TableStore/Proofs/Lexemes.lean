import Mathlib.Data.List.TakeWhile
import TableStore.Proofs.Grammar
import TableStore.Proofs.Scanning

/-!
Unquoted lexemes: words and numbers are recognised exactly as they are spelled. A number has its
digits in front, and nothing that may follow them begins with a digit, so that the digits are
found where they end.
-/

namespace TableStore.Json

namespace Number

variable {cs ds rest : List Char} {n : Number} {negative : Bool}

/-! ## Digits -/

theorem mem_digits_iff : cs ∈ digits ↔ isDigits cs := by
  rw [isDigits, Bool.and_eq_true, List.all_eq_true, Bool.not_eq_true', List.isEmpty_eq_false_iff]
  rfl

theorem mem_naturals_iff : cs ∈ naturals ↔ isWhole cs := by
  have h : cs ∈ naturals ↔ cs ∈ digits ∧ (cs.head? = some '0' → cs = ['0']) := Iff.rfl
  rw [h, mem_digits_iff, isWhole, Bool.or_eq_true, decide_eq_true_eq, Bool.and_eq_true, bne_iff_ne]
  constructor
  · rintro ⟨hd, hz⟩
    by_cases hh : cs.head? = some '0'
    · exact .inl (hz hh)
    · exact .inr ⟨hd, hh⟩
  · rintro (rfl | ⟨hd, hh⟩)
    · exact ⟨rfl, fun _ => rfl⟩
    · exact ⟨hd, fun hz => absurd hz hh⟩

/-- Nothing more of a run of digits comes. -/
def EndsDigits (rest : List Char) : Prop := ∀ c, rest.head? = some c → c.isDigit = false

theorem endsDigits_nil : EndsDigits [] := nofun

theorem span_digits (hd : ∀ c ∈ ds, c.isDigit) (hr : EndsDigits rest) :
    (ds ++ rest).takeWhile Char.isDigit = ds ∧ (ds ++ rest).dropWhile Char.isDigit = rest := by
  have hrest : rest.takeWhile Char.isDigit = [] ∧ rest.dropWhile Char.isDigit = rest := by
    cases rest with
    | nil => exact ⟨rfl, rfl⟩
    | cons c rest => simp [hr c rfl]
  constructor
  · rw [List.takeWhile_append_of_pos hd, hrest.1, List.append_nil]
  · rw [List.dropWhile_append_of_pos hd, hrest.2]

/-! ## Fractions and exponents -/

theorem isExponent_iff : isExponent cs ↔ ∃ e sign ds, (e = 'e' ∨ e = 'E') ∧
    (sign = [] ∨ sign = ['+'] ∨ sign = ['-']) ∧ isDigits ds ∧ cs = e :: (sign ++ ds) := by
  cases cs with
  | nil => simp [isExponent]
  | cons e cs =>
      simp only [isExponent, Bool.and_eq_true, Bool.or_eq_true, beq_iff_eq]
      constructor
      · rintro ⟨he, h⟩
        split at h
        · exact ⟨e, ['+'], _, he, .inr (.inl rfl), h, rfl⟩
        · exact ⟨e, ['-'], _, he, .inr (.inr rfl), h, rfl⟩
        · exact ⟨e, [], _, he, .inl rfl, h, rfl⟩
      · rintro ⟨e', sign, ds, he, hsign, hd, hcs⟩
        cases hcs
        refine ⟨he, ?_⟩
        obtain rfl | rfl | rfl := hsign
        · -- Digits begin with no sign.
          rw [List.nil_append]
          split
          · exact absurd hd (by simp [isDigits])
          · exact absurd hd (by simp [isDigits])
          · exact hd
        · exact hd
        · exact hd

theorem mem_exponents_iff : cs ∈ exponents ↔ isExponent cs := by
  rw [isExponent_iff, exponents, Language.mem_mul]
  constructor
  · rintro ⟨e, he, _, hrest, rfl⟩
    obtain ⟨sign, hsign, ds, hd, rfl⟩ := Language.mem_mul.mp hrest
    obtain rfl | rfl := he
    · exact ⟨'e', sign, ds, .inl rfl, hsign, mem_digits_iff.mp hd, rfl⟩
    · exact ⟨'E', sign, ds, .inr rfl, hsign, mem_digits_iff.mp hd, rfl⟩
  · rintro ⟨e, sign, ds, he, hsign, hd, rfl⟩
    have hrest := Language.append_mem_mul (l := {[], ['+'], ['-']}) hsign (mem_digits_iff.mpr hd)
    refine ⟨[e], ?_, sign ++ ds, hrest, rfl⟩
    obtain rfl | rfl := he
    · exact .inl rfl
    · exact .inr rfl

theorem mem_fractions_iff : cs ∈ fractions ↔ ∃ ds, isDigits ds ∧ cs = '.' :: ds := by
  rw [fractions, mem_singleton_mul]
  exact exists_congr fun ds => and_congr_left' mem_digits_iff

theorem endsDigits_of_isExponent (h : isExponent cs) : EndsDigits cs := by
  obtain ⟨e, sign, ds, he, -, -, rfl⟩ := isExponent_iff.mp h
  intro c hc
  cases hc
  obtain rfl | rfl := he <;> rfl

theorem forall_isDigit (h : isDigits ds) : ∀ c ∈ ds, c.isDigit :=
  List.all_eq_true.mp (Bool.and_eq_true_iff.mp h).2

/-- What follows the whole part of a number that is not whole. -/
theorem isFractional_iff : isFractional cs ↔
    cs ∈ fractions + exponents + fractions * exponents := by
  rw [Language.mem_add, Language.mem_add, Language.mem_mul, mem_fractions_iff, mem_exponents_iff]
  simp only [mem_fractions_iff, mem_exponents_iff]
  constructor
  · intro h
    unfold isFractional at h
    split at h
    · next cs =>
        obtain ⟨hd, hrest⟩ := Bool.and_eq_true_iff.mp h
        have hcs := List.takeWhile_append_dropWhile (p := Char.isDigit) (l := cs)
        split at hrest
        · next he =>
            rw [he, List.append_nil] at hcs
            exact .inl (.inl ⟨cs, hcs ▸ hd, rfl⟩)
        · refine .inr ⟨_, ⟨_, hd, rfl⟩, _, hrest, ?_⟩
          rw [List.cons_append, hcs]
    · exact .inl (.inr h)
  · rintro ((⟨ds, hd, rfl⟩ | h) | ⟨_, ⟨ds, hd, rfl⟩, rest, hrest, rfl⟩)
    · obtain ⟨htake, hdrop⟩ := span_digits (forall_isDigit hd) endsDigits_nil
      rw [List.append_nil] at htake hdrop
      simp only [isFractional, htake, hdrop, hd, Bool.and_self]
    · unfold isFractional
      split
      · exact absurd h (by simp [isExponent])
      · exact h
    · obtain ⟨htake, hdrop⟩ := span_digits (forall_isDigit hd) (endsDigits_of_isExponent hrest)
      rw [List.cons_append]
      simp only [isFractional, htake, hdrop, hd, Bool.true_and]
      split
      · rfl
      · exact hrest

theorem endsDigits_of_isFractional (h : isFractional cs) : EndsDigits cs := by
  unfold isFractional at h
  split at h
  · intro c hc
    cases hc
    rfl
  · exact endsDigits_of_isExponent h

/-! ## Numbers -/

/-- The digits in front are found where they end. -/
theorem ofUnsigned?_eq_some : ofUnsigned? negative cs = some n ↔
    ∃ ds rest, cs = ds ++ rest ∧ isWhole ds ∧ (rest = [] ∧
        n = whole negative (Nat.ofDigitChars 10 ds 0) ∨ isFractional rest ∧ n = fractional) := by
  constructor
  · intro h
    rw [ofUnsigned?] at h
    split at h
    · next hw =>
        refine ⟨_, _, (List.takeWhile_append_dropWhile (p := Char.isDigit)).symm, hw, ?_⟩
        cases hr : cs.dropWhile Char.isDigit with
        | nil =>
            rw [hr] at h
            exact .inl ⟨rfl, (Option.some.inj h).symm⟩
        | cons c rest =>
            rw [hr] at h
            obtain ⟨hf, h⟩ := Option.ite_none_right_eq_some.mp h
            exact .inr ⟨hf, (Option.some.inj h).symm⟩
    · cases h
  · rintro ⟨ds, rest, rfl, hw, h⟩
    have hd : ∀ c ∈ ds, c.isDigit := (mem_naturals_iff.mpr hw).1.2
    have hends : EndsDigits rest := by
      obtain ⟨rfl, -⟩ | ⟨hf, -⟩ := h
      · exact endsDigits_nil
      · exact endsDigits_of_isFractional hf
    obtain ⟨htake, hdrop⟩ := span_digits hd hends
    rw [ofUnsigned?, htake, hdrop, if_pos hw]
    obtain ⟨rfl, rfl⟩ | ⟨hf, rfl⟩ := h
    · rfl
    · cases rest with
      | nil => exact absurd hf (by simp [isFractional, isExponent])
      | cons c rest => exact if_pos hf

theorem mem_sign_mul {l : Language Char} :
    cs ∈ sign negative * l ↔ ∃ ds ∈ l, cs = (if negative then '-' :: ds else ds) := by
  rw [sign, mem_singleton_mul]
  cases negative <;> rfl

/-- The texts of a number without its sign. -/
def unsigned : Number → Language Char
  | whole _ n => numerals n
  | fractional => naturals * (fractions + exponents + fractions * exponents)

theorem ofUnsigned?_eq_some_iff : ofUnsigned? negative cs = some n ↔
    cs ∈ n.unsigned ∧ ∀ negative' m, n = whole negative' m → negative' = negative := by
  rw [ofUnsigned?_eq_some]
  cases n with
  | whole negative' m =>
      simp only [whole.injEq, reduceCtorEq, and_false, or_false]
      constructor
      · rintro ⟨ds, _, rfl, hw, rfl, rfl, rfl⟩
        rw [List.append_nil]
        refine ⟨⟨mem_naturals_iff.mpr hw, rfl⟩, ?_⟩
        rintro _ _ ⟨rfl, -⟩
        rfl
      · rintro ⟨⟨hw, hm⟩, hn⟩
        refine ⟨cs, [], (List.append_nil cs).symm, mem_naturals_iff.mp hw, rfl, ?_, hm.symm⟩
        exact hn _ _ ⟨rfl, rfl⟩
  | fractional =>
      simp only [reduceCtorEq, and_false, false_or, and_true, false_imp_iff, implies_true]
      rw [unsigned, Language.mem_mul]
      simp only [mem_naturals_iff, ← isFractional_iff]
      constructor
      · rintro ⟨ds, rest, rfl, hw, hf⟩
        exact ⟨ds, hw, rest, hf, rfl⟩
      · rintro ⟨ds, hw, rest, hf, rfl⟩
        exact ⟨ds, rest, rfl, hw, hf⟩

/-- A number without a sign begins with a digit. -/
theorem isDigit_of_ofUnsigned? {c : Char} (h : ofUnsigned? negative (c :: cs) = some n) :
    c.isDigit := by
  obtain ⟨ds, rest, hcs, hw, -⟩ := ofUnsigned?_eq_some.mp h
  obtain ⟨hne, hd⟩ := (mem_naturals_iff.mpr hw).1
  cases ds with
  | nil => exact absurd rfl hne
  | cons d ds =>
      cases hcs
      exact hd c List.mem_cons_self

theorem mem_spellings_iff : cs ∈ n.spellings ↔ ∃ negative ds,
    cs = (if negative then '-' :: ds else ds) ∧ ds ∈ n.unsigned ∧
      ∀ negative' m, n = whole negative' m → negative' = negative := by
  cases n with
  | whole negative m =>
      rw [spellings, mem_sign_mul]
      constructor
      · rintro ⟨ds, hd, rfl⟩
        refine ⟨negative, ds, rfl, hd, ?_⟩
        rintro _ _ ⟨rfl, -⟩
        rfl
      · rintro ⟨_, ds, rfl, hd, hn⟩
        cases hn _ _ rfl
        exact ⟨ds, hd, rfl⟩
  | fractional =>
      rw [spellings, add_mul, Language.mem_add, mem_sign_mul, mem_sign_mul]
      constructor
      · rintro (⟨ds, hd, rfl⟩ | ⟨ds, hd, rfl⟩)
        · exact ⟨true, ds, rfl, hd, nofun⟩
        · exact ⟨false, _, rfl, hd, nofun⟩
      · rintro ⟨negative, ds, rfl, hd, -⟩
        cases negative with
        | true => exact .inl ⟨ds, hd, rfl⟩
        | false => exact .inr ⟨ds, hd, rfl⟩

theorem ofLexeme?_eq_some : ofLexeme? cs = some n ↔ cs ∈ n.spellings := by
  rw [mem_spellings_iff]
  constructor
  · intro h
    unfold ofLexeme? at h
    split at h
    · exact ⟨true, _, rfl, ofUnsigned?_eq_some_iff.mp h⟩
    · exact ⟨false, _, rfl, ofUnsigned?_eq_some_iff.mp h⟩
  · rintro ⟨negative, ds, rfl, h⟩
    have hu := ofUnsigned?_eq_some_iff.mpr h
    cases negative with
    | true => exact hu
    | false =>
        simp only [Bool.false_eq_true, if_false]
        unfold ofLexeme?
        split
        · next he =>
            rw [he] at hu
            exact absurd (isDigit_of_ofUnsigned? hu) (by decide)
        · exact hu

/-! ## Characters of numbers -/

/-- A digit, a sign, a point or the mark of an exponent. -/
def Numeric (c : Char) : Prop := c.isDigit ∨ c ∈ ['-', '+', '.', 'e', 'E']

theorem numeric_of_isExponent (h : isExponent cs) : ∀ c ∈ cs, Numeric c := by
  obtain ⟨e, sign, ds, he, hsign, hd, rfl⟩ := isExponent_iff.mp h
  intro c hc
  obtain rfl | hc := List.mem_cons.mp hc
  · obtain rfl | rfl := he <;> exact .inr (by decide)
  obtain hc | hc := List.mem_append.mp hc
  · obtain rfl | rfl | rfl := hsign
    · cases hc
    · cases List.mem_singleton.mp hc
      exact .inr (by decide)
    · cases List.mem_singleton.mp hc
      exact .inr (by decide)
  · exact .inl (forall_isDigit hd c hc)

theorem numeric_of_isFractional (h : isFractional cs) : ∀ c ∈ cs, Numeric c := by
  have fraction {cs : List Char} (h : cs ∈ fractions) : ∀ c ∈ cs, Numeric c := by
    obtain ⟨ds, hd, rfl⟩ := mem_fractions_iff.mp h
    intro c hc
    obtain rfl | hc := List.mem_cons.mp hc
    · exact .inr (by decide)
    · exact .inl (forall_isDigit hd c hc)
  rw [isFractional_iff, Language.mem_add, Language.mem_add] at h
  obtain (h | h) | h := h
  · exact fraction h
  · exact numeric_of_isExponent (mem_exponents_iff.mp h)
  · obtain ⟨front, hf, rest, he, rfl⟩ := Language.mem_mul.mp h
    exact List.forall_mem_append.mpr ⟨fraction hf, numeric_of_isExponent (mem_exponents_iff.mp he)⟩

theorem numeric_of_ofUnsigned? (h : ofUnsigned? negative cs = some n) : ∀ c ∈ cs, Numeric c := by
  obtain ⟨ds, rest, rfl, hw, hrest⟩ := ofUnsigned?_eq_some.mp h
  refine List.forall_mem_append.mpr ⟨fun c hc => .inl ((mem_naturals_iff.mpr hw).1.2 c hc), ?_⟩
  obtain ⟨rfl, -⟩ | ⟨hf, -⟩ := hrest
  · exact nofun
  · exact numeric_of_isFractional hf

theorem numeric_of_mem_spellings (h : cs ∈ n.spellings) : ∀ c ∈ cs, Numeric c := by
  obtain ⟨negative, ds, rfl, hu⟩ := mem_spellings_iff.mp h
  have hds := numeric_of_ofUnsigned? (ofUnsigned?_eq_some_iff.mpr hu)
  cases negative with
  | true => exact List.forall_mem_cons.mpr ⟨.inr (by decide), hds⟩
  | false => exact hds

theorem ne_nil_of_mem_spellings (h : cs ∈ n.spellings) : cs ≠ [] := by
  rintro rfl
  cases ofLexeme?_eq_some.mpr h

end Number

namespace Token

variable {cs : List Char} {t : Token} {n : Number}

/-- Words and numbers, which end where a delimiter or the text does. -/
def isBare : Token → Bool
  | null | boolean _ | number _ => true
  | openBrace | closeBrace | openBracket | closeBracket | comma | colon | text _ => false

theorem ofLexeme?_of_mem_spellings (h : cs ∈ n.spellings) : ofLexeme? cs = some (number n) := by
  have hchars := Number.numeric_of_mem_spellings h
  have word {word : List Char} {c : Char} (hc : c ∈ word) (hn : ¬ Number.Numeric c) : cs ≠ word :=
    fun he => hn (hchars c (he ▸ hc))
  rw [ofLexeme?, if_neg (word (c := 'u') (by decide) (by simp [Number.Numeric])),
    if_neg (word (c := 'u') (by decide) (by simp [Number.Numeric])),
    if_neg (word (c := 'a') (by decide) (by simp [Number.Numeric])),
    Number.ofLexeme?_eq_some.mpr h, Option.map_some]

/-- Unquoted lexemes are the spellings of words and numbers. -/
theorem ofLexeme?_eq_some : ofLexeme? cs = some t ↔ t.isBare ∧ cs ∈ t.spellings := by
  constructor
  · intro h
    rw [ofLexeme?] at h
    split at h
    · next hw =>
        cases h
        exact ⟨rfl, hw⟩
    · split at h
      · next hw =>
          cases h
          exact ⟨rfl, hw⟩
      · split at h
        · next hw =>
            cases h
            exact ⟨rfl, hw⟩
        · obtain ⟨n, hn, rfl⟩ := Option.map_eq_some_iff.mp h
          exact ⟨rfl, Number.ofLexeme?_eq_some.mp hn⟩
  · rintro ⟨hb, h⟩
    cases t with
    | null =>
        cases h
        rfl
    | boolean b => cases b <;> cases h <;> rfl
    | number n => exact ofLexeme?_of_mem_spellings h
    | openBrace | closeBrace | openBracket | closeBracket | comma | colon | text _ => cases hb

theorem isDelimiter_of_numeric {c : Char} (h : Number.Numeric c) : isDelimiter c = false := by
  obtain h | h := h
  · exact isDelimiter_of_isDigit h
  · simp only [List.mem_cons, List.not_mem_nil, or_false] at h
    obtain rfl | rfl | rfl | rfl | rfl := h <;> rfl

/-- A word or number has no delimiter in it. -/
theorem isDelimiter_of_isBare (hb : t.isBare) (h : cs ∈ t.spellings) :
    ∀ c ∈ cs, isDelimiter c = false := by
  cases t with
  | null =>
      cases h
      simp [isDelimiter, isSpace, ofPunctuation?]
  | boolean b => cases b <;> cases h <;> simp [isDelimiter, isSpace, ofPunctuation?]
  | number n => exact fun c hc => isDelimiter_of_numeric (Number.numeric_of_mem_spellings h c hc)
  | openBrace | closeBrace | openBracket | closeBracket | comma | colon | text _ => cases hb

theorem ne_nil_of_isBare (hb : t.isBare) (h : cs ∈ t.spellings) : cs ≠ [] := by
  cases t with
  | null =>
      cases h
      exact List.cons_ne_nil _ _
  | boolean b => cases b <;> cases h <;> exact List.cons_ne_nil _ _
  | number n => exact Number.ne_nil_of_mem_spellings h
  | openBrace | closeBrace | openBracket | closeBracket | comma | colon | text _ => cases hb

end Token
end TableStore.Json
