import TableStore.Proofs.Literals
import TableStore.Proofs.Utf8

/-!
The tokens of a text. What the scanner has read is always made of spellings of the tokens it has
finished and the beginning of one more, and every text made of spellings of the tokens of a value
is taken apart into them, since two of them can touch only where one has a delimiter.
-/

namespace TableStore.Json

/-! ## White space between tokens -/

section
variable {cs : List Char} {ts us : List Token} {t : Token}

theorem nil_mem_space : [] ∈ space := fun _ h => absurd h List.not_mem_nil

theorem isSpace_iff {c : Char} : Token.isSpace c ↔ c ∈ [' ', '\t', '\n', '\r'] := by
  simp only [Token.isSpace, Bool.or_eq_true, beq_iff_eq, or_assoc, List.mem_cons, List.not_mem_nil,
    or_false]

theorem mem_space_iff : cs ∈ space ↔ ∀ c ∈ cs, Token.isSpace c := by
  simp only [isSpace_iff]
  rfl

theorem space_mul_space : space * space = space := by
  ext cs
  rw [Language.mem_mul]
  constructor
  · rintro ⟨front, hf, rest, hr, rfl⟩
    exact List.forall_mem_append.mpr ⟨hf, hr⟩
  · intro h
    exact ⟨cs, h, [], nil_mem_space, List.append_nil cs⟩

theorem spaced_append : spaced (ts ++ us) = spaced ts * spaced us := by
  rw [spaced, List.map_append, List.prod_append]
  rfl

theorem spaced_singleton : spaced [t] = t.spellings * space := mul_one _

/-- White space at the end is white space behind the last token or in front. -/
theorem space_mul_spaced_mul_space : space * spaced ts * space = space * spaced ts := by
  induction ts using List.reverseRecOn with
  | nil => rw [show spaced [] = 1 from rfl, mul_one, space_mul_space]
  | append_singleton ts t _ =>
      rw [spaced_append, spaced_singleton, mul_assoc, mul_assoc, mul_assoc, space_mul_space]

end

/-! ## Steps -/

namespace Token
namespace Scanner

/-- What a step does, given what the scanner is in the middle of. -/
inductive Steps : Scanner → Char → Scanner → Prop where
  | begin {s ts c} (finished : s.finish? = some ts) : Steps s c (begin ts c)
  | bare {ts lexeme c} : Steps ⟨ts, .bare lexeme⟩ c ⟨ts, .bare (c :: lexeme)⟩
  | close {ts pieces} :
      Steps ⟨ts, .quoted pieces⟩ '"' ⟨text (Piece.content pieces) :: ts, .between⟩
  | backslash {ts pieces} : Steps ⟨ts, .quoted pieces⟩ '\\' ⟨ts, .escape pieces⟩
  | char {ts pieces c} (unquoted : c ≠ '"') (plain : c ≠ '\\') (printed : 0x20 ≤ c.toNat) :
      Steps ⟨ts, .quoted pieces⟩ c ⟨ts, .quoted (.char c :: pieces)⟩
  | short {ts pieces letter c} (escaped : unescape? letter = some c) :
      Steps ⟨ts, .escape pieces⟩ letter ⟨ts, .quoted (.char c :: pieces)⟩
  | code {ts pieces} : Steps ⟨ts, .escape pieces⟩ 'u' ⟨ts, .hex pieces 4 0⟩
  | digit {ts pieces missing unit c d} (value : Hex.value? c = some d) (more : ¬ missing ≤ 1) :
      Steps ⟨ts, .hex pieces missing unit⟩ c ⟨ts, .hex pieces (missing - 1) (unit * 16 + d)⟩
  | unit {ts pieces missing unit c d} (value : Hex.value? c = some d) (last : missing ≤ 1) :
      Steps ⟨ts, .hex pieces missing unit⟩ c
        ⟨ts, .quoted (Piece.addUnit (unit * 16 + d) pieces)⟩

theorem steps_of_step {s s' : Scanner} {c : Char} (h : s.step c = some s') : Steps s c s' := by
  obtain ⟨ts, mode⟩ := s
  cases mode with
  | between =>
      cases h
      exact .begin rfl
  | bare lexeme =>
      simp only [step] at h
      split at h
      · obtain ⟨ts, hf, rfl⟩ := Option.map_eq_some_iff.mp h
        exact .begin hf
      · cases h
        exact .bare
  | quoted pieces =>
      simp only [step] at h
      split at h
      · next hc =>
          subst hc
          cases h
          exact .close
      split at h
      · next hc =>
          subst hc
          cases h
          exact .backslash
      split at h
      · cases h
      · next hquote hslash hc =>
          cases h
          exact .char hquote hslash (Nat.le_of_not_lt hc)
  | escape pieces =>
      simp only [step] at h
      split at h
      · next hc =>
          subst hc
          cases h
          exact .code
      · obtain ⟨d, hd, rfl⟩ := Option.map_eq_some_iff.mp h
        exact .short hd
  | hex pieces missing unit =>
      simp only [step] at h
      obtain ⟨d, hd, rfl⟩ := Option.map_eq_some_iff.mp h
      split
      · next hm => exact .unit hd hm
      · next hm => exact .digit hd hm

end Scanner

/-! ## What has been read -/

open Segment (hexValue)

/-- The characters of a string literal up to some place behind its opening quote. -/
def Inside (pieces : List Piece) : Language Char :=
  {cs | ∃ segments : List Segment, cs ∈ (segments.map Segment.spellings).prod ∧
    pieces = segments.foldl Segment.add []}

/-- The beginning of an escape with hexadecimal digits, of which some are missing. -/
def Digits (missing unit : Nat) : Language Char :=
  {cs | ∃ ds values, cs = '\\' :: 'u' :: ds ∧ ds.length + missing = 4 ∧ missing ≠ 0 ∧
    ds.mapM Hex.value? = some values ∧ hexValue values = unit}

/-- The characters of a token that is not complete. -/
def Mode.started : Mode → Language Char
  | .between => 1
  | .bare lexeme => {lexeme.reverse}
  | .quoted pieces => {['"']} * Inside pieces
  | .escape pieces => {['"']} * (Inside pieces * {['\\']})
  | .hex pieces missing unit => {['"']} * (Inside pieces * Digits missing unit)

namespace Scanner

variable {s s' : Scanner} {ts us : List Token} {t : Token} {c : Char} {cs front : List Char}

/-- What leads to a scanner: spellings of the finished tokens, and the beginning of another. -/
def Reached (s : Scanner) : Language Char :=
  space * spaced s.finished.reverse * s.mode.started

theorem mem_reached_between : cs ∈ Reached ⟨ts, .between⟩ ↔ cs ∈ space * spaced ts.reverse := by
  rw [Reached, Mode.started, mul_one]

theorem reached_start : [] ∈ Reached .start :=
  mem_reached_between.mpr (Language.mem_mul.mpr ⟨[], nil_mem_space, [], rfl, rfl⟩)

theorem mul_snoc {first second second' : Language Char} (h : front ∈ first * second)
    (hsnoc : ∀ cs ∈ second, cs ++ [c] ∈ second') : front ++ [c] ∈ first * second' := by
  obtain ⟨a, ha, b, hb, rfl⟩ := Language.mem_mul.mp h
  rw [List.append_assoc]
  exact Language.append_mem_mul ha (hsnoc b hb)

/-- A finished token leaves the scanner between tokens. -/
theorem reached_token (h : cs ∈ space * spaced ts.reverse * t.spellings) :
    cs ∈ Reached ⟨t :: ts, .between⟩ := by
  rw [mem_reached_between, List.reverse_cons, spaced_append, spaced_singleton, ← mul_assoc,
    ← mul_assoc, Language.mem_mul]
  exact ⟨cs, h, [], nil_mem_space, List.append_nil cs⟩

theorem mem_spellings_of_ofPunctuation? (h : ofPunctuation? c = some t) : [c] ∈ t.spellings := by
  unfold ofPunctuation? at h
  split at h <;> cases h <;> rfl

theorem reached_begin (h : front ∈ space * spaced ts.reverse) :
    front ++ [c] ∈ Reached (begin ts c) := by
  unfold begin
  split
  · next hc =>
      subst hc
      exact Language.append_mem_mul h ⟨['"'], rfl, [], ⟨[], rfl, rfl⟩, rfl⟩
  split
  · next hc =>
      rw [mem_reached_between, ← space_mul_spaced_mul_space]
      exact Language.append_mem_mul h (mem_space_iff.mpr (List.forall_mem_singleton.mpr hc))
  split
  · next t ht =>
      exact reached_token (Language.append_mem_mul h (mem_spellings_of_ofPunctuation? ht))
  · exact Language.append_mem_mul h rfl

/-- A scanner that may finish has read spellings of all its tokens. -/
theorem mem_of_finish? (h : cs ∈ Reached s) (hf : s.finish? = some ts) :
    cs ∈ space * spaced ts.reverse := by
  obtain ⟨finished, mode⟩ := s
  cases mode with
  | between =>
      cases hf
      exact mem_reached_between.mp h
  | bare lexeme =>
      obtain ⟨t, ht, rfl⟩ := Option.map_eq_some_iff.mp hf
      obtain ⟨front, hfront, _, rfl, rfl⟩ := Language.mem_mul.mp h
      have hlexeme := (ofLexeme?_eq_some.mp ht).2
      exact mem_reached_between.mp (reached_token (Language.append_mem_mul hfront hlexeme))
  | quoted _ | escape _ | hex _ _ _ => cases hf

theorem inside_snoc {pieces : List Piece} (segment : Segment) (h : front ∈ Inside pieces)
    (hs : cs ∈ segment.spellings) : front ++ cs ∈ Inside (segment.add pieces) := by
  obtain ⟨segments, hsegments, rfl⟩ := h
  refine ⟨segments ++ [segment], ?_, by rw [List.foldl_append]; rfl⟩
  rw [List.map_append, List.prod_append, List.map_singleton, List.prod_singleton]
  exact Language.append_mem_mul hsegments hs

theorem mem_contents {pieces : List Piece} (h : cs ∈ Inside pieces) :
    cs ∈ contents (Piece.content pieces) := by
  obtain ⟨segments, hsegments, rfl⟩ := h
  exact ⟨segments, hsegments, fun _ => Piece.content_foldl⟩

/-! ## Escapes -/

theorem value?_lt {d : Nat} (h : Hex.value? c = some d) : d < 16 := by
  rw [Hex.value?] at h
  split at h
  · next hc =>
      cases h
      have : c.toNat ≤ '9'.toNat := hc.2
      change c.toNat - 48 < 16
      change c.toNat ≤ 57 at this
      omega
  split at h
  · next hc =>
      cases h
      have : c.toNat ≤ 'f'.toNat := hc.2
      change c.toNat - 97 + 10 < 16
      change c.toNat ≤ 102 at this
      omega
  split at h
  · next hc =>
      cases h
      have : c.toNat ≤ 'F'.toNat := hc.2
      change c.toNat - 65 + 10 < 16
      change c.toNat ≤ 70 at this
      omega
  · cases h

theorem hexValue_snoc (values : List Nat) (d : Nat) :
    hexValue (values ++ [d]) = hexValue values * 16 + d := by
  rw [hexValue, List.foldl_append]
  rfl

/-- One digit more makes the code unit at most sixteen times as large. -/
theorem hexValue_lt {ds : List Char} {values : List Nat} (h : ds.mapM Hex.value? = some values) :
    hexValue values < 16 ^ ds.length := by
  induction ds using List.reverseRecOn generalizing values with
  | nil =>
      cases h
      decide
  | append_singleton ds c ih =>
      rw [List.mapM_append] at h
      obtain ⟨vs, hvs, h⟩ := Option.bind_eq_some_iff.mp h
      obtain ⟨d, hd, h⟩ := Option.bind_eq_some_iff.mp h
      cases h
      rw [List.mapM_cons] at hd
      obtain ⟨d, hc, h⟩ := Option.bind_eq_some_iff.mp hd
      cases h
      have hlt := ih hvs
      have hd := value?_lt hc
      change hexValue (vs ++ [d]) < _
      rw [hexValue_snoc, List.length_append, List.length_singleton, Nat.pow_succ]
      omega

theorem mapM_snoc {ds : List Char} {values : List Nat} {d : Nat}
    (h : ds.mapM Hex.value? = some values) (hd : Hex.value? c = some d) :
    (ds ++ [c]).mapM Hex.value? = some (values ++ [d]) := by
  rw [List.mapM_append, h, List.mapM_cons, hd]
  rfl

theorem digits_snoc {missing unit d : Nat} (h : cs ∈ Digits missing unit)
    (hd : Hex.value? c = some d) (hm : ¬ missing ≤ 1) :
    cs ++ [c] ∈ Digits (missing - 1) (unit * 16 + d) := by
  obtain ⟨ds, values, rfl, hlength, -, hvalues, rfl⟩ := h
  refine ⟨ds ++ [c], values ++ [d], rfl, ?_, by omega, mapM_snoc hvalues hd, hexValue_snoc _ _⟩
  rw [List.length_append, List.length_singleton]
  omega

/-- The last digit completes a code unit, which has sixteen bits. -/
theorem digits_complete {missing unit d : Nat} (h : cs ∈ Digits missing unit)
    (hd : Hex.value? c = some d) (hm : missing ≤ 1) :
    ∃ u : UInt16, u.toNat = unit * 16 + d ∧ cs ++ [c] ∈ (Segment.unit u).spellings := by
  obtain ⟨ds, values, rfl, hlength, hne, hvalues, rfl⟩ := h
  have hlength : (ds ++ [c]).length = 4 := by
    rw [List.length_append, List.length_singleton]
    omega
  have hall := mapM_snoc hvalues hd
  have hlt := hexValue_lt hall
  rw [hlength, hexValue_snoc] at hlt
  have hu : (UInt16.ofNat (hexValue values * 16 + d)).toNat = hexValue values * 16 + d :=
    Nat.mod_eq_of_lt hlt
  exact ⟨_, hu, ds ++ [c], values ++ [d], rfl, hlength, hall, (hexValue_snoc _ _).trans hu.symm⟩

/-! ## Runs -/

/-- Every step keeps to the language of its scanner. -/
theorem reached_step (h : front ∈ Reached s) (hs : s.step c = some s') :
    front ++ [c] ∈ Reached s' := by
  cases steps_of_step hs with
  | begin finished => exact reached_begin (mem_of_finish? h finished)
  | bare =>
      refine mul_snoc h ?_
      rintro _ rfl
      exact List.reverse_cons.symm
  | close =>
      exact reached_token (mul_snoc h fun _ h => mul_snoc h fun _ h =>
        Language.append_mem_mul (mem_contents h) rfl)
  | backslash =>
      exact mul_snoc h fun _ h => mul_snoc h fun _ h => Language.append_mem_mul h rfl
  | char unquoted plain printed =>
      exact mul_snoc h fun _ h => mul_snoc h fun _ h =>
        inside_snoc (.char c) h (.inl ⟨rfl, unquoted, plain, printed⟩)
  | @short ts pieces _ d escaped =>
      refine mul_snoc h fun _ h => mul_snoc h fun _ h => ?_
      obtain ⟨body, hbody, _, rfl, rfl⟩ := Language.mem_mul.mp h
      rw [List.append_assoc]
      exact inside_snoc (.char d) hbody (.inr ⟨c, Segment.unescape?_eq_some.mp escaped, rfl⟩)
  | code =>
      refine mul_snoc h fun _ h => mul_snoc h fun _ h => mul_snoc h ?_
      rintro _ rfl
      exact ⟨[], [], rfl, rfl, by decide, rfl, rfl⟩
  | digit value more =>
      exact mul_snoc h fun _ h => mul_snoc h fun _ h => mul_snoc h fun _ h =>
        digits_snoc h value more
  | unit value last =>
      refine mul_snoc h fun _ h => mul_snoc h fun _ h => ?_
      obtain ⟨body, hbody, ds, hds, rfl⟩ := Language.mem_mul.mp h
      obtain ⟨u, hu, hunit⟩ := digits_complete hds value last
      rw [List.append_assoc, ← hu]
      exact inside_snoc (.unit u) hbody hunit

/-- So does a whole run. -/
theorem reached_foldlM (h : front ∈ Reached s) (hs : cs.foldlM step s = some s') :
    front ++ cs ∈ Reached s' := by
  induction cs generalizing s front with
  | nil =>
      cases hs
      rwa [List.append_nil]
  | cons c cs ih =>
      rw [List.foldlM_cons] at hs
      obtain ⟨s₁, hs₁, hs⟩ := Option.bind_eq_some_iff.mp hs
      have h := ih (reached_step h hs₁) hs
      rwa [List.append_assoc, List.singleton_append] at h

end Scanner

/-- A text is made of spellings of the tokens that are found in it. -/
theorem mem_spaced_of_scan? {text : String} {ts : List Token}
    (h : scan? (Text.characters text) = some ts) : text.toList ∈ space * spaced ts := by
  rw [scan?, Scanner.foldlM_read_characters] at h
  obtain ⟨finished, hfinished, rfl⟩ := Option.map_eq_some_iff.mp h
  obtain ⟨s, hs, hf⟩ := Option.bind_eq_some_iff.mp hfinished
  exact Scanner.mem_of_finish? (Scanner.reached_foldlM Scanner.reached_start hs) hf

namespace Scanner

/-! ## What is spelled is found -/

variable {s : Scanner} {ts ts' us us' : List Token} {t : Token} {cs : List Char}

/-- Every token but a word or number may follow another one closely, and is complete at once. -/
theorem foldlM_delimited (ht : t.isBare = false) (hf : s.finish? = some ts)
    (h : cs ∈ t.spellings) : cs.foldlM step s = some ⟨t :: ts, .between⟩ := by
  have mark {c : Char} (hc : ofPunctuation? c = some t) :
      [c].foldlM step s = some ⟨t :: ts, .between⟩ := by
    rw [List.foldlM_cons, step_punctuation hf hc]
    rfl
  cases t with
  | text content => exact foldlM_text hf h
  | openBrace | closeBrace | openBracket | closeBracket | comma | colon =>
      cases h
      exact mark rfl
  | null | boolean _ | number _ => cases ht

/-- Every spelling of the tokens, with white space in it, yields them. -/
def Spells (s : Scanner) (us ts : List Token) : Prop := ∀ cs ∈ spaced us, Yields s cs ts

theorem Spells.append (h : Spells s us ts)
    (h' : ∀ s', s'.finish? = some ts → Spells s' us' ts') : Spells s (us ++ us') ts' := by
  intro cs hcs
  rw [spaced_append] at hcs
  obtain ⟨front, hf, rest, hr, rfl⟩ := Language.mem_mul.mp hcs
  exact (h front hf).append fun s' hs' => h' s' hs' rest hr

theorem spells_nil (hf : s.finish? = some ts) : Spells s [] ts := by
  rintro _ rfl
  exact ⟨s, rfl, hf⟩

theorem spells_cons (ht : t.isBare = false) (hf : s.finish? = some ts)
    (h : Spells ⟨t :: ts, .between⟩ us ts') : Spells s (t :: us) ts' := by
  intro cs hcs
  obtain ⟨_, hfront, rest, hr, rfl⟩ := Language.mem_mul.mp hcs
  obtain ⟨token, htoken, spaces, hspaces, rfl⟩ := Language.mem_mul.mp hfront
  obtain ⟨s', hs', hf'⟩ := h rest hr
  refine ⟨s', ?_, hf'⟩
  rw [List.foldlM_append, List.foldlM_append, foldlM_delimited ht hf htoken]
  change (spaces.foldlM step ⟨t :: ts, .between⟩ >>= fun s => rest.foldlM step s) = _
  rw [foldlM_spaces _ (mem_space_iff.mp hspaces)]
  exact hs'

theorem spells_bare (ht : t.isBare) (ts : List Token) :
    Spells ⟨ts, .between⟩ [t] (t :: ts) := by
  intro cs hcs
  rw [spaced_singleton] at hcs
  obtain ⟨token, htoken, spaces, hspaces, rfl⟩ := Language.mem_mul.mp hcs
  have hread := yields_lexeme ts (ne_nil_of_isBare ht htoken) (isDelimiter_of_isBare ht htoken)
    (ofLexeme?_eq_some.mpr ⟨ht, htoken⟩)
  exact hread.append fun _ hf => yields_spaces hf (mem_space_iff.mp hspaces)

theorem spells_member (key : Option String) (hf : s.finish? = some ts)
    (h : Spells ⟨.colon :: .text key :: ts, .between⟩ us ts') :
    Spells s (.text key :: .colon :: us) ts' :=
  spells_cons rfl hf (spells_cons rfl rfl h)

mutual

theorem spells_tokens (ts : List Token) : (j : Json) →
    Spells ⟨ts, .between⟩ j.tokens (j.tokens.reverse ++ ts)
  | .null | .boolean _ | .number _ => spells_bare rfl ts
  | .text _ => spells_cons rfl rfl (spells_nil rfl)
  | .array [] => spells_cons rfl rfl (spells_cons rfl rfl (spells_nil rfl))
  | .array (j :: rest) => by
      have hitems := (spells_tokens (.openBracket :: ts) j).append fun _ hf => spells_items hf rest
      have h := (spells_cons (s := ⟨ts, .between⟩) (t := .openBracket) rfl rfl hitems).append
        fun _ hf => spells_cons (t := .closeBracket) rfl hf (spells_nil rfl)
      simpa [tokens] using h
  | .object [] => spells_cons rfl rfl (spells_cons rfl rfl (spells_nil rfl))
  | .object ((key, j) :: rest) => by
      have hmember := spells_member (s := ⟨.openBrace :: ts, .between⟩) key rfl (spells_tokens _ j)
      have hmembers := hmember.append fun _ hf => spells_members hf rest
      have h := (spells_cons (s := ⟨ts, .between⟩) (t := .openBrace) rfl rfl hmembers).append
        fun _ hf => spells_cons (t := .closeBrace) rfl hf (spells_nil rfl)
      simpa [tokens] using h

theorem spells_items {s : Scanner} {ts : List Token} (hf : s.finish? = some ts) :
    (items : List Json) → Spells s (moreItems items) ((moreItems items).reverse ++ ts)
  | [] => spells_nil hf
  | j :: rest => by
      have h := (spells_cons (t := .comma) rfl hf (spells_tokens _ j)).append fun _ hf =>
        spells_items hf rest
      simpa [moreItems] using h

theorem spells_members {s : Scanner} {ts : List Token} (hf : s.finish? = some ts) :
    (members : List (Option String × Json)) →
    Spells s (moreMembers members) ((moreMembers members).reverse ++ ts)
  | [] => spells_nil hf
  | (key, j) :: rest => by
      have h := (spells_cons (t := .comma) rfl hf
        (spells_member key rfl (spells_tokens _ j))).append fun _ hf => spells_members hf rest
      simpa [moreMembers] using h

end

end Scanner

/-- A text of a value is taken apart into the tokens of the value. -/
theorem scan?_of_mem_texts {text : String} {j : Json} (h : text.toList ∈ j.texts) :
    scan? (Text.characters text) = some j.tokens := by
  obtain ⟨spaces, hspaces, rest, hrest, htext⟩ := Language.mem_mul.mp h
  obtain ⟨s, hs, hf⟩ := Scanner.spells_tokens [] j rest hrest
  rw [scan?, Scanner.foldlM_read_characters, ← htext, List.foldlM_append]
  change ((spaces.foldlM Scanner.step ⟨[], .between⟩ >>= fun s => rest.foldlM Scanner.step s) >>=
    Scanner.finish?).map List.reverse = _
  rw [Scanner.foldlM_spaces _ (mem_space_iff.mp hspaces)]
  change ((rest.foldlM Scanner.step ⟨[], .between⟩) >>= Scanner.finish?).map List.reverse = _
  rw [hs]
  simp [hf]

/-! ## Bytes of no character -/

/-- What has been read of a string literal. -/
def Mode.pieces : Mode → List Piece
  | .between | .bare _ => []
  | .quoted pieces | .escape pieces | .hex pieces _ _ => pieces

namespace Scanner

variable {s s' : Scanner} {ts : List Token} {c : Char} {pieces : List Piece}

/-- Some of what has been read stands for no text. -/
def Tainted (s : Scanner) : Prop := text none ∈ s.finished ∨ Piece.stray ∈ s.mode.pieces

theorem stray_mem_addUnit (n : Nat) (h : Piece.stray ∈ pieces) :
    Piece.stray ∈ Piece.addUnit n pieces := by
  unfold Piece.addUnit
  split
  · have hrest := (List.mem_cons.mp h).resolve_left nofun
    split
    · exact List.mem_cons_of_mem _ hrest
    · exact List.mem_cons_of_mem _ h
  · exact List.mem_cons_of_mem _ h

theorem content_of_stray (h : Piece.stray ∈ pieces) : Piece.content pieces = none := by
  have hchars : Piece.chars? pieces = none := by
    induction pieces with
    | nil => cases h
    | cons p pieces ih =>
        rw [Piece.chars?_cons]
        obtain rfl | h := List.mem_cons.mp h
        · cases Piece.chars? pieces <;> rfl
        · rw [ih h]
          rfl
  exact Option.eq_none_iff_forall_ne_some.mpr fun _ hc =>
    nomatch hchars.symm.trans (Piece.content_eq_some.mp hc)

theorem tainted_begin (h : text none ∈ ts) : Tainted (begin ts c) := by
  unfold begin
  split
  · exact .inl h
  split
  · exact .inl h
  split
  · exact .inl (List.mem_cons_of_mem _ h)
  · exact .inl h

theorem text_none_mem_of_finish? (h : Tainted s) (hf : s.finish? = some ts) : text none ∈ ts := by
  obtain ⟨finished, mode⟩ := s
  cases mode with
  | between =>
      cases hf
      exact h.resolve_right List.not_mem_nil
  | bare lexeme =>
      obtain ⟨t, -, rfl⟩ := Option.map_eq_some_iff.mp hf
      exact List.mem_cons_of_mem _ (h.resolve_right List.not_mem_nil)
  | quoted _ | escape _ | hex _ _ _ => cases hf

/-- What stands for no text is not made good later. -/
theorem tainted_step (h : Tainted s) (hs : s.step c = some s') : Tainted s' := by
  cases steps_of_step hs with
  | begin finished => exact tainted_begin (text_none_mem_of_finish? h finished)
  | bare | backslash | code | digit _ _ => exact h
  | close =>
      obtain h | h := h
      · exact .inl (List.mem_cons_of_mem _ h)
      · exact .inl (List.mem_cons.mpr (.inl (congrArg text (content_of_stray h).symm)))
  | char _ _ _ | short _ => exact h.imp_right (List.mem_cons_of_mem _)
  | unit _ _ => exact h.imp_right (stray_mem_addUnit _)

theorem tainted_stepStray (hs : s.stepStray = some s') : Tainted s' := by
  obtain ⟨finished, mode⟩ := s
  cases mode with
  | quoted pieces =>
      cases hs
      exact .inr List.mem_cons_self
  | between | bare _ | escape _ | hex _ _ _ => cases hs

theorem tainted_foldlM {cs : List (Option Char)} (hs : cs.foldlM read s = some s')
    (h : Tainted s ∨ none ∈ cs) : Tainted s' := by
  induction cs generalizing s with
  | nil =>
      cases hs
      exact h.resolve_right List.not_mem_nil
  | cons c cs ih =>
      rw [List.foldlM_cons] at hs
      obtain ⟨s₁, hs₁, hrest⟩ := Option.bind_eq_some_iff.mp hs
      cases c with
      | none => exact ih hrest (.inl (tainted_stepStray hs₁))
      | some c =>
          refine ih hrest (h.imp (tainted_step · hs₁) fun h => ?_)
          exact (List.mem_cons.mp h).resolve_left nofun

end Scanner

/-- Where every string literal stands for a text, every byte belongs to a character. -/
theorem eq_characters_of_scan? {cs : List (Option Char)} {ts : List Token}
    (h : scan? cs = some ts) (hts : text none ∉ ts) : ∃ text, cs = Text.characters text := by
  have hnone : none ∉ cs := by
    intro hnone
    obtain ⟨finished, hfinished, rfl⟩ := Option.map_eq_some_iff.mp h
    obtain ⟨s, hs, hf⟩ := Option.bind_eq_some_iff.mp hfinished
    have htainted := Scanner.tainted_foldlM hs (.inr hnone)
    exact hts (List.mem_reverse.mpr (Scanner.text_none_mem_of_finish? htainted hf))
  exact Text.eq_characters hnone

end Token
end TableStore.Json
