import Mathlib.Data.List.Chain
import TableStore.Cache.Scan
import TableStore.Filter
import TableStore.Proofs.Encoding
import TableStore.Proofs.Parsing

/-!
Different filters have different canonical texts. A canonical text ends in a literal, which is one
JSON token without anything around it, and no literal contains an equals sign with another literal
behind it, so that the text can be taken apart in one way only.
-/

namespace TableStore

/-! ## Literals -/

namespace Json

/-- Of two neighbours the second is no quote, unless the first is a backslash. -/
def Unbroken (before after : Char) : Prop := after = '"' → before = '\\'

theorem escape_eq_or_not_mem (c : Char) : escape c = ['\\', '"'] ∨ '"' ∉ escape c := by
  simp only [escape]
  split
  case h_1 => exact .inl rfl
  case h_8 hquote _ _ _ _ _ _ =>
    right
    split
    · next hc =>
        have hlower : ∀ n < 16, Hex.lower n ≠ '"' := by decide
        have h1 := hlower (c.toNat / 16) (by omega)
        have h2 := hlower (c.toNat % 16) (by omega)
        simp [h1.symm, h2.symm]
    · exact fun h => hquote (List.mem_singleton.mp h).symm
  all_goals exact .inr (by decide)

theorem isChain_of_not_mem {cs rest : List Char} (h : '"' ∉ cs)
    (hrest : ∀ c, List.IsChain Unbroken (c :: rest)) (c : Char) :
    List.IsChain Unbroken (c :: (cs ++ rest)) := by
  induction cs generalizing c with
  | nil => exact hrest c
  | cons d cs ih =>
      rw [List.mem_cons, not_or] at h
      exact .cons_cons (fun hd => absurd hd.symm h.1) (ih h.2 d)

/-- A quote in the literal of a string has a backslash in front, or stands at an end. -/
theorem isChain_escapes (text : List Char) (c : Char) :
    List.IsChain Unbroken (c :: text.flatMap escape) := by
  induction text generalizing c with
  | nil => exact .singleton c
  | cons d text ih =>
      rw [List.flatMap_cons]
      obtain h | h := escape_eq_or_not_mem d
      · rw [h]
        exact .cons_cons nofun (.cons_cons (fun _ => rfl) (ih '"'))
      · exact isChain_of_not_mem h ih c

/-- What is written for a character in the literal of a string spells the character. -/
theorem exists_segment (c : Char) : ∃ segment : Segment, escape c ∈ segment.spellings ∧
    ∀ segments cs, Segment.Denotes segments cs → Segment.Denotes (segment :: segments) (c :: cs) := by
  simp only [escape]
  split
  case h_8 hquote hslash _ _ _ _ _ =>
    split
    · next hc =>
        have hsize : (UInt16.ofNat c.toNat).toNat = c.toNat :=
          UInt16.toNat_ofNat_of_lt' (hc.trans (by decide))
        have h0 : Hex.value? '0' = some 0 := rfl
        have h1 := Token.Scanner.value?_lower (c.toNat / 16) (by omega)
        have h2 := Token.Scanner.value?_lower (c.toNat % 16) (by omega)
        refine ⟨.unit (UInt16.ofNat c.toNat), ⟨_, [0, 0, c.toNat / 16, c.toNat % 16], rfl, rfl, ?_, ?_⟩,
          fun _ _ => .unit hsize.symm⟩
        · simp [List.mapM_cons, h0, h1, h2]
        · simp only [Segment.hexValue, List.foldl_cons, List.foldl_nil, hsize]
          omega
    · next hc => exact ⟨.char c, .inl ⟨rfl, hquote, hslash, Nat.not_lt.mp hc⟩, fun _ _ => .char⟩
  all_goals exact ⟨.char _, .inr ⟨_, by decide, rfl⟩, fun _ _ => .char⟩

theorem exists_segments (text : List Char) : ∃ segments : List Segment,
    text.flatMap escape ∈ (segments.map Segment.spellings).prod ∧
      Segment.Denotes segments text := by
  induction text with
  | nil => exact ⟨[], rfl, .nil⟩
  | cons c text ih =>
      obtain ⟨segment, hc, hdenotes⟩ := exists_segment c
      obtain ⟨segments, htext, hrest⟩ := ih
      refine ⟨segment :: segments, ?_, hdenotes _ _ hrest⟩
      rw [List.flatMap_cons, List.map_cons, List.prod_cons]
      exact Language.mem_mul.mpr ⟨_, hc, _, htext, rfl⟩

theorem escapes_mem_contents (s : String) : s.toList.flatMap escape ∈ contents (some s) := by
  obtain ⟨segments, hmem, hdenotes⟩ := exists_segments s.toList
  refine ⟨segments, hmem, fun text => ?_⟩
  rw [← Piece.content_foldl, Piece.content_foldl.mpr hdenotes]

end Json

namespace Value

/-- The one token of the JSON of a value. -/
def token : Value → Json.Token
  | integer i => .number (.ofInt i.toInt)
  | text s => .text (some s)
  | boolean b => .boolean b

theorem tokens_toJson (v : Value) : v.toJson.tokens = [v.token] := by cases v <;> rfl

theorem toList_literal (v : Value) : v.literal.toList = Json.print .compact 0 v.toJson :=
  String.toList_ofList

theorem literal_text (s : String) :
    (text s).literal.toList = '"' :: s.toList.flatMap Json.escape ++ ['"'] :=
  toList_literal (text s)

/-- A literal is its token and nothing else. -/
theorem literal_mem_spellings (v : Value) : v.literal.toList ∈ v.token.spellings := by
  cases v with
  | integer i =>
      rw [toList_literal]
      change Json.Number.spell (.ofInt i.toInt) ∈ Json.Number.spellings (.ofInt i.toInt)
      exact Json.Number.ofLexeme?_eq_some.mp (Json.Number.ofLexeme?_spell _)
  | text s =>
      rw [literal_text]
      exact Json.mem_singleton_mul.mpr
        ⟨_, Language.mem_mul.mpr ⟨_, Json.escapes_mem_contents s, _, rfl, rfl⟩, rfl⟩
  | boolean b => cases b <;> exact toList_literal _

/-- A literal is read back as its value. -/
theorem ofText?_literal (v : Value) : Json.ofText? v.literal >>= ofJson? = some v := by
  rw [literal, Json.ofText?_compact]
  exact ofJson?_toJson v

theorem literal_injective {v w : Value} (h : v.literal = w.literal) : v = w := by
  have hj : some v.toJson = some w.toJson := by
    rw [← Json.ofText?_compact, ← Json.ofText?_compact]
    exact congrArg Json.ofText? h
  have hv := ofJson?_toJson v
  rw [Option.some.inj hj, ofJson?_toJson] at hv
  exact (Option.some.inj hv).symm

/-- Only the literals of texts have quotes or equals signs. -/
theorem text_of_mem_literal {v : Value} {c : Char} (hc : c = '"' ∨ c = '=')
    (h : c ∈ v.literal.toList) : ∃ s, v = text s := by
  rw [toList_literal] at h
  cases v with
  | text s => exact ⟨s, rfl⟩
  | boolean b => obtain rfl | rfl := hc <;> cases b <;> exact absurd h (by decide)
  | integer i =>
      have hspell := Json.Token.mem_spell _ c h
      obtain rfl | rfl := hc <;> exact absurd hspell (by decide)

/-- No literal has another one behind an equals sign. -/
theorem literal_ne_append (v w : Value) (cs : List Char) :
    v.literal.toList ≠ cs ++ '=' :: w.literal.toList := by
  intro h
  obtain ⟨s, rfl⟩ : ∃ s, v = text s :=
    text_of_mem_literal (.inr rfl) (h ▸ List.mem_append_right _ List.mem_cons_self)
  -- Both texts end with a quote, so that the second literal is one of a text, too.
  have hlast := congrArg List.getLast? h
  rw [literal_text, List.getLast?_concat, List.getLast?_append_of_ne_nil _ (List.cons_ne_nil _ _)]
    at hlast
  have hmem : '"' ∈ '=' :: w.literal.toList := List.mem_of_getLast? hlast.symm
  obtain ⟨t, rfl⟩ : ∃ t, w = text t :=
    text_of_mem_literal (.inl rfl) ((List.mem_cons.mp hmem).resolve_left (by decide))
  rw [literal_text, literal_text, ← List.cons_append, ← List.append_assoc] at h
  have hsplit := List.append_cancel_right h
  have hchain := Json.isChain_escapes s.toList '"'
  rw [hsplit] at hchain
  have hbroken := (List.isChain_append_cons_cons.mp hchain).2.1
  exact absurd (hbroken rfl) (by decide)

end Value

/-! ## Filters -/

namespace Predicate

theorem toList_canonical (p : Predicate) :
    p.canonical.toList = p.column.toList ++ '=' :: p.value.literal.toList := by
  simp [canonical]

/-- The canonical text tells filters apart, by the type of the value as well. -/
theorem canonical_injective {p q : Predicate} (h : p.canonical = q.canonical) : p = q := by
  have ht := congrArg String.toList h
  rw [toList_canonical, toList_canonical] at ht
  have split {cs ds ls : List Char} (v w : Value) (hd : ds = cs ++ ls)
      (hl : '=' :: v.literal.toList = ls ++ '=' :: w.literal.toList) :
      cs = ds ∧ v.literal.toList = w.literal.toList := by
    cases ls with
    | nil =>
        rw [List.append_nil] at hd
        exact ⟨hd.symm, (List.cons.inj hl).2⟩
    | cons c ls => exact absurd (List.cons.inj hl).2 (Value.literal_ne_append v w ls)
  have hparts : p.column.toList = q.column.toList ∧
      p.value.literal.toList = q.value.literal.toList := by
    obtain ⟨ls, hd, hl⟩ | ⟨ls, hd, hl⟩ := List.append_eq_append_iff.mp ht
    · exact split _ _ hd hl
    · exact (split _ _ hd hl).imp Eq.symm Eq.symm
  obtain ⟨column, value⟩ := p
  cases String.toList_inj.mp hparts.1
  cases Value.literal_injective (String.toList_inj.mp hparts.2)
  rfl

/-- Filters have the same canonical text exactly if they have the same column and the same value.
Behind the column and an equals sign the text has the value as JSON, which is a single token with
no white space around it, and from which the value is read back. -/
theorem canonical_exact :
    (∀ p q : Predicate, p.canonical = q.canonical ↔ p.column = q.column ∧ p.value = q.value) ∧
    ∀ p : Predicate, ∃ literal t, p.canonical = p.column ++ "=" ++ literal ∧
      literal = p.value.toJson.compact ∧ p.value.toJson.tokens = [t] ∧
      literal.toList ∈ t.spellings ∧
      Json.ofText? literal >>= Value.ofJson? = some p.value := by
  refine ⟨fun p q => ⟨fun h => ?_, ?_⟩, fun p => ?_⟩
  · rw [canonical_injective h]
    exact ⟨rfl, rfl⟩
  · rintro ⟨hcolumn, hvalue⟩
    simp only [canonical, hcolumn, hvalue]
  · exact ⟨p.value.literal, p.value.token, rfl, rfl, p.value.tokens_toJson,
      p.value.literal_mem_spellings, p.value.ofText?_literal⟩

end Predicate

namespace Fingerprint

/-- The fingerprint of a read of a table through a filter. -/
def ofRead (read : String × Option Predicate) : Fingerprint :=
  ⟨read.1, read.2.map Predicate.canonical⟩

theorem ofRead_injective : Function.Injective ofRead := by
  rintro ⟨table, filter⟩ ⟨table', filter'⟩ h
  simp only [ofRead, Fingerprint.mk.injEq] at h
  have hfilter := Option.map_injective (fun _ _ => Predicate.canonical_injective) h.2
  rw [h.1, hfilter]

end Fingerprint
end TableStore
