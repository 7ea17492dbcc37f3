import TableStore.Proofs.Encoding
import TableStore.Proofs.Files
import TableStore.Proofs.Parsing

/-!
The language of table documents: the texts that are read as rows, with the rows that each of them
stands for. Every other file is damaged.
-/

namespace TableStore

/-! ## Values -/

namespace Value

/-- The JSON of a value: a string, a truth value, or an integer in digits alone that has 64 bits
and is not the zero with a sign. -/
inductive Literal : Json → Value → Prop where
  | text (s : String) : Literal (.text (some s)) (.text s)
  | boolean (b : Bool) : Literal (.boolean b) (.boolean b)
  | integer {negative : Bool} {n : Nat} {i : Int} (signed : negative → n ≠ 0)
      (value : i = if negative then -(n : Int) else n) (low : Int64.minValue.toInt ≤ i)
      (high : i ≤ Int64.maxValue.toInt) :
      Literal (.number (.whole negative n)) (.integer (Int64.ofInt i))

theorem toInt?_eq_some {m : Json.Number} {i : Int} : m.toInt? = some i ↔
    ∃ negative n, m = .whole negative n ∧ (negative → n ≠ 0) ∧
      i = if negative then -(n : Int) else n := by
  constructor
  · intro h
    unfold Json.Number.toInt? at h
    split at h
    · cases h
    · next n hn =>
        cases h
        exact ⟨true, n, rfl, fun _ => hn, rfl⟩
    · cases h
      exact ⟨false, _, rfl, nofun, rfl⟩
    · cases h
  · rintro ⟨negative, n, rfl, hsigned, rfl⟩
    cases negative with
    | false => rfl
    | true =>
        cases n with
        | zero => exact absurd rfl (hsigned rfl)
        | succ n => rfl

theorem ofJson?_eq_some {j : Json} {v : Value} : ofJson? j = some v ↔ Literal j v := by
  constructor
  · intro h
    unfold ofJson? at h
    split at h
    · cases h
      exact .boolean _
    · obtain ⟨s, rfl, rfl⟩ := Option.map_eq_some_iff.mp h
      exact .text s
    · obtain ⟨i, hi, h⟩ := Option.bind_eq_some_iff.mp h
      obtain ⟨⟨hlow, hhigh⟩, hv⟩ := Option.ite_none_right_eq_some.mp h
      obtain ⟨negative, n, rfl, hsigned, hvalue⟩ := toInt?_eq_some.mp hi
      cases hv
      exact .integer hsigned hvalue hlow hhigh
    · cases h
  · rintro (_ | _ | ⟨hsigned, hvalue, hlow, hhigh⟩)
    · rfl
    · rfl
    · have hi := toInt?_eq_some.mpr ⟨_, _, rfl, hsigned, hvalue⟩
      rw [ofJson?, hi]
      exact if_pos ⟨hlow, hhigh⟩

end Value

/-! ## Rows -/

/-- An object that has a value under each of these names in order, repeated ones too. -/
def Row.Members (j : Json) (pairs : List (String × Value)) : Prop :=
  ∃ members, j = .object members ∧
    List.Forall₂ (fun m p => m.1 = some p.1 ∧ Value.Literal m.2 p.2) members pairs

/-- An array of objects, each with the members of a row. -/
def Rows.Items (j : Json) (rows : List Row) : Prop :=
  ∃ items, j = .array items ∧
    List.Forall₂ (fun i r => ∃ pairs, Row.Members i pairs ∧ r = Row.ofPairs pairs) items rows

/-- The texts of a list of rows. -/
def Rows.texts (rows : List Row) : Language Char :=
  {cs | ∃ j, cs ∈ Json.texts j ∧ Rows.Items j rows}

theorem Row.ofJson?_eq_some {j : Json} {r : Row} :
    ofJson? j = some r ↔ ∃ pairs, Members j pairs ∧ r = ofPairs pairs := by
  have hread : ofJson? j = (j.namedMembers? >>= List.mapM fun m =>
      (Value.ofJson? m.2).map (m.1, ·)) >>= fun pairs => some (ofPairs pairs) :=
    (bind_assoc _ _ _).symm
  rw [hread, Option.bind_eq_bind, Option.bind_eq_some_iff]
  simp only [Json.mapMembers_eq_some, Value.ofJson?_eq_some, Members, Option.some.injEq,
    eq_comm (a := r)]

theorem Rows.ofJson?_eq_some {j : Json} {rows : List Row} :
    ofJson? j = some rows ↔ Items j rows := by
  rw [ofJson?, Items]
  unfold Json.items?
  split
  · next items =>
      simp only [Option.bind_eq_bind, Option.bind_some, mapM_eq_some, Row.ofJson?_eq_some,
        Json.array.injEq, exists_eq_left']
  · next harray =>
      refine iff_of_false nofun ?_
      rintro ⟨items, rfl, -⟩
      exact harray items rfl

/-! ## Texts -/

theorem Rows.parse?_eq_some {text : String} {rows : List Row} :
    Document.parse? text = some rows ↔ text.toList ∈ texts rows := by
  rw [Document.parse?, Option.bind_eq_bind, Option.bind_eq_some_iff]
  exact exists_congr fun j => and_congr Json.ofText?_eq_some ofJson?_eq_some

namespace Json

variable {content : Option String}

theorem text_mem_moreItems {items : List Json} (h : .text content ∈ moreItems items) :
    ∃ i ∈ items, .text content ∈ i.tokens := by
  induction items with
  | nil => cases h
  | cons i items ih =>
      rw [moreItems, List.mem_cons, List.mem_append] at h
      obtain h | h := h.resolve_left nofun
      · exact ⟨i, List.mem_cons_self, h⟩
      · obtain ⟨i', hi, h⟩ := ih h
        exact ⟨i', List.mem_cons_of_mem _ hi, h⟩

theorem text_mem_moreMembers {members : List (Option String × Json)}
    (h : .text content ∈ moreMembers members) :
    ∃ m ∈ members, content = m.1 ∨ .text content ∈ m.2.tokens := by
  induction members with
  | nil => cases h
  | cons m members ih =>
      obtain ⟨key, j⟩ := m
      simp only [moreMembers, List.mem_cons, List.mem_append, reduceCtorEq, false_or,
        Token.text.injEq] at h
      obtain h | h | h := h
      · exact ⟨(key, j), List.mem_cons_self, .inl h⟩
      · exact ⟨(key, j), List.mem_cons_self, .inr h⟩
      · obtain ⟨m, hm, h⟩ := ih h
        exact ⟨m, List.mem_cons_of_mem _ hm, h⟩

/-- An array has no string literals but those of its items. -/
theorem text_mem_array {items : List Json} (h : .text content ∈ (array items).tokens) :
    ∃ i ∈ items, .text content ∈ i.tokens := by
  cases items with
  | nil => simp [tokens] at h
  | cons i items =>
      apply text_mem_moreItems
      simpa [tokens, moreItems] using h

theorem text_mem_object {members : List (Option String × Json)}
    (h : .text content ∈ (object members).tokens) :
    ∃ m ∈ members, content = m.1 ∨ .text content ∈ m.2.tokens := by
  cases members with
  | nil => simp [tokens] at h
  | cons m members =>
      apply text_mem_moreMembers
      simpa [tokens, moreMembers] using h

end Json

/-- All string literals of rows stand for texts. -/
theorem Rows.text_none_not_mem {j : Json} {rows : List Row} (h : Items j rows) :
    Json.Token.text none ∉ j.tokens := by
  obtain ⟨items, rfl, hitems⟩ := h
  intro hmem
  obtain ⟨i, hi, hmem⟩ := Json.text_mem_array hmem
  obtain ⟨r, -, pairs, ⟨members, rfl, hmembers⟩, -⟩ := exists_mem_of_forall₂ hitems hi
  obtain ⟨m, hm, hmem⟩ := Json.text_mem_object hmem
  obtain ⟨⟨name, v⟩, -, hname, hvalue⟩ := exists_mem_of_forall₂ hmembers hm
  obtain hmem | hmem := hmem
  · cases hmem.trans hname
  · obtain ⟨key, value⟩ := m
    cases hvalue <;> simp [Json.tokens] at hmem

/-- The files of a list of rows hold its texts. -/
theorem Rows.decode?_eq_some {bytes : ByteArray} {rows : List Row} :
    Document.decode? bytes = some rows ↔
      ∃ text : String, bytes = text.toUTF8 ∧ text.toList ∈ texts rows := by
  constructor
  · intro h
    obtain ⟨j, hj, hrows⟩ := Option.bind_eq_some_iff.mp h
    obtain ⟨ts, hts, htokens⟩ := Option.bind_eq_some_iff.mp hj
    have hnone := text_none_not_mem (ofJson?_eq_some.mp hrows)
    rw [← Json.ofTokens?_eq_some.mp htokens] at hnone
    obtain ⟨text, htext⟩ := Json.Token.eq_characters_of_scan? hts hnone
    obtain rfl := Text.eq_toUTF8_of_readUtf8 htext
    rw [Document.decode?_toUTF8] at h
    exact ⟨text, rfl, parse?_eq_some.mp h⟩
  · rintro ⟨text, rfl, h⟩
    rw [Document.decode?_toUTF8]
    exact parse?_eq_some.mpr h

/-! ## Files -/

theorem FileStorage.loadTable_of_read {s : FileStorage} {table : String} {file : Path}
    {bytes : ByteArray} (hfile : s.layout.tableFile table = .ok file)
    (hread : s.files.read file = .ok bytes) :
    Storage.loadTable table s = .ok (match Document.decode? bytes with
      | some rows => ⟨rows, none⟩
      | none => ⟨[], some (.storageCorrupt file "not a document of its kind")⟩) s := by
  refine onFiles_eq_ok.mpr ⟨?_, rfl⟩
  rw [bind_apply, hfile]
  change FileSystem.loadDocument file s.files = _
  simp only [FileSystem.loadDocument, hread]
  cases (Document.decode? bytes : Option (List Row)) <;> rfl

/-- The decoder of table documents accepts exactly their language. A text is read as rows just if
it is a JSON array, with white space around it and between its tokens, of objects whose members
are all strings, truth values or integers of 64 bits in digits alone, other than the zero with a
sign. Each row is made by inserting the members of its object in order: a repeated name stays in
its first place and takes its last value. The file of a table is loaded as the rows of the text in
it, and is reported as damaged and loaded as no rows if it holds anything else. -/
theorem tableDocument_exact :
    (∀ (text : String) (rows : List Row),
      Document.parse? text = some rows ↔ text.toList ∈ Rows.texts rows) ∧
    (∀ pairs : List (String × Value),
      (Row.ofPairs pairs).names = (pairs.map Prod.fst).eraseDups ∧
      ∀ name, (Row.ofPairs pairs).get? name = KeyedList.lookupIn name pairs.reverse) ∧
    ∀ (s : FileStorage) (table : String) (file : Path) (bytes : ByteArray),
      s.layout.tableFile table = .ok file → s.files.read file = .ok bytes →
      (∀ rows, Storage.loadTable table s = .ok ⟨rows, none⟩ s ↔
        ∃ text : String, bytes = text.toUTF8 ∧ text.toList ∈ Rows.texts rows) ∧
      ((∀ (text : String) (rows : List Row), bytes = text.toUTF8 → text.toList ∉ Rows.texts rows) →
        ∃ detail, Storage.loadTable table s = .ok ⟨[], some (.storageCorrupt file detail)⟩ s) := by
  refine ⟨fun _ _ => Rows.parse?_eq_some, fun pairs => ⟨?_, fun name => ?_⟩, ?_⟩
  · have h := KeyedList.keys_insertAll_eraseDups .empty pairs
    rw [List.filter_eq_self.mpr fun _ _ => by rfl] at h
    exact h
  · have h := KeyedList.get?_insertAll .empty pairs name
    rwa [KeyedList.get?_empty, Option.or_none] at h
  · intro s table file bytes hfile hread
    rw [FileStorage.loadTable_of_read hfile hread]
    simp only [← Rows.decode?_eq_some]
    refine ⟨fun rows => ?_, fun hnot => ?_⟩
    · cases (Document.decode? bytes : Option (List Row)) <;> simp
    · have hnone : Document.decode? bytes = (none : Option (List Row)) := by
        refine Option.eq_none_iff_forall_ne_some.mpr fun rows h => ?_
        obtain ⟨text, rfl, htext⟩ := Rows.decode?_eq_some.mp h
        exact hnot text rows rfl htext
      rw [hnone]
      exact ⟨_, rfl⟩

end TableStore
