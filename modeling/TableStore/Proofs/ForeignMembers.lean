import TableStore.Proofs.Encoding
import TableStore.Proofs.Files
import TableStore.Proofs.Parsing

/-!
Registry documents that hold more than a registry. Members that a schema or a column does not
know, from older versions or from elsewhere, are passed over when the document is read, and are
gone when it is written.
-/

namespace TableStore

variable {own : List (String × Json)} {added : Set (String × Json)}
  {members : List (String × Json)} {key : String} {value j : Json}

/-- An object with these members. -/
def Json.ofMembers (members : List (String × Json)) : Json :=
  .object (members.map fun m => (some m.1, m.2))

theorem Json.namedMembers?_ofMembers (members : List (String × Json)) :
    (ofMembers members).namedMembers? = some members :=
  namedMembers?_object members

/-- What becomes of the members of an object when members under other keys are added anywhere
among them, any number of times, and all of them are put in another order. -/
inductive Extends (own : List (String × Json)) (added : Set (String × Json)) :
    List (String × Json) → Prop where
  | own : Extends own added own
  | add {front rest : List (String × Json)} {m : String × Json}
      (before : Extends own added (front ++ rest)) (mem : m ∈ added)
      (foreign : m.1 ∉ own.map Prod.fst) : Extends own added (front ++ m :: rest)
  | reorder {members members' : List (String × Json)} (before : Extends own added members)
      (perm : members'.Perm members) : Extends own added members'

/-- A document of a column with members that are added to its own. -/
def Column.Decorated (added : Set (String × Json)) (c : Column) (j : Json) : Prop :=
  ∃ members, j = .ofMembers members ∧
    Extends [("name", .text (some c.name)), ("type", c.type.toJson)] added members

/-- A document of a schema with members that are added to its own and to those of its columns. -/
def Schema.Decorated (added : Set (String × Json)) (columns : List Column) (j : Json) : Prop :=
  ∃ items members, List.Forall₂ (Column.Decorated added) columns items ∧
    j = .ofMembers members ∧ Extends [("columns", .array items)] added members

/-- A document of a registry with members that are added to its schemas and their columns. -/
def Registry.Decorated (added : Set (String × Json)) (r : Registry) (j : Json) : Prop :=
  ∃ members, j = .ofMembers members ∧
    List.Forall₂ (fun t m => m.1 = t.1 ∧ Schema.Decorated added t.2 m.2) r.tables.entries members

/-! ## Known members -/

/-- Under a key of its own an object has what it had at first. -/
theorem Extends.filter_perm (h : Extends own added members) (hkey : key ∈ own.map Prod.fst) :
    (members.filter (·.1 = key)).Perm (own.filter (·.1 = key)) := by
  induction h with
  | own => exact .refl _
  | @add front rest m _ _ foreign ih =>
      have hm : m.1 ≠ key := fun he => foreign (he ▸ hkey)
      rw [List.filter_append] at ih ⊢
      rwa [List.filter_cons_of_neg (by simpa using hm)]
  | reorder _ perm ih => exact (perm.filter _).trans ih

theorem Extends.single? (h : Extends own added members)
    (hown : own.filter (·.1 = key) = [(key, value)]) :
    Json.single? key members = some value := by
  have hkey : key ∈ own.map Prod.fst := by
    have hmem : (key, value) ∈ own.filter (·.1 = key) := hown ▸ List.mem_singleton_self _
    exact List.mem_map_of_mem (List.mem_of_mem_filter hmem)
  have hperm := h.filter_perm hkey
  rw [hown, List.perm_singleton] at hperm
  rw [Json.single?, hperm]

/-! ## Reading -/

theorem Column.ofJson?_of_decorated {c : Column} (h : Decorated added c j) :
    ofJson? j = some c := by
  obtain ⟨members, rfl, h⟩ := h
  have hname : Json.single? "name" members = some (.text (some c.name)) := h.single? rfl
  have htype : Json.single? "type" members = some c.type.toJson := h.single? rfl
  change (do
    let members ← (Json.ofMembers members).namedMembers?
    ofJson?.ofParts? (← Json.single? "name" members) (← Json.single? "type" members)) = some c
  simp only [Json.namedMembers?_ofMembers, Option.bind_eq_bind, Option.bind_some, hname, htype,
    ofJson?.ofParts?, Json.asText?, DataType.ofJson?_toJson]
  rfl

theorem Schema.columnsOfJson?_of_decorated {columns : List Column}
    (h : Decorated added columns j) : columnsOfJson? j = some columns := by
  obtain ⟨items, members, hitems, rfl, h⟩ := h
  have hcolumns : Json.single? "columns" members = some (.array items) := h.single? rfl
  change (do
    let members ← (Json.ofMembers members).namedMembers?
    columnsOfJson?.ofItems? (← Json.single? "columns" members)) = some columns
  simp only [Json.namedMembers?_ofMembers, Option.bind_eq_bind, Option.bind_some, hcolumns,
    columnsOfJson?.ofItems?, Json.items?]
  exact mapM_eq_some.mpr (hitems.flip.imp fun _ _ => Column.ofJson?_of_decorated)

theorem Registry.ofJson?_of_decorated {r : Registry} (h : Decorated added r j) :
    ofJson? j = some r := by
  obtain ⟨members, rfl, hmembers⟩ := h
  have hread : ofJson? (.ofMembers members) = ((Json.ofMembers members).namedMembers? >>=
      List.mapM fun m => (Schema.columnsOfJson? m.2).map (m.1, ·)) >>= fun tables =>
        some ⟨.ofList tables⟩ := (bind_assoc _ _ _).symm
  have htables : ((Json.ofMembers members).namedMembers? >>=
      List.mapM fun m => (Schema.columnsOfJson? m.2).map (m.1, ·)) = some r.tables.entries := by
    refine Json.mapMembers_eq_some.mpr ⟨_, rfl, ?_⟩
    rw [List.forall₂_map_left_iff]
    exact hmembers.flip.imp fun _ _ ⟨hname, hschema⟩ =>
      ⟨congrArg some hname, Schema.columnsOfJson?_of_decorated hschema⟩
  rw [hread, htables]
  exact congrArg (fun m => some (Registry.mk m)) KeyedList.ofList_entries

/-! ## Writing -/

/-- What is written has no members but those that are known. -/
theorem Registry.decorated_toJson (r : Registry) : Decorated ∅ r r.toJson := by
  have hcolumn (c : Column) : Column.Decorated ∅ c c.toJson := ⟨_, rfl, .own⟩
  have hschema (columns : List Column) :
      Schema.Decorated ∅ columns (Schema.columnsToJson columns) := by
    refine ⟨columns.map Column.toJson, _, ?_, rfl, .own⟩
    exact List.forall₂_map_right_iff.mpr (List.forall₂_same.mpr fun c _ => hcolumn c)
  refine ⟨r.tables.entries.map fun t => (t.1, Schema.columnsToJson t.2), ?_, ?_⟩
  · rw [Json.ofMembers, List.map_map]
    rfl
  · exact List.forall₂_map_right_iff.mpr (List.forall₂_same.mpr fun t _ => ⟨rfl, hschema t.2⟩)

/-- Members that a schema or a column does not know never affect the registry. They may be added
to the encoding of a registry at any places, any number of times, with any values, and the members
of a schema or a column may stand in any order, and there may be white space anywhere between
tokens: the registry is read from every text of such a document. When it is saved, the file has
its own encoding, in which no member has been added. -/
theorem registry_ignores_foreign :
    (∀ (added : Set (String × Json)) (r : Registry) (j : Json) (text : String),
      r.Decorated added j → text.toList ∈ j.texts →
      Document.parse? text = some r ∧
      ∀ s : FileStorage, s.files.read s.layout.metadataFile = .ok text.toUTF8 →
        Storage.loadRegistry s = .ok ⟨r, none⟩ s) ∧
    ∀ (r : Registry) (s s' : FileStorage), Storage.saveRegistry r s = .ok () s' →
      ∃ text : String, s'.files.read s'.layout.metadataFile = .ok text.toUTF8 ∧
        text = Document.pretty r ∧ text.toList ∈ r.toJson.texts ∧ r.Decorated ∅ r.toJson := by
  refine ⟨fun added r j text hj htext => ?_, fun r s s' h => ?_⟩
  · have hparse : Document.parse? text = some r := by
      rw [Document.parse?, Json.ofText?_eq_some.mpr htext]
      exact Registry.ofJson?_of_decorated hj
    refine ⟨hparse, fun s hs => FileStorage.loadRegistry_of_read hs ?_⟩
    rwa [Document.decode?_toUTF8]
  · obtain ⟨hlayout, hread⟩ := FileStorage.read_of_saveRegistry h
    refine ⟨Document.pretty r, hlayout ▸ hread, rfl, ?_, r.decorated_toJson⟩
    exact Json.ofText?_eq_some.mp (Json.ofText?_pretty _)

/-- A schema as an older version wrote it, with its rows in front of its columns. -/
theorem registry_ignores_foreign_legacyRows :
    let rows : String × Json := ("rows", .array [.object []])
    let r : Registry := ⟨.ofList [("users", [.id])]⟩
    let j : Json := .ofMembers
      [("users", .ofMembers [rows, ("columns", .array [Column.id.toJson])])]
    r.Decorated {rows} j ∧ j.pretty.toList ∈ j.texts ∧ Document.parse? j.pretty = some r := by
  intro rows r j
  have hschema : Schema.Decorated {rows} [.id]
      (.ofMembers [rows, ("columns", .array [Column.id.toJson])]) :=
    ⟨_, _, .cons ⟨_, rfl, .own⟩ .nil, rfl, @Extends.add _ _ [] _ rows .own rfl (by decide)⟩
  have hdecorated : r.Decorated {rows} j := ⟨_, rfl, .cons ⟨rfl, hschema⟩ .nil⟩
  have htext : j.pretty.toList ∈ j.texts := Json.ofText?_eq_some.mp (Json.ofText?_pretty j)
  exact ⟨hdecorated, htext, (registry_ignores_foreign.1 _ r j _ hdecorated htext).1⟩

end TableStore
