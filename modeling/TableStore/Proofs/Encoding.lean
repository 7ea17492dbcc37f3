import TableStore.Document.File
import TableStore.Proofs.KeyedList
import TableStore.Proofs.Scanning

/-!
Documents are read back as the data they were made from.
-/

namespace TableStore

theorem mapM_map_eq_some {α β : Type} {f : β → Option α} {g : α → β} (h : ∀ a, f (g a) = some a)
    (l : List α) : (l.map g).mapM f = some l := by
  induction l with
  | nil => rfl
  | cons a l ih => rw [List.map_cons, List.mapM_cons, h, ih]; rfl

/-- A list is read item by item. -/
theorem mapM_eq_some {α β : Type} {f : α → Option β} {l : List α} {l' : List β} :
    l.mapM f = some l' ↔ List.Forall₂ (fun a b => f a = some b) l l' := by
  induction l generalizing l' with
  | nil => simp [eq_comm]
  | cons a l ih =>
      rw [List.mapM_cons, List.forall₂_cons_left_iff]
      constructor
      · intro h
        obtain ⟨b, hb, h⟩ := Option.bind_eq_some_iff.mp h
        obtain ⟨bs, hbs, h⟩ := Option.bind_eq_some_iff.mp h
        exact ⟨b, bs, hb, ih.mp hbs, (Option.some.inj h).symm⟩
      · rintro ⟨b, bs, hb, hbs, rfl⟩
        rw [hb, ih.mpr hbs]
        rfl

theorem exists_mem_of_forall₂ {α β : Type} {R : α → β → Prop} {l : List α} {l' : List β}
    (h : List.Forall₂ R l l') {a : α} (ha : a ∈ l) : ∃ b ∈ l', R a b := by
  induction h with
  | nil => cases ha
  | @cons _ b _ _ hr _ ih =>
      obtain rfl | ha := List.mem_cons.mp ha
      · exact ⟨b, List.mem_cons_self, hr⟩
      · obtain ⟨b', hb, hr⟩ := ih ha
        exact ⟨b', List.mem_cons_of_mem _ hb, hr⟩

theorem mapM_bind_mapM {α β γ : Type} {f : α → Option β} {g : β → Option γ} (l : List α) :
    (l.mapM f >>= List.mapM g) = l.mapM fun a => f a >>= g := by
  induction l with
  | nil => rfl
  | cons a l ih =>
      rw [List.mapM_cons, List.mapM_cons, ← ih]
      cases f a with
      | none => rfl
      | some b => cases l.mapM f <;> cases hb : g b <;> simp [List.mapM_cons, hb]

/-- The members of an object are read in order, each under its name. -/
theorem Json.mapMembers_eq_some {β : Type} {f : Json → Option β} {j : Json}
    {pairs : List (String × β)} :
    (j.namedMembers? >>= List.mapM fun m => (f m.2).map (m.1, ·)) = some pairs ↔
      ∃ members, j = .object members ∧
        List.Forall₂ (fun m p => m.1 = some p.1 ∧ f m.2 = some p.2) members pairs := by
  have hmember (m : Option String × Json) (p : String × β) :
      (m.1.map (·, m.2) >>= fun m => (f m.2).map (m.1, ·)) = some p ↔
        m.1 = some p.1 ∧ f m.2 = some p.2 := by
    obtain ⟨key, value⟩ := m
    cases key <;> cases hf : f value <;> simp [hf, Prod.ext_iff]
  unfold namedMembers?
  split
  · next members =>
      rw [mapM_bind_mapM, mapM_eq_some]
      simp only [hmember, object.injEq, exists_eq_left']
  · next hobject =>
      refine iff_of_false nofun ?_
      rintro ⟨members, rfl, -⟩
      exact hobject members rfl

theorem Json.namedMembers?_object (members : List (String × Json)) :
    (Json.object (members.map fun m => (some m.1, m.2))).namedMembers? = some members :=
  mapM_map_eq_some (f := fun m : Option String × Json => m.1.map (·, m.2)) (fun _ => rfl) members

namespace Value

theorem toInt?_ofInt (i : Int) : (Json.Number.ofInt i).toInt? = some i := by
  rw [Json.Number.ofInt]
  by_cases hi : i < 0
  · rw [decide_eq_true hi]
    cases hn : i.natAbs with
    | zero => omega
    | succ n =>
        change some (-((n + 1 : Nat) : Int)) = some i
        rw [← hn]
        congr
        omega
  · rw [decide_eq_false hi]
    change some ((i.natAbs : Nat) : Int) = some i
    congr
    omega

theorem ofJson?_toJson (v : Value) : ofJson? v.toJson = some v := by
  cases v with
  | boolean b => rfl
  | text s => rfl
  | integer i =>
      simp only [ofJson?, toJson, toInt?_ofInt, Option.bind_eq_bind, Option.bind_some]
      rw [if_pos ⟨i.minValue_le_toInt, i.toInt_le⟩, Int64.ofInt_toInt]

end Value

namespace Row

theorem ofJson?_toJson (r : Row) : ofJson? r.toJson = some r := by
  have hm : r.toJson.namedMembers? =
      some (r.columns.entries.map fun c => (c.1, c.2.toJson)) := by
    have := Json.namedMembers?_object (r.columns.entries.map fun c => (c.1, c.2.toJson))
    rwa [List.map_map] at this
  have hp : (r.columns.entries.map fun c => (c.1, c.2.toJson)).mapM
      (fun m => (Value.ofJson? m.2).map (m.1, ·)) = some r.columns.entries :=
    mapM_map_eq_some (fun c => by simp only [Value.ofJson?_toJson, Option.map_some]) _
  simp only [ofJson?, hm, hp, Option.bind_eq_bind, Option.bind_some]
  exact congrArg (fun m => some (Row.mk m)) KeyedList.ofList_entries

end Row

theorem Rows.ofJson?_toJson (rows : List Row) : Rows.ofJson? (Rows.toJson rows) = some rows :=
  mapM_map_eq_some Row.ofJson?_toJson rows

theorem Column.ofJson?_toJson (c : Column) : Column.ofJson? c.toJson = some c := by
  obtain ⟨name, type⟩ := c
  cases type <;> rfl

theorem Schema.columnsOfJson?_columnsToJson (columns : List Column) :
    Schema.columnsOfJson? (Schema.columnsToJson columns) = some columns :=
  mapM_map_eq_some Column.ofJson?_toJson columns

namespace Registry

theorem ofJson?_toJson (r : Registry) : ofJson? r.toJson = some r := by
  have hm : r.toJson.namedMembers? =
      some (r.tables.entries.map fun t => (t.1, Schema.columnsToJson t.2)) := by
    have := Json.namedMembers?_object
      (r.tables.entries.map fun t => (t.1, Schema.columnsToJson t.2))
    rwa [List.map_map] at this
  have hp : (r.tables.entries.map fun t => (t.1, Schema.columnsToJson t.2)).mapM
      (fun m => (Schema.columnsOfJson? m.2).map (m.1, ·)) = some r.tables.entries :=
    mapM_map_eq_some
      (fun t => by simp only [Schema.columnsOfJson?_columnsToJson, Option.map_some]) _
  simp only [ofJson?, hm, hp, Option.bind_eq_bind, Option.bind_some]
  exact congrArg (fun m => some (Registry.mk m)) KeyedList.ofList_entries

end Registry

namespace Document

/-- A document is read back from its bytes if it is read back from its JSON. -/
theorem decode?_encode {α : Type} [Document α] {a : α} (h : ofJson? (toJson a) = some a) :
    decode? (encode a) = some a := by
  rw [encode, decode?_toUTF8, parse?, pretty, Json.ofText?_pretty]
  exact h

theorem decode?_encode_rows (rows : List Row) : decode? (encode rows) = some rows :=
  decode?_encode (Rows.ofJson?_toJson rows)

theorem decode?_encode_registry (r : Registry) : decode? (encode r) = some r :=
  decode?_encode (Registry.ofJson?_toJson r)

end Document
end TableStore
