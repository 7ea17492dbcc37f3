import Mathlib.Data.List.Nodup
import TableStore.Proofs.Contents
import TableStore.Proofs.Definition
import TableStore.Proofs.KeyedList
import TableStore.Proofs.Plan

/-!
Well-formed contents: schemas as definitions make them, rows that fit the schemas, identities
that grow along each table, and no rows without a table. Checked requests preserve this, and
it holds between the two saves of a command as well.
-/

namespace TableStore

/-! ## What is well-formed -/

/-- A schema has the identity column in front, and its other columns have distinct names. -/
structure Schema.WellFormed (s : Schema) : Prop where
  identifier : Text.isIdentifier s.name
  columns : s.columns = .id :: s.dataColumns
  identifiers : ∀ c ∈ s.dataColumns, Text.isIdentifier c.name
  fresh : idColumn ∉ s.dataColumns.map Column.name
  distinct : (s.dataColumns.map Column.name).Nodup

/-- A row has exactly these columns, in this order, with values of their types. -/
structure Row.Fits (columns : List Column) (r : Row) : Prop where
  names : r.names = columns.map Column.name
  conforms : ∀ c ∈ columns, ∃ v, r.get? c.name = some v ∧ v.conformsTo c.type

/-- Rows fit the schema, and their identities are positive and strictly increasing. -/
structure Rows.WellFormed (s : Schema) (rows : List Row) : Prop where
  fits : ∀ r ∈ rows, r.Fits s.columns
  positive : ∀ r ∈ rows, ∃ id, r.id? = some id ∧ 1 ≤ id
  increasing : (rows.filterMap Row.id?).Pairwise (· < ·)

structure Contents.WellFormed (d : Contents) : Prop where
  distinct : d.registry.names.Nodup
  identifiers : ∀ table ∈ d.registry.names, Text.isIdentifier table
  schemas : ∀ table s, d.registry.get? table = some s → s.name = table ∧ s.WellFormed
  rows : ∀ table s, d.registry.get? table = some s → Rows.WellFormed s (d.rows table)

/-- The tables that have rows, perhaps none, are the registered ones. -/
def Contents.Matched (d : Contents) : Prop :=
  ∀ table, (d.rows? table).isSome = d.registry.contains table

/-! ## Schemas -/

namespace Schema

theorem define_wellFormed {table : String} {specs : List ColumnSpec} {s : Schema}
    (h : define table specs = .ok s) : s.WellFormed := by
  obtain ⟨request, columns, hasked, rfl⟩ := define_eq_ok.mp h
  have hnames := names_asked hasked
  have hidentifiers : ∀ c ∈ columns, Text.isIdentifier c.name := by
    intro c hc
    have hmem : c.name ∈ specs.map ColumnSpec.name := hnames ▸ List.mem_map_of_mem hc
    obtain ⟨spec, hspec, he⟩ := List.mem_map.mp hmem
    exact Text.isIdentifier_iff.mpr (he ▸ request.identifiers spec hspec)
  exact ⟨Text.isIdentifier_iff.mpr request.identifier, rfl, hidentifiers,
    hnames ▸ request.fresh, hnames ▸ request.distinct⟩

theorem mem_of_columnType {s : Schema} {name : String} {type : DataType}
    (h : s.columnType name = .ok type) : ∃ c ∈ s.columns, c.name = name ∧ c.type = type := by
  rw [columnType] at h
  split at h
  · next c hc =>
      cases h
      exact ⟨c, List.mem_of_find?_eq_some hc, by simpa using List.find?_some hc, rfl⟩
  · cases h

theorem WellFormed.nodup {s : Schema} (h : s.WellFormed) : (s.columns.map Column.name).Nodup := by
  rw [h.columns]
  exact List.nodup_cons.mpr ⟨h.fresh, h.distinct⟩

end Schema

/-! ## Rows -/

namespace Row

variable {columns : List Column} {r : Row}

/-- Values of the right types may be set in a row that fits. -/
theorem Fits.insertAll (h : r.Fits columns) (hd : (columns.map Column.name).Nodup)
    {pairs : List (String × Value)}
    (hp : ∀ p ∈ pairs, ∃ c ∈ columns, c.name = p.1 ∧ p.2.conformsTo c.type) :
    (r.insertAll pairs).Fits columns := by
  constructor
  · refine (KeyedList.keys_insertAll_of_mem ?_).trans h.names
    intro p hm
    obtain ⟨c, hc, he, -⟩ := hp p hm
    rw [show r.columns.keys = columns.map Column.name from h.names, ← he]
    exact List.mem_map_of_mem hc
  · intro c hc
    by_cases hm : c.name ∈ pairs.map Prod.fst
    · obtain ⟨v, hv, hg⟩ := KeyedList.get?_insertAll_of_mem (m := r.columns) hm
      obtain ⟨c', hc', he, ht⟩ := hp _ hv
      cases List.inj_on_of_nodup_map hd hc' hc he
      exact ⟨v, hg, ht⟩
    · obtain ⟨v, hg, ht⟩ := h.conforms c hc
      exact ⟨v, (KeyedList.get?_insertAll_of_not_mem hm).trans hg, ht⟩

theorem id?_insertAll {pairs : List (String × Value)} (h : idColumn ∉ pairs.map Prod.fst) :
    (r.insertAll pairs).id? = r.id? := by
  simp only [id?, get?, Row.insertAll]
  rw [KeyedList.get?_insertAll_of_not_mem h]

end Row

theorem checkValues_eq_ok {table : String} {columns : List Column} {values : List Value} :
    checkValues table columns values = .ok () ↔
      values.length = columns.length ∧ ∀ p ∈ columns.zip values, p.2.conformsTo p.1.type := by
  rw [checkValues]
  split
  · next h => simp [h]
  · next h =>
      rw [forM_eq_ok, and_iff_right (by simpa using h)]
      refine forall₂_congr fun ⟨c, v⟩ _ => ?_
      simp only
      cases v.conformsTo c.type <;> simp

theorem mem_of_checkAssignments {table : String} {s : Schema} {assignments : SetClause}
    (h : checkAssignments table s assignments = .ok ()) :
    ∀ p ∈ assignments.entries,
      p.1 ≠ idColumn ∧ ∃ c ∈ s.columns, c.name = p.1 ∧ p.2.conformsTo c.type := by
  rw [checkAssignments] at h
  split at h
  · cases h
  · intro p hp
    obtain ⟨expected, he, h⟩ := exceptBind_eq_ok.mp (forM_eq_ok.mp h p hp)
    obtain ⟨c, hc, hn, rfl⟩ := Schema.mem_of_columnType he
    split at h
    · cases h
    · next hid =>
        split at h
        · next ht => exact ⟨hid, c, hc, hn, ht⟩
        · cases h

section
variable {s : Schema} {id : Int64} {values : List Value}

theorem columns_newRow (hf : idColumn ∉ s.dataColumns.map Column.name)
    (hd : (s.dataColumns.map Column.name).Nodup) (hl : values.length = s.dataColumns.length) :
    (newRow id s.dataColumns values).columns.entries =
      (idColumn, .integer id) :: (s.dataColumns.map Column.name).zip values := by
  have hz : ((s.dataColumns.map Column.name).zip values).map Prod.fst =
      s.dataColumns.map Column.name := List.map_fst_zip (by simp [hl])
  refine (KeyedList.entries_insertAll_of_not_mem ?_ (by rw [hz]; exact hd)).trans rfl
  intro p hp hk
  have hk : p.1 = idColumn := List.mem_singleton.mp hk
  refine hf ?_
  rw [← hz, ← hk]
  exact List.mem_map_of_mem hp

theorem id?_newRow (h : s.WellFormed) (hl : values.length = s.dataColumns.length) :
    (newRow id s.dataColumns values).id? = some id := by
  simp only [Row.id?, Row.get?, KeyedList.get?, columns_newRow h.fresh h.distinct hl,
    KeyedList.lookupIn, ite_true]
  rfl

theorem newRow_fits (h : s.WellFormed)
    (hv : checkValues s.name s.dataColumns values = .ok ()) :
    (newRow id s.dataColumns values).Fits s.columns := by
  obtain ⟨hl, ht⟩ := checkValues_eq_ok.mp hv
  have hz : ((s.dataColumns.map Column.name).zip values).map Prod.fst =
      s.dataColumns.map Column.name := List.map_fst_zip (by simp [hl])
  rw [h.columns]
  constructor
  · rw [Row.names, KeyedList.keys, columns_newRow h.fresh h.distinct hl, List.map_cons, hz]
    rfl
  · intro c hc
    obtain rfl | hc := List.mem_cons.mp hc
    · refine ⟨.integer id, ?_, rfl⟩
      rw [Row.get?, KeyedList.get?, columns_newRow h.fresh h.distinct hl]
      rfl
    · obtain ⟨v, hv, hg⟩ := KeyedList.get?_insertAll_of_mem (m := (Row.withId id).columns)
        (hz.symm ▸ List.mem_map_of_mem hc)
      refine ⟨v, hg, ?_⟩
      rw [List.zip_map_left] at hv
      obtain ⟨⟨c', v'⟩, hm, he⟩ := List.mem_map.mp hv
      obtain ⟨hn, rfl⟩ := Prod.mk.inj he
      cases List.inj_on_of_nodup_map h.distinct (List.of_mem_zip hm).1 hc hn
      exact ht _ hm

end

/-! ## Identities -/

/-- Below the largest integer of 64 bits the sum does not wrap around. -/
theorem Int64.toInt_add_one {i : Int64} (h : i ≠ Int64.maxValue) :
    (i + 1).toInt = i.toInt + 1 := by
  have hne : i.toInt ≠ Int64.maxValue.toInt := fun he => h (Int64.toInt_inj.mp he)
  have hmax : Int64.maxValue.toInt = 2 ^ 63 - 1 := rfl
  have hone : (1 : Int64).toInt = 1 := rfl
  have hlt := i.toInt_lt
  have hge := i.le_toInt
  rw [Int64.toInt_add, hone, Int.bmod_eq_of_le] <;> omega

theorem Int64.lt_add_one {i : Int64} (h : i ≠ Int64.maxValue) : i < i + 1 := by
  rw [Int64.lt_iff_toInt_lt, toInt_add_one h]
  exact Int.lt_add_one_of_le (Int.le_refl _)

instance lawfulOrderMax_int64 : Std.LawfulOrderMax Int64 := by
  refine Std.LawfulOrderMax.of_max_le_iff (fun a b c => ?_) fun a b => ?_
  · change (if a ≤ b then b else a) ≤ c ↔ _
    split <;> simp only [Int64.le_iff_toInt_le] at * <;> omega
  · change (if a ≤ b then b else a) = a ∨ (if a ≤ b then b else a) = b
    split
    · exact .inr rfl
    · exact .inl rfl

/-- A new identity is above all that are there. -/
theorem lt_of_nextId {table : String} {rows : List Row} {id : Int64}
    (h : nextId table rows = .ok id) : ∀ i ∈ rows.filterMap Row.id?, i < id := by
  rw [nextId] at h
  split at h
  · next hn =>
      rw [List.max?_eq_none_iff.mp hn]
      nofun
  · next m hm =>
      split at h
      · cases h
      · next hne =>
          cases h
          intro i hi
          have hle := (List.max?_eq_some_iff.mp hm).2 i hi
          have hlt := Int64.lt_add_one hne
          rw [Int64.le_iff_toInt_le] at hle
          rw [Int64.lt_iff_toInt_lt] at hlt ⊢
          omega

/-- A new identity is positive if all that are there are. -/
theorem one_le_nextId {table : String} {rows : List Row} {id : Int64}
    (h : nextId table rows = .ok id) (hp : ∀ i ∈ rows.filterMap Row.id?, 1 ≤ i) : 1 ≤ id := by
  have hlt := lt_of_nextId h
  cases hi : rows.filterMap Row.id? with
  | nil =>
      rw [nextId, hi] at h
      cases h
      decide
  | cons i is =>
      have h1 := hp i (hi ▸ List.mem_cons_self)
      have h2 := hlt i (hi ▸ List.mem_cons_self)
      rw [Int64.le_iff_toInt_le] at h1 ⊢
      rw [Int64.lt_iff_toInt_lt] at h2
      omega

/-! ## Tables -/

namespace Rows

variable {s : Schema} {rows : List Row}

theorem wellFormed_nil : WellFormed s [] := ⟨nofun, nofun, .nil⟩

theorem WellFormed.one_le (h : WellFormed s rows) : ∀ i ∈ rows.filterMap Row.id?, 1 ≤ i := by
  intro i hi
  obtain ⟨r, hr, he⟩ := List.mem_filterMap.mp hi
  obtain ⟨id, hid, h1⟩ := h.positive r hr
  cases he.symm.trans hid
  exact h1

theorem WellFormed.append (h : WellFormed s rows) (hs : s.WellFormed) {table : String} {id : Int64}
    {values : List Value} (hid : nextId table rows = .ok id)
    (hv : checkValues s.name s.dataColumns values = .ok ()) :
    WellFormed s (rows ++ [newRow id s.dataColumns values]) := by
  have he : (newRow id s.dataColumns values).id? = some id :=
    id?_newRow hs (checkValues_eq_ok.mp hv).1
  refine ⟨?_, ?_, ?_⟩
  · exact List.forall_mem_append.mpr ⟨h.fits, List.forall_mem_singleton.mpr (newRow_fits hs hv)⟩
  · exact List.forall_mem_append.mpr
      ⟨h.positive, List.forall_mem_singleton.mpr ⟨id, he, one_le_nextId hid h.one_le⟩⟩
  · rw [List.filterMap_append, List.filterMap_cons_some he, List.filterMap_nil]
    refine List.pairwise_append.mpr ⟨h.increasing, List.pairwise_singleton _ _, ?_⟩
    intro i hi j hj
    cases List.mem_singleton.mp hj
    exact lt_of_nextId hid i hi

theorem WellFormed.kept (h : WellFormed s rows) (filter : Option Predicate) :
    WellFormed s (keptRows filter rows) := by
  have hsub : (keptRows filter rows).Sublist rows := List.filter_sublist
  exact ⟨fun r hr => h.fits r (hsub.subset hr), fun r hr => h.positive r (hsub.subset hr),
    h.increasing.sublist (hsub.filterMap _)⟩

theorem id?_updated {assignments : SetClause} (ha : idColumn ∉ assignments.entries.map Prod.fst)
    (filter : Option Predicate) (r : Row) :
    (if selects filter r then r.insertAll assignments.entries else r).id? = r.id? := by
  split
  · exact Row.id?_insertAll ha
  · rfl

theorem WellFormed.updated (h : WellFormed s rows) (hs : s.WellFormed) {table : String}
    {assignments : SetClause} (ha : checkAssignments table s assignments = .ok ())
    (filter : Option Predicate) : WellFormed s (updatedRows assignments filter rows) := by
  have ha := mem_of_checkAssignments ha
  have hid : idColumn ∉ assignments.entries.map Prod.fst := by
    intro hm
    obtain ⟨p, hp, he⟩ := List.mem_map.mp hm
    exact (ha p hp).1 he
  refine ⟨?_, ?_, ?_⟩
  · intro r' hr'
    obtain ⟨r, hr, rfl⟩ := List.mem_map.mp hr'
    split
    · exact (h.fits r hr).insertAll hs.nodup fun p hp => (ha p hp).2
    · exact h.fits r hr
  · intro r' hr'
    obtain ⟨r, hr, rfl⟩ := List.mem_map.mp hr'
    rw [id?_updated hid]
    exact h.positive r hr
  · rw [updatedRows, List.filterMap_map]
    have hf : (Row.id? ∘ fun r => if selects filter r then r.insertAll assignments.entries else r) =
        Row.id? := funext (id?_updated hid filter)
    rw [hf]
    exact h.increasing

end Rows

namespace Command

/-- The rows that a command writes over well-formed ones are well-formed. -/
theorem rows_wellFormed_of_visit {c : Command} {registry : Registry} {table : String}
    {visit : Visit} {rows rows' : List Row} {reply : Reply} {s : Schema}
    (hp : c.plan registry = .ok (.visit table visit))
    (hv : visit rows = .ok (reply, some rows')) (hg : registry.get? table = some s)
    (hs : s.WellFormed) (h : Rows.WellFormed s rows) : Rows.WellFormed s rows' := by
  cases planned hp with
  | infoTable _ => cases hv
  | insert hfound hchecked =>
      cases hg.symm.trans (Registry.get?_of_schema hfound)
      obtain ⟨id, hid, hv⟩ := exceptBind_eq_ok.mp hv
      cases hv
      exact h.append hs hid (Registry.schema_name hfound ▸ hchecked)
  | update hfound hchecked _ =>
      cases hg.symm.trans (Registry.get?_of_schema hfound)
      rw [Visit.update] at hv
      split at hv
      · cases hv
        exact h.updated hs hchecked _
      · cases hv
  | delete _ _ =>
      rw [Visit.delete] at hv
      split at hv
      · cases hv
        exact h.kept _
      · cases hv

end Command

/-! ## Contents -/

theorem Registry.contains_eq (r : Registry) (table : String) :
    r.contains table = (r.get? table).isSome := by
  rw [contains, KeyedList.contains, get?, Option.isSome_map]

namespace Contents

variable {d d' : Contents} {table : String} {rows : List Row} {s : Schema}

theorem WellFormed.put (h : d.WellFormed)
    (hr : ∀ s, d.registry.get? table = some s → Rows.WellFormed s rows) :
    (d.put table rows).WellFormed := by
  refine ⟨h.distinct, h.identifiers, h.schemas, fun t s hs => ?_⟩
  rw [rows_put]
  split
  · next ht => subst ht; exact hr s hs
  · exact h.rows t s hs

theorem WellFormed.remove (h : d.WellFormed) : (d.remove table).WellFormed := by
  refine ⟨h.distinct, h.identifiers, h.schemas, fun t s hs => ?_⟩
  rw [rows_remove]
  split
  · exact Rows.wellFormed_nil
  · exact h.rows t s hs

theorem WellFormed.create (h : d.WellFormed) (hs : s.WellFormed)
    (hr : Rows.WellFormed s (d.rows s.name)) : (d.setRegistry (d.registry.insert s)).WellFormed := by
  refine ⟨(d.registry.insert s).tables.nodup, ?_, ?_, ?_⟩
  · intro t ht
    obtain rfl | ht := KeyedList.mem_keys_insert.mp ht
    · exact hs.identifier
    · exact h.identifiers t ht
  all_goals
    intro t s' hg
    rw [setRegistry, Registry.get?_insert] at hg
    split at hg
  · next ht => cases hg; exact ⟨ht.symm, hs⟩
  · exact h.schemas t s' hg
  · next ht => cases hg; subst ht; exact hr
  · exact h.rows t s' hg

theorem WellFormed.drop (h : d.WellFormed) :
    (d.setRegistry (d.registry.erase table)).WellFormed := by
  refine ⟨(d.registry.erase table).tables.nodup,
    fun t ht => h.identifiers t (KeyedList.mem_keys_of_mem_erase ht), ?_, ?_⟩
  all_goals
    intro t s' hg
    rw [setRegistry, Registry.get?_erase] at hg
    split at hg
  · cases hg
  · exact h.schemas t s' hg
  · cases hg
  · exact h.rows t s' hg

theorem empty_wellFormed : empty.WellFormed :=
  ⟨List.nodup_nil, nofun, nofun, nofun⟩

theorem empty_matched : empty.Matched := fun _ => rfl

end Contents

namespace Plan

theorem onStorage_visit (table : String) (next : Visit) (d : Contents) :
    (visit table next).onStorage d =
      match next (d.rows table) with
      | .error e => .error e d
      | .ok (reply, none) => .ok reply d
      | .ok (reply, some rows) => .ok reply (d.put table rows) := by
  simp only [onStorage, Storage.loadRows, bind_apply, pure_apply, Contents.loadTable_apply]
  cases next (d.rows table) with
  | error e => rfl
  | ok found =>
      obtain ⟨reply, write⟩ := found
      cases write <;> rfl

/-- What a plan does to contents when it succeeds. -/
theorem cases_of_onStorage {p : Plan} {d d' : Contents} {reply : Reply}
    (h : p.onStorage d = .ok reply d') :
    ((∀ r, p.onRegistry r = r) ∧ d' = d) ∨
      (∃ table next rows, p = .visit table next ∧ next (d.rows table) = .ok (reply, some rows) ∧
        d' = d.put table rows) ∨
      (∃ s, p = .create s ∧ d' = d.put s.name []) ∨
      ∃ s, p = .drop s ∧ d' = d.remove s.name := by
  cases p with
  | answer _ | scan _ _ => cases h; exact .inl ⟨fun _ => rfl, rfl⟩
  | create s => cases h; exact .inr (.inr (.inl ⟨s, rfl, rfl⟩))
  | drop s => cases h; exact .inr (.inr (.inr ⟨s, rfl, rfl⟩))
  | visit table next =>
      rw [onStorage_visit] at h
      split at h
      · cases h
      · cases h; exact .inl ⟨fun _ => rfl, rfl⟩
      · next rows hn => cases h; exact .inr (.inl ⟨table, next, rows, rfl, hn, rfl⟩)

theorem registry_of_onStorage {p : Plan} {d d' : Contents} {reply : Reply}
    (h : p.onStorage d = .ok reply d') : d'.registry = d.registry := by
  obtain ⟨-, rfl⟩ | ⟨_, _, _, -, -, rfl⟩ | ⟨_, -, rfl⟩ | ⟨_, -, rfl⟩ := cases_of_onStorage h <;> rfl

end Plan

namespace Command

variable {c : Command} {p : Plan} {d d' : Contents} {reply : Reply}

theorem registered_of_visit {r : Registry} {table : String} {next : Visit}
    (hp : c.plan r = .ok (.visit table next)) : (r.get? table).isSome := by
  cases planned hp with
  | infoTable hfound | insert hfound _ | update hfound _ _ | delete hfound _ =>
      rw [Registry.get?_of_schema hfound]
      rfl

/-- The contents are well-formed after a command, and also before the registry is saved. -/
theorem contents_wellFormed (wf : d.WellFormed) (hp : c.plan d.registry = .ok p)
    (h : p.onStorage d = .ok reply d') :
    d'.WellFormed ∧ (d'.setRegistry (p.onRegistry d.registry)).WellFormed := by
  obtain ⟨hr, rfl⟩ | ⟨table, next, rows, rfl, hn, rfl⟩ | ⟨s, rfl, rfl⟩ | ⟨s, rfl, rfl⟩ :=
    Plan.cases_of_onStorage h
  · rw [hr]
    exact ⟨wf, wf⟩
  · have hput : (d.put table rows).WellFormed := wf.put fun s hs =>
      rows_wellFormed_of_visit hp hn hs (wf.schemas table s hs).2 (wf.rows table s hs)
    exact ⟨hput, hput⟩
  · cases planned hp with
    | createTable habsent hdefined =>
        have hput : (d.put s.name []).WellFormed := wf.put fun _ _ => Rows.wellFormed_nil
        refine ⟨hput, hput.create (Schema.define_wellFormed hdefined) ?_⟩
        rw [Contents.rows_put, if_pos rfl]
        exact Rows.wellFormed_nil
  · exact ⟨wf.remove, wf.remove.drop⟩

/-- The tables with rows are the registered ones after a command if they were before. -/
theorem contents_matched (hm : d.Matched) (hp : c.plan d.registry = .ok p)
    (h : p.onStorage d = .ok reply d') :
    (d'.setRegistry (p.onRegistry d.registry)).Matched := by
  obtain ⟨hr, rfl⟩ | ⟨table, next, rows, rfl, hn, rfl⟩ | ⟨s, rfl, rfl⟩ | ⟨s, rfl, rfl⟩ :=
    Plan.cases_of_onStorage h
  · rw [hr]
    exact hm
  · intro t
    change ((d.put table rows).rows? t).isSome = d.registry.contains t
    rw [Contents.rows?_put]
    split
    · next ht => rw [ht, Registry.contains_eq, registered_of_visit hp]; rfl
    · exact hm t
  · intro t
    change ((d.put s.name []).rows? t).isSome = (d.registry.insert s).contains t
    rw [Contents.rows?_put, Registry.contains_eq, Registry.get?_insert]
    split
    · rfl
    · rw [hm, Registry.contains_eq]
  · intro t
    change ((d.remove s.name).rows? t).isSome = (d.registry.erase s.name).contains t
    rw [Contents.rows?_remove, Registry.contains_eq, Registry.get?_erase]
    split
    · rfl
    · rw [hm, Registry.contains_eq]

end Command
end TableStore
