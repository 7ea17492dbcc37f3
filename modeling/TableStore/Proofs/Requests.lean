import TableStore.Engine
import TableStore.Proofs.Except

/-!
What is wrong with a request. A check of a list reports the first item with which something is
wrong, and of an item the first thing that is wrong with it.
-/

namespace TableStore

/-! ## Errors of requests -/

/-- The error is that of the first item that has one. -/
def FirstWith {α : Type} (wrong : α → Error → Prop) (l : List α) (e : Error) : Prop :=
  ∃ front a rest, l = front ++ a :: rest ∧ (∀ b ∈ front, ∀ e', ¬ wrong b e') ∧ wrong a e

/-- What is wrong with a value of an insertion. -/
inductive WrongValue (table : String) : Column × Value → Error → Prop where
  | type {c v} (differs : v.dataType ≠ c.type) :
      WrongValue table (c, v) (.typeMismatch table c.name c.type v.dataType)

/-- What is wrong with an assignment. If a column occurs twice, the first one counts. -/
inductive WrongAssignment (table : String) (s : Schema) : String × Value → Error → Prop where
  | unknown {column v} (absent : s.column? column = none) :
      WrongAssignment table s (column, v) (.columnNotFound s.name column)
  | readOnly {c v} (found : s.column? idColumn = some c) :
      WrongAssignment table s (idColumn, v) (.readOnlyColumn table idColumn)
  | type {column c v} (found : s.column? column = some c) (other : column ≠ idColumn)
      (differs : v.dataType ≠ c.type) :
      WrongAssignment table s (column, v) (.typeMismatch table column c.type v.dataType)

/-- What is wrong with a filter, if there is one. -/
inductive WrongFilter (s : Schema) : Option Predicate → Error → Prop where
  | unknown {p} (absent : s.column? p.column = none) :
      WrongFilter s (some p) (.columnNotFound s.name p.column)
  | type {p c} (found : s.column? p.column = some c) (differs : p.value.dataType ≠ c.type) :
      WrongFilter s (some p) (.typeMismatch s.name p.column c.type p.value.dataType)

/-! ## Checks -/

section
variable {α ε : Type}

/-- A check that reports nothing passes. -/
theorem eq_ok_iff_forall_ne_error {x : Except ε Unit} : x = .ok () ↔ ∀ e, x ≠ .error e := by
  cases x with
  | ok _ => simp
  | error e => simp

theorem not_firstWith_nil {wrong : α → Error → Prop} {e : Error} : ¬ FirstWith wrong [] e := by
  rintro ⟨front, a, rest, h, -⟩
  cases front <;> cases h

/-- A check that reports what is wrong with an item, made of every item of a list. -/
theorem forM_eq_error_iff_firstWith {wrong : α → Error → Prop} {check : α → Except Error Unit}
    (h : ∀ a e, check a = .error e ↔ wrong a e) {l : List α} {e : Error} :
    l.forM check = .error e ↔ FirstWith wrong l e := by
  rw [forM_eq_error, FirstWith]
  simp only [eq_ok_iff_forall_ne_error, ne_eq, h]

theorem forM_eq_ok_iff_forall_not {wrong : α → Error → Prop} {check : α → Except Error Unit}
    (h : ∀ a e, check a = .error e ↔ wrong a e) {l : List α} :
    l.forM check = .ok () ↔ ∀ a ∈ l, ∀ e, ¬ wrong a e := by
  rw [forM_eq_ok]
  simp only [eq_ok_iff_forall_ne_error, ne_eq, h]

end

variable {table : String} {s : Schema} {e : Error}

theorem Registry.schema_eq_ok {r : Registry} : r.schema table = .ok s ↔ r.get? table = some s := by
  rw [schema]
  cases r.get? table <;> simp

theorem Registry.schema_eq_error {r : Registry} :
    r.schema table = .error e ↔ r.get? table = none ∧ e = .tableNotFound table := by
  rw [schema]
  cases r.get? table <;> simp [eq_comm]

theorem Schema.columnType_eq_ok {name : String} {type : DataType} :
    s.columnType name = .ok type ↔ ∃ c, s.column? name = some c ∧ c.type = type := by
  rw [columnType]
  cases s.column? name <;> simp

theorem Schema.columnType_eq_error {name : String} :
    s.columnType name = .error e ↔ s.column? name = none ∧ e = .columnNotFound s.name name := by
  rw [columnType]
  cases s.column? name <;> simp [eq_comm]

theorem Value.conformsTo_iff {v : Value} {type : DataType} :
    v.conformsTo type ↔ v.dataType = type := by
  rw [conformsTo, decide_eq_true_iff]

theorem check_value_eq_error {p : Column × Value} :
    (if p.2.conformsTo p.1.type then .ok ()
      else .error (.typeMismatch table p.1.name p.1.type p.2.dataType) : Except Error Unit) =
        .error e ↔ WrongValue table p e := by
  simp only [Value.conformsTo_iff]
  constructor
  · intro h
    split at h
    · cases h
    · next hd =>
        cases h
        exact .type hd
  · rintro ⟨hd⟩
    rw [if_neg hd]

theorem checkValues_eq_error {columns : List Column} {values : List Value} :
    checkValues table columns values = .error e ↔
      values.length ≠ columns.length ∧ e = .arityMismatch table columns.length values.length ∨
        values.length = columns.length ∧ FirstWith (WrongValue table) (columns.zip values) e := by
  rw [checkValues]
  split
  · next h => simp [h, eq_comm]
  · next h =>
      rw [forM_eq_error_iff_firstWith fun _ _ => check_value_eq_error]
      simp [Decidable.not_not.mp h]

theorem check_assignment_eq_error {p : String × Value} :
    (do
      let expected ← s.columnType p.1
      if p.1 = idColumn then .error (.readOnlyColumn table p.1)
      else if p.2.conformsTo expected then .ok ()
      else .error (.typeMismatch table p.1 expected p.2.dataType) : Except Error Unit) =
        .error e ↔ WrongAssignment table s p e := by
  obtain ⟨column, v⟩ := p
  rw [exceptBind_eq_error, Schema.columnType_eq_error]
  simp only [Schema.columnType_eq_ok, Value.conformsTo_iff]
  constructor
  · rintro (⟨habsent, rfl⟩ | ⟨_, ⟨c, hfound, rfl⟩, h⟩)
    · exact .unknown habsent
    · split at h
      · next hid =>
          subst hid
          cases h
          exact .readOnly hfound
      · next hid =>
          split at h
          · cases h
          · next hd =>
              cases h
              exact .type hfound hid hd
  · intro h
    cases h with
    | unknown absent => exact .inl ⟨absent, rfl⟩
    | readOnly found => exact .inr ⟨_, ⟨_, found, rfl⟩, if_pos rfl⟩
    | type found other differs =>
        refine .inr ⟨_, ⟨_, found, rfl⟩, ?_⟩
        rw [if_neg other, if_neg differs]

theorem checkAssignments_eq_error {assignments : SetClause} :
    checkAssignments table s assignments = .error e ↔
      assignments.entries = [] ∧ e = .emptySetClause table ∨
        FirstWith (WrongAssignment table s) assignments.entries e := by
  simp only [checkAssignments, KeyedList.isEmpty, List.isEmpty_iff]
  split
  · next h => simp [h, not_firstWith_nil, eq_comm]
  · next h =>
      refine (forM_eq_error_iff_firstWith fun _ _ => check_assignment_eq_error).trans ?_
      simp [h]

theorem checkAssignments_eq_ok {assignments : SetClause} :
    checkAssignments table s assignments = .ok () ↔
      assignments.entries ≠ [] ∧
        ∀ p ∈ assignments.entries, ∀ e, ¬ WrongAssignment table s p e := by
  simp only [checkAssignments, KeyedList.isEmpty, List.isEmpty_iff]
  split
  · next h => simp [h]
  · next h =>
      refine (forM_eq_ok_iff_forall_not fun _ _ => check_assignment_eq_error).trans ?_
      simp [h]

theorem checkFilter_eq_error {filter : Option Predicate} :
    checkFilter filter s = .error e ↔ WrongFilter s filter e := by
  cases filter with
  | none =>
      refine iff_of_false ?_ ?_
      · nofun
      · nofun
  | some p =>
      rw [checkFilter, Predicate.check, exceptBind_eq_error, Schema.columnType_eq_error]
      simp only [Schema.columnType_eq_ok, Value.conformsTo_iff]
      constructor
      · rintro (⟨habsent, rfl⟩ | ⟨_, ⟨c, hfound, rfl⟩, h⟩)
        · exact .unknown habsent
        · split at h
          · cases h
          · next hd =>
              cases h
              exact .type hfound hd
      · intro h
        cases h with
        | unknown absent => exact .inl ⟨absent, rfl⟩
        | type found differs => exact .inr ⟨_, ⟨_, found, rfl⟩, if_neg differs⟩

theorem checkFilter_eq_ok {filter : Option Predicate} :
    checkFilter filter s = .ok () ↔ ∀ e, ¬ WrongFilter s filter e := by
  simp only [eq_ok_iff_forall_ne_error, ne_eq, checkFilter_eq_error]

end TableStore
