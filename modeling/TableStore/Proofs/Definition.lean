import Mathlib.Data.List.Forall2
import Mathlib.Data.List.Nodup
import Mathlib.Data.List.TakeWhile
import TableStore.Proofs.Except
import TableStore.Schema

/-!
Definitions of tables. A request is accepted exactly if all names in it are identifiers, all its
types are known and no column comes twice, and the schema is what was asked for. Of a request that
is refused, the first column is reported that is faulty given the columns before it.
-/

namespace TableStore

/-! ## Names -/

namespace Text

/-- An ASCII letter or an underscore. -/
def Initial (c : Char) : Prop := 'a' ≤ c ∧ c ≤ 'z' ∨ 'A' ≤ c ∧ c ≤ 'Z' ∨ c = '_'

/-- Letters, digits and underscores, one at least and the first of them no digit. -/
def Identifier (name : String) : Prop :=
  ∃ first rest, name.toList = first :: rest ∧ Initial first ∧
    ∀ c ∈ rest, Initial c ∨ '0' ≤ c ∧ c ≤ '9'

theorem startsIdentifier_iff {c : Char} : startsIdentifier c ↔ Initial c := by
  change (decide ('A' ≤ c ∧ c ≤ 'Z') || decide ('a' ≤ c) && decide (c ≤ 'z') || c == '_') = true ↔ _
  simp only [Initial, Bool.or_eq_true, Bool.and_eq_true, decide_eq_true_eq, beq_iff_eq]
  rw [or_left_comm, or_assoc]

theorem continuesIdentifier_iff {c : Char} :
    continuesIdentifier c ↔ Initial c ∨ '0' ≤ c ∧ c ≤ '9' := by
  rw [← startsIdentifier_iff]
  simp only [continuesIdentifier, startsIdentifier, Char.isAlphanum, Char.isDigit, Bool.or_eq_true,
    Bool.and_eq_true, decide_eq_true_eq]
  exact or_right_comm

theorem isIdentifier_iff {name : String} : isIdentifier name ↔ Identifier name := by
  rw [isIdentifier, Identifier]
  cases name.toList with
  | nil => simp
  | cons first rest =>
      simp only [Bool.and_eq_true, List.all_eq_true, startsIdentifier_iff, continuesIdentifier_iff]
      constructor
      · rintro ⟨hfirst, hrest⟩
        exact ⟨first, rest, rfl, hfirst, hrest⟩
      · rintro ⟨_, _, he, hfirst, hrest⟩
        cases he
        exact ⟨hfirst, hrest⟩

/-! ## White space at the ends -/

theorem dropWhile_append_of_forall {front rest : List Char} (h : ∀ c ∈ front, isBlank c) :
    (front ++ rest).dropWhile isBlank = rest.dropWhile isBlank := by
  induction front with
  | nil => rfl
  | cons c front ih =>
      obtain ⟨hc, hfront⟩ := List.forall_mem_cons.mp h
      rw [List.cons_append, List.dropWhile_cons_of_pos hc, ih hfront]

theorem dropWhile_append_of_not {core rest : List Char} (hne : core ≠ [])
    (h : ∀ c ∈ core, ¬ isBlank c) : (core ++ rest).dropWhile isBlank = core ++ rest := by
  cases core with
  | nil => exact absurd rfl hne
  | cons c core =>
      rw [List.cons_append]
      exact List.dropWhile_cons_of_neg (h c List.mem_cons_self)

theorem trim_eq_of_forall {front core back : List Char} (hfront : ∀ c ∈ front, isBlank c)
    (hback : ∀ c ∈ back, isBlank c) (hne : core ≠ []) (hcore : ∀ c ∈ core, ¬ isBlank c) :
    trim (front ++ core ++ back) = core := by
  rw [trim, List.append_assoc, dropWhile_append_of_forall hfront,
    dropWhile_append_of_not hne hcore, List.reverse_append,
    dropWhile_append_of_forall (by simpa using hback)]
  rw [← List.append_nil core.reverse, dropWhile_append_of_not (by simpa using hne)
    (by simpa using hcore), List.append_nil, List.reverse_reverse]

/-- What is cut off is white space. -/
theorem exists_trim (cs : List Char) : ∃ front back, cs = front ++ trim cs ++ back ∧
    (∀ c ∈ front, isBlank c) ∧ ∀ c ∈ back, isBlank c := by
  let rest := cs.dropWhile isBlank
  refine ⟨cs.takeWhile isBlank, (rest.reverse.takeWhile isBlank).reverse, ?_, ?_, ?_⟩
  · have hrest : trim cs ++ (rest.reverse.takeWhile isBlank).reverse = rest := by
      rw [trim, ← List.reverse_append, List.takeWhile_append_dropWhile, List.reverse_reverse]
    rw [List.append_assoc, hrest, List.takeWhile_append_dropWhile]
  · intro c hc
    exact List.mem_takeWhile_imp hc
  · intro c hc
    exact List.mem_takeWhile_imp (List.mem_reverse.mp hc)

end Text

/-! ## Types -/

namespace DataType

/-- A text denotes the type with this name, up to white space at its ends and to the case of
ASCII letters. -/
def Denotes (s : String) (t : DataType) : Prop :=
  ∃ front core back, s.toList = front ++ core ++ back ∧
    (∀ c ∈ front, Text.isBlank c) ∧ (∀ c ∈ back, Text.isBlank c) ∧
    core.map Char.toLower = t.name.toList.map Char.toLower

theorem ofName?_eq_some {s : String} {t : DataType} : ofName? s = some t ↔ t.name = s := by
  constructor
  · intro h
    simpa using List.find?_some h
  · rintro rfl
    exact ofName?_name t

theorem map_toLower_name (t : DataType) : t.name.toList.map Char.toLower = t.name.toList := by
  cases t <;> decide

/-- White space has no lower case, so that there is none in a name in capitals either. -/
theorem not_isBlank_of_toLower {c : Char} (h : ¬ Text.isBlank c.toLower) : ¬ Text.isBlank c := by
  by_cases hc : 'A' ≤ c ∧ c ≤ 'Z'
  · intro hb
    simp only [Text.isBlank, Text.blankRanges, List.any_cons, List.any_nil, Bool.or_eq_true,
      Bool.and_eq_true, decide_eq_true_eq, Bool.or_false] at hb
    have h1 : 65 ≤ c.toNat := hc.1
    have h2 : c.toNat ≤ 90 := hc.2
    omega
  · have hlower : c.toLower = c := dif_neg hc
    rwa [hlower] at h

theorem not_isBlank_of_map_toLower {core : List Char} {t : DataType}
    (h : core.map Char.toLower = t.name.toList) : ∀ c ∈ core, ¬ Text.isBlank c := by
  intro c hc
  have hname : ∀ d ∈ t.name.toList, ¬ Text.isBlank d := by
    cases t <;> simp [name, Text.isBlank, Text.blankRanges]
  exact not_isBlank_of_toLower (hname _ (h ▸ List.mem_map_of_mem hc))

theorem parse?_eq_some {s : String} {t : DataType} : parse? s = some t ↔ Denotes s t := by
  have htrim : parse? s = some t ↔ (Text.trim s.toList).map Char.toLower = t.name.toList := by
    rw [parse?, ofName?_eq_some, ← String.toList_inj, String.toList_ofList, eq_comm]
  rw [htrim]
  constructor
  · intro h
    obtain ⟨front, back, hs, hfront, hback⟩ := Text.exists_trim s.toList
    exact ⟨front, Text.trim s.toList, back, hs, hfront, hback, by rw [h, map_toLower_name]⟩
  · rintro ⟨front, core, back, hs, hfront, hback, hcore⟩
    rw [map_toLower_name] at hcore
    have hne : core ≠ [] := by
      rintro rfl
      cases t <;> exact absurd hcore (by decide)
    rwa [hs, Text.trim_eq_of_forall hfront hback hne (not_isBlank_of_map_toLower hcore)]

theorem parse?_eq_none {s : String} : parse? s = none ↔ ∀ t, ¬ Denotes s t := by
  rw [Option.eq_none_iff_forall_ne_some]
  exact forall_congr' fun t => not_congr parse?_eq_some

end DataType

/-! ## Requested columns -/

/-- The name is that of the identity column or of a requested one. -/
def Taken (before : List ColumnSpec) (name : String) : Prop :=
  name = idColumn ∨ ∃ spec ∈ before, spec.name = name

/-- What is wrong with a requested column, given those before it. If several things are, the name
counts first, and then the type. -/
inductive WrongSpec (table : String) (before : List ColumnSpec) : ColumnSpec → Error → Prop where
  | name {spec} (bad : ¬ Text.Identifier spec.name) :
      WrongSpec table before spec (.invalidColumnName table spec.name)
  | type {spec} (good : Text.Identifier spec.name)
      (unknown : ∀ t, ¬ DataType.Denotes spec.typeName t) :
      WrongSpec table before spec (.unknownType table spec.name spec.typeName)
  | duplicate {spec t} (good : Text.Identifier spec.name)
      (known : DataType.Denotes spec.typeName t) (taken : Taken before spec.name) :
      WrongSpec table before spec (.duplicateColumn table spec.name)

/-- Requested columns with which nothing is wrong, given those before them. -/
def Faultless (table : String) (before specs : List ColumnSpec) : Prop :=
  ∀ front spec rest, specs = front ++ spec :: rest → ∀ e, ¬ WrongSpec table (before ++ front) spec e

/-- The error is that of the first requested column that is faulty, given all those before it. -/
def FirstFault (table : String) (before specs : List ColumnSpec) (e : Error) : Prop :=
  ∃ front spec rest, specs = front ++ spec :: rest ∧ Faultless table before front ∧
    WrongSpec table (before ++ front) spec e

/-- The column that a request asks for. -/
def AsksFor (spec : ColumnSpec) (c : Column) : Prop :=
  c.name = spec.name ∧ DataType.Denotes spec.typeName c.type

namespace Schema

variable {table : String} {before specs : List ColumnSpec} {spec : ColumnSpec} {taken : List String}
  {e : Error}

/-! ## The check of the columns -/

/-- What the check of a column comes to: it reports what is wrong with it, or goes on. -/
theorem defineColumns_cons (table : String) (spec : ColumnSpec) (specs : List ColumnSpec)
    (htaken : ∀ name, name ∈ taken ↔ Taken before name) :
    (∃ e, defineColumns table taken (spec :: specs) = .error e ∧
        ∀ e', WrongSpec table before spec e' ↔ e' = e) ∨
      ∃ type, Text.Identifier spec.name ∧ DataType.Denotes spec.typeName type ∧
        ¬ Taken before spec.name ∧ (∀ e, ¬ WrongSpec table before spec e) ∧
        defineColumns table taken (spec :: specs) =
          (defineColumns table (spec.name :: taken) specs).map (⟨spec.name, type⟩ :: ·) := by
  rw [defineColumns]
  by_cases hi : Text.Identifier spec.name
  · rw [if_neg (by simpa using Text.isIdentifier_iff.mpr hi)]
    cases ht : DataType.parse? spec.typeName with
    | none =>
        have hunknown := DataType.parse?_eq_none.mp ht
        refine .inl ⟨_, rfl, fun e' => ⟨?_, ?_⟩⟩
        · rintro (hbad | _ | ⟨-, hknown, -⟩)
          · exact absurd hi hbad
          · rfl
          · exact absurd hknown (hunknown _)
        · rintro rfl
          exact .type hi hunknown
    | some type =>
        have hknown := DataType.parse?_eq_some.mp ht
        by_cases hd : Taken before spec.name
        · refine .inl ⟨_, if_pos ((htaken _).mpr hd), fun e' => ⟨?_, ?_⟩⟩
          · rintro (hbad | ⟨-, hunknown⟩ | _)
            · exact absurd hi hbad
            · exact absurd hknown (hunknown _)
            · rfl
          · rintro rfl
            exact .duplicate hi hknown hd
        · refine .inr ⟨type, hi, hknown, hd, ?_, if_neg (mt (htaken _).mp hd)⟩
          rintro e' (hbad | ⟨-, hunknown⟩ | ⟨-, -, hdup⟩)
          · exact hbad hi
          · exact hunknown _ hknown
          · exact hd hdup
  · rw [if_pos (by simpa using mt Text.isIdentifier_iff.mp hi)]
    refine .inl ⟨_, rfl, fun e' => ⟨?_, ?_⟩⟩
    · rintro (_ | ⟨hgood, -⟩ | ⟨hgood, -, -⟩)
      · rfl
      · exact absurd hgood hi
      · exact absurd hgood hi
    · rintro rfl
      exact .name hi

theorem mem_cons_taken (htaken : ∀ name, name ∈ taken ↔ Taken before name) (spec : ColumnSpec)
    (name : String) : name ∈ spec.name :: taken ↔ Taken (before ++ [spec]) name := by
  simp only [List.mem_cons, htaken, Taken, List.mem_append]
  constructor
  · rintro (rfl | rfl | ⟨other, hm, rfl⟩)
    · exact .inr ⟨spec, .inr (.inl rfl), rfl⟩
    · exact .inl rfl
    · exact .inr ⟨other, .inl hm, rfl⟩
  · rintro (rfl | ⟨other, hm | rfl | hm, rfl⟩)
    · exact .inr (.inl rfl)
    · exact .inr (.inr ⟨other, hm, rfl⟩)
    · exact .inl rfl
    · cases hm

theorem faultless_nil : Faultless table before [] := by
  rintro front spec rest he
  cases front <;> cases he

theorem faultless_cons : Faultless table before (spec :: specs) ↔
    (∀ e, ¬ WrongSpec table before spec e) ∧ Faultless table (before ++ [spec]) specs := by
  constructor
  · intro h
    refine ⟨fun e hw => h [] spec specs rfl e (by rwa [List.append_nil]), ?_⟩
    rintro front other rest rfl e hw
    exact h (spec :: front) other rest rfl e (by rwa [List.append_cons])
  · rintro ⟨hspec, hspecs⟩ front other rest he e hw
    cases front with
    | nil =>
        cases he
        exact hspec e (by rwa [List.append_nil] at hw)
    | cons first front =>
        cases he
        exact hspecs front other rest rfl e (by rwa [← List.append_cons])

theorem firstFault_cons : FirstFault table before (spec :: specs) e ↔
    WrongSpec table before spec e ∨
      (∀ e', ¬ WrongSpec table before spec e') ∧ FirstFault table (before ++ [spec]) specs e := by
  constructor
  · rintro ⟨front, other, rest, he, hfront, hother⟩
    cases front with
    | nil =>
        cases he
        exact .inl (by rwa [List.append_nil] at hother)
    | cons first front =>
        cases he
        obtain ⟨hfirst, hfront⟩ := faultless_cons.mp hfront
        exact .inr ⟨hfirst, front, other, rest, rfl, hfront, by rwa [← List.append_cons]⟩
  · rintro (hspec | ⟨hspec, front, other, rest, rfl, hfront, hother⟩)
    · exact ⟨[], spec, specs, rfl, faultless_nil, by rwa [List.append_nil]⟩
    · refine ⟨spec :: front, other, rest, rfl, faultless_cons.mpr ⟨hspec, hfront⟩, ?_⟩
      rwa [List.append_cons]

theorem defineColumns_eq_ok (htaken : ∀ name, name ∈ taken ↔ Taken before name)
    {columns : List Column} :
    defineColumns table taken specs = .ok columns ↔
      Faultless table before specs ∧ List.Forall₂ AsksFor specs columns := by
  induction specs generalizing before taken columns with
  | nil => simp [defineColumns, faultless_nil, eq_comm]
  | cons spec specs ih =>
      rw [faultless_cons]
      obtain ⟨e, he, hwrong⟩ | ⟨type, -, htype, -, hright, hrest⟩ :=
        defineColumns_cons table spec specs htaken
      · rw [he]
        refine iff_of_false nofun ?_
        rintro ⟨⟨hnot, -⟩, -⟩
        exact hnot e ((hwrong e).mpr rfl)
      · rw [hrest, exceptMap_eq_ok]
        simp only [ih (mem_cons_taken htaken spec)]
        constructor
        · rintro ⟨rest, ⟨hfaultless, hasks⟩, rfl⟩
          exact ⟨⟨hright, hfaultless⟩, .cons ⟨rfl, htype⟩ hasks⟩
        · rintro ⟨⟨-, hfaultless⟩, hasks⟩
          cases hasks with
          | @cons _ c _ rest hc hrest =>
              refine ⟨rest, ⟨hfaultless, hrest⟩, ?_⟩
              obtain ⟨name, type'⟩ := c
              obtain ⟨rfl, htype'⟩ := hc
              have := (DataType.parse?_eq_some.mpr htype).symm.trans
                (DataType.parse?_eq_some.mpr htype')
              cases this
              rfl

theorem defineColumns_eq_error (htaken : ∀ name, name ∈ taken ↔ Taken before name) :
    defineColumns table taken specs = .error e ↔ FirstFault table before specs e := by
  induction specs generalizing before taken with
  | nil =>
      refine iff_of_false nofun ?_
      rintro ⟨front, spec, rest, he, -⟩
      cases front <;> cases he
  | cons spec specs ih =>
      rw [firstFault_cons]
      obtain ⟨e', he, hwrong⟩ | ⟨type, -, -, -, hright, hrest⟩ :=
        defineColumns_cons table spec specs htaken
      · rw [he, hwrong, Except.error.injEq, eq_comm]
        refine (or_iff_left ?_).symm
        rintro ⟨hnot, -⟩
        exact hnot e' ((hwrong e').mpr rfl)
      · rw [hrest, exceptMap_eq_error, ih (mem_cons_taken htaken spec)]
        simp only [hright, false_or, not_false_eq_true, implies_true, true_and]

/-! ## What is accepted -/

theorem not_wrongSpec_iff : (∀ e, ¬ WrongSpec table before spec e) ↔
    Text.Identifier spec.name ∧ (∃ t, DataType.Denotes spec.typeName t) ∧
      ¬ Taken before spec.name := by
  constructor
  · intro h
    have hname : Text.Identifier spec.name :=
      Classical.byContradiction fun hbad => h _ (.name hbad)
    have htype : ∃ t, DataType.Denotes spec.typeName t :=
      Classical.byContradiction fun hbad => h _ (.type hname (not_exists.mp hbad))
    obtain ⟨t, ht⟩ := htype
    exact ⟨hname, ⟨t, ht⟩, fun htaken => h _ (.duplicate hname ht htaken)⟩
  · rintro ⟨hname, ⟨t, ht⟩, hfree⟩ e (hbad | ⟨-, hunknown⟩ | ⟨-, -, htaken⟩)
    · exact hbad hname
    · exact hunknown t ht
    · exact hfree htaken

theorem faultless_iff : Faultless table before specs ↔
    (∀ spec ∈ specs, Text.Identifier spec.name) ∧
    (∀ spec ∈ specs, ∃ t, DataType.Denotes spec.typeName t) ∧
    (specs.map ColumnSpec.name).Nodup ∧ ∀ spec ∈ specs, ¬ Taken before spec.name := by
  induction specs generalizing before with
  | nil => simp [faultless_nil]
  | cons spec specs ih =>
      have hlater : (∀ other ∈ specs, ¬ Taken (before ++ [spec]) other.name) ↔
          spec.name ∉ specs.map ColumnSpec.name ∧ ∀ other ∈ specs, ¬ Taken before other.name := by
        have htaken (name : String) :
            Taken (before ++ [spec]) name ↔ spec.name = name ∨ Taken before name := by
          simp only [Taken, List.mem_append, List.mem_singleton, or_and_right, exists_or,
            exists_eq_left]
          rw [or_left_comm, or_comm (a := spec.name = name)]
          simp only [or_assoc, or_left_comm, or_comm]
        simp only [htaken, not_or, List.mem_map, not_exists, not_and]
        constructor
        · intro h
          exact ⟨fun other hm he => (h other hm).1 he.symm, fun other hm => (h other hm).2⟩
        · rintro ⟨h, h'⟩ other hm
          exact ⟨fun he => h other hm he.symm, h' other hm⟩
      rw [faultless_cons, not_wrongSpec_iff, ih, hlater]
      simp only [List.forall_mem_cons, List.map_cons, List.nodup_cons]
      tauto

theorem exists_asked (h : ∀ spec ∈ specs, ∃ t, DataType.Denotes spec.typeName t) :
    ∃ columns, List.Forall₂ AsksFor specs columns := by
  induction specs with
  | nil => exact ⟨[], .nil⟩
  | cons spec specs ih =>
      obtain ⟨⟨t, ht⟩, hspecs⟩ := List.forall_mem_cons.mp h
      obtain ⟨columns, hcolumns⟩ := ih hspecs
      exact ⟨⟨spec.name, t⟩ :: columns, .cons ⟨rfl, ht⟩ hcolumns⟩

theorem names_asked {columns : List Column} (h : List.Forall₂ AsksFor specs columns) :
    columns.map Column.name = specs.map ColumnSpec.name := by
  induction h with
  | nil => rfl
  | cons hspec _ ih => rw [List.map_cons, List.map_cons, hspec.1, ih]

/-- A request for a table that can be met. -/
structure Acceptable (table : String) (specs : List ColumnSpec) : Prop where
  identifier : Text.Identifier table
  identifiers : ∀ spec ∈ specs, Text.Identifier spec.name
  known : ∀ spec ∈ specs, ∃ t, DataType.Denotes spec.typeName t
  distinct : (specs.map ColumnSpec.name).Nodup
  fresh : idColumn ∉ specs.map ColumnSpec.name

theorem acceptable_iff :
    Acceptable table specs ↔ Text.Identifier table ∧ Faultless table [] specs := by
  have hfresh : idColumn ∉ specs.map ColumnSpec.name ↔ ∀ spec ∈ specs, ¬ Taken [] spec.name := by
    simp [Taken]
  rw [faultless_iff, ← hfresh]
  constructor
  · intro h
    exact ⟨h.identifier, h.identifiers, h.known, h.distinct, h.fresh⟩
  · rintro ⟨hi, his, hk, hd, hf⟩
    exact ⟨hi, his, hk, hd, hf⟩

/-! ## Definitions -/

theorem mem_taken (name : String) : name ∈ [idColumn] ↔ Taken [] name := by simp [Taken]

theorem define_of_identifier (h : Text.Identifier table) :
    define table specs =
      (defineColumns table [idColumn] specs).map fun columns => ⟨table, .id :: columns⟩ :=
  if_neg (by simpa using Text.isIdentifier_iff.mpr h)

theorem define_of_not_identifier (h : ¬ Text.Identifier table) :
    define table specs = .error (.invalidTableName table) :=
  if_pos (by simpa using mt Text.isIdentifier_iff.mp h)

theorem define_eq_ok {s : Schema} : define table specs = .ok s ↔
    Acceptable table specs ∧
      ∃ columns, List.Forall₂ AsksFor specs columns ∧
        s = ⟨table, ⟨idColumn, .integer⟩ :: columns⟩ := by
  rw [acceptable_iff]
  by_cases h : Text.Identifier table
  · rw [define_of_identifier h, exceptMap_eq_ok]
    simp only [defineColumns_eq_ok mem_taken, h, true_and]
    constructor
    · rintro ⟨columns, ⟨hf, ha⟩, rfl⟩
      exact ⟨hf, columns, ha, rfl⟩
    · rintro ⟨hf, columns, ha, rfl⟩
      exact ⟨columns, ⟨hf, ha⟩, rfl⟩
  · rw [define_of_not_identifier h]
    exact iff_of_false nofun fun hs => h hs.1.1

theorem define_eq_error : define table specs = .error e ↔
    ¬ Text.Identifier table ∧ e = .invalidTableName table ∨
      Text.Identifier table ∧ FirstFault table [] specs e := by
  by_cases h : Text.Identifier table
  · rw [define_of_identifier h, exceptMap_eq_error, defineColumns_eq_error mem_taken]
    simp only [h, not_true_eq_false, false_and, true_and, false_or]
  · rw [define_of_not_identifier h, Except.error.injEq, eq_comm]
    simp only [h, not_false_eq_true, true_and, false_and, or_false]

/-- A definition succeeds exactly if the request can be met, and the schema then has the identity
column and behind it the requested columns in order, with the types that they name. Otherwise the
table name is reported if it is no identifier, and else the first column that is faulty given
those before it; an unknown type is reported as it was spelled. -/
theorem define_exact (table : String) (specs : List ColumnSpec) :
    ((∃ s, define table specs = .ok s) ↔ Acceptable table specs) ∧
    (∀ s, define table specs = .ok s ↔ Acceptable table specs ∧
      ∃ columns, List.Forall₂ AsksFor specs columns ∧
        s = ⟨table, ⟨idColumn, .integer⟩ :: columns⟩) ∧
    ∀ e, define table specs = .error e ↔
      ¬ Text.Identifier table ∧ e = .invalidTableName table ∨
        Text.Identifier table ∧ FirstFault table [] specs e := by
  refine ⟨⟨?_, ?_⟩, fun _ => define_eq_ok, fun _ => define_eq_error⟩
  · rintro ⟨s, hs⟩
    exact (define_eq_ok.mp hs).1
  · intro h
    obtain ⟨columns, ha⟩ := exists_asked h.known
    exact ⟨_, define_eq_ok.mpr ⟨h, columns, ha, rfl⟩⟩

end Schema
end TableStore
