import TableStore.Storage.Memory
import TableStore.Proofs.Action

/-!
What a storage holds, apart from the way it is kept: a registry, and the rows of those tables
that have a document. A storage follows its contents if each call has the effect on them that
its name says, or fails and leaves them as they were.
-/

namespace TableStore

structure Contents where
  registry : Registry
  rows? : String → Option (List Row)

namespace Contents

theorem ext {c d : Contents} (hr : c.registry = d.registry) (ht : ∀ t, c.rows? t = d.rows? t) :
    c = d := by
  cases c; cases d
  simp only [mk.injEq]
  exact ⟨hr, funext ht⟩

def empty : Contents := ⟨.empty, fun _ => none⟩

def rows (d : Contents) (table : String) : List Row := (d.rows? table).getD []

def put (d : Contents) (table : String) (rows : List Row) : Contents :=
  { d with rows? := fun t => if t = table then some rows else d.rows? t }

def remove (d : Contents) (table : String) : Contents :=
  { d with rows? := fun t => if t = table then none else d.rows? t }

def setRegistry (d : Contents) (r : Registry) : Contents := { d with registry := r }

/-- Contents as a storage of their own, which never fails. -/
instance : Storage Contents where
  loadRegistry d := .ok ⟨d.registry, none⟩ d
  saveRegistry r d := .ok () (d.setRegistry r)
  loadTable table d := .ok ⟨d.rows table, none⟩ d
  saveTable table rows d := .ok () (d.put table rows)
  removeTable table d := .ok () (d.remove table)

variable (d : Contents) (table t : String) (rows : List Row)

theorem loadTable_apply : Storage.loadTable table d = .ok ⟨d.rows table, none⟩ d := rfl

theorem rows?_put : (d.put table rows).rows? t = if t = table then some rows else d.rows? t := rfl

theorem put_put : (d.put table rows).put table rows = d.put table rows := by
  refine ext rfl fun t => ?_
  simp only [rows?_put]
  split <;> rfl

theorem rows?_remove : (d.remove table).rows? t = if t = table then none else d.rows? t := rfl

theorem rows_put : (d.put table rows).rows t = if t = table then rows else d.rows t := by
  simp only [Contents.rows, rows?_put]
  split <;> rfl

theorem rows_remove : (d.remove table).rows t = if t = table then [] else d.rows t := by
  simp only [Contents.rows, rows?_remove]
  split <;> rfl

end Contents

variable {σ : Type} [Storage σ]

/-- A call from a state that holds `d` leads to one that holds `d'`. If it fails, which the
storage may remember, the contents are still `d`. -/
def Storage.Turns {α : Type} (holds : σ → Contents → Prop) (failed : σ → Prop)
    (act : EStateM Error σ α) (s : σ) (d d' : Contents) (value : α → Prop) : Prop :=
  Ensures act s (fun a s' => value a ∧ holds s' d' ∧ (failed s → failed s'))
    fun _ s' => holds s' d ∧ failed s'

/-- `holds s d` says that the state `s` holds the contents `d`, and `failed s` that some call
may have failed. -/
structure Storage.Follows (holds : σ → Contents → Prop) (failed : σ → Prop) : Prop where
  loadRegistry : ∀ s d, holds s d →
    Turns holds failed Storage.loadRegistry s d d fun loaded => loaded.value = d.registry
  saveRegistry : ∀ r s d, holds s d →
    Turns holds failed (Storage.saveRegistry r) s d (d.setRegistry r) fun _ => True
  loadTable : ∀ table s d, holds s d →
    Turns holds failed (Storage.loadTable table) s d d fun loaded => loaded.value = d.rows table
  saveTable : ∀ table rows s d, holds s d →
    Turns holds failed (Storage.saveTable table rows) s d (d.put table rows) fun _ => True
  removeTable : ∀ table s d, holds s d →
    Turns holds failed (Storage.removeTable table) s d (d.remove table) fun _ => True

namespace MemoryStorage

def contents (m : MemoryStorage) : Contents := ⟨m.registry, m.rows?⟩

theorem rows?_save (m : MemoryStorage) (table t : String) (rows : List Row) :
    ({ m with tables := m.tables.insert table rows } : MemoryStorage).rows? t =
      if t = table then some rows else m.rows? t :=
  KeyedList.get?_insert m.tables table t rows

theorem rows?_remove (m : MemoryStorage) (table t : String) :
    ({ m with tables := m.tables.erase table } : MemoryStorage).rows? t =
      if t = table then none else m.rows? t :=
  KeyedList.get?_erase m.tables table t

/-- A storage in memory does to its contents what contents do by themselves, and never fails. -/
theorem follows : Storage.Follows (fun (m : MemoryStorage) d => m.contents = d) fun _ => False where
  loadRegistry _ _ h := ⟨h ▸ rfl, h, id⟩
  saveRegistry _ _ _ h := ⟨trivial, h ▸ rfl, id⟩
  loadTable _ _ _ h := ⟨h ▸ rfl, h, id⟩
  saveTable table rows m _ h :=
    ⟨trivial, h ▸ Contents.ext rfl fun t => rows?_save m table t rows, id⟩
  removeTable table m _ h := ⟨trivial, h ▸ Contents.ext rfl fun t => rows?_remove m table t, id⟩

end MemoryStorage

/-! ## Failing calls -/

/-- A storage of which some calls are made to fail: each call uses up one entry of `faults`. -/
structure Faulty (σ : Type) where
  storage : σ
  faults : List (Option Error)

namespace Faulty

def call {α : Type} (act : EStateM Error σ α) : EStateM Error (Faulty σ) α := fun s =>
  match s.faults with
  | some e :: faults => .error e { s with faults := faults }
  | faults =>
    match act s.storage with
    | .ok a storage => .ok a ⟨storage, faults.tail⟩
    | .error e storage => .error e ⟨storage, faults.tail⟩

instance : Storage (Faulty σ) where
  loadRegistry := call Storage.loadRegistry
  saveRegistry r := call (Storage.saveRegistry r)
  loadTable table := call (Storage.loadTable table)
  saveTable table rows := call (Storage.saveTable table rows)
  removeTable table := call (Storage.removeTable table)

omit [Storage σ] in
theorem turns_call {α : Type} {holds : σ → Contents → Prop} {failed : σ → Prop}
    {act : EStateM Error σ α} {s : Faulty σ} {d d' : Contents} {value : α → Prop}
    (hd : holds s.storage d) (h : Storage.Turns holds failed act s.storage d d' value) :
    Storage.Turns (fun (s : Faulty σ) d => holds s.storage d) (fun _ => True) (call act) s d d'
      value := by
  obtain ⟨storage, faults⟩ := s
  match faults with
  | some e :: faults => exact ⟨hd, trivial⟩
  | none :: _ | [] =>
    rw [Storage.Turns, Ensures, call] at *
    cases ha : act storage with
    | ok a storage =>
        simp only [ha] at h ⊢
        exact ⟨h.1, h.2.1, id⟩
    | error e storage =>
        simp only [ha] at h ⊢
        exact ⟨h.1, trivial⟩

theorem follows {holds : σ → Contents → Prop} {failed : σ → Prop}
    (law : Storage.Follows holds failed) :
    Storage.Follows (fun (s : Faulty σ) d => holds s.storage d) fun _ => True where
  loadRegistry s d h := turns_call h (law.loadRegistry s.storage d h)
  saveRegistry r s d h := turns_call h (law.saveRegistry r s.storage d h)
  loadTable table s d h := turns_call h (law.loadTable table s.storage d h)
  saveTable table rows s d h := turns_call h (law.saveTable table rows s.storage d h)
  removeTable table s d h := turns_call h (law.removeTable table s.storage d h)

end Faulty

/-- A storage that remembers whether one of its calls has failed. -/
structure Watched (σ : Type) where
  storage : σ
  failed : Bool

namespace Watched

def call {α : Type} (act : EStateM Error σ α) : EStateM Error (Watched σ) α := fun s =>
  match act s.storage with
  | .ok a storage => .ok a { s with storage := storage }
  | .error e storage => .error e ⟨storage, true⟩

instance : Storage (Watched σ) where
  loadRegistry := call Storage.loadRegistry
  saveRegistry r := call (Storage.saveRegistry r)
  loadTable table := call (Storage.loadTable table)
  saveTable table rows := call (Storage.saveTable table rows)
  removeTable table := call (Storage.removeTable table)

omit [Storage σ] in
theorem turns_call {α : Type} {holds : σ → Contents → Prop} {failed : σ → Prop}
    {act : EStateM Error σ α} {s : Watched σ} {d d' : Contents} {value : α → Prop}
    (h : Storage.Turns holds failed act s.storage d d' value) :
    Storage.Turns (fun (s : Watched σ) d => holds s.storage d) (fun s => s.failed = true)
      (call act) s d d' value := by
  rw [Storage.Turns, Ensures, call] at *
  cases ha : act s.storage with
  | ok a storage =>
      simp only [ha] at h ⊢
      exact ⟨h.1, h.2.1, id⟩
  | error e storage =>
      simp only [ha] at h ⊢
      exact ⟨h.1, trivial⟩

theorem follows {holds : σ → Contents → Prop} {failed : σ → Prop}
    (law : Storage.Follows holds failed) :
    Storage.Follows (fun (s : Watched σ) d => holds s.storage d) fun s => s.failed = true where
  loadRegistry s d h := turns_call (law.loadRegistry s.storage d h)
  saveRegistry r s d h := turns_call (law.saveRegistry r s.storage d h)
  loadTable table s d h := turns_call (law.loadTable table s.storage d h)
  saveTable table rows s d h := turns_call (law.saveTable table rows s.storage d h)
  removeTable table s d h := turns_call (law.removeTable table s.storage d h)

end Watched
end TableStore
