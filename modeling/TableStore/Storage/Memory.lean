import TableStore.Storage.Basic

/-!
A storage in memory, which never fails and counts how often it is used. It counts modulo
2 ^ 64.
-/

namespace TableStore

structure MemoryStorage where
  registry : Registry
  tables : KeyedList String (List Row)
  registryLoads : UInt64
  registrySaves : UInt64
  tableLoads : UInt64
  tableSaves : UInt64

namespace MemoryStorage

def empty : MemoryStorage := ⟨.empty, .empty, 0, 0, 0, 0⟩

/-- The rows of a table if it is stored, without counting a load. -/
def rows? (m : MemoryStorage) (table : String) : Option (List Row) := m.tables.get? table

instance : Storage MemoryStorage where
  loadRegistry m := .ok ⟨m.registry, none⟩ { m with registryLoads := m.registryLoads + 1 }
  saveRegistry r m := .ok () { m with registry := r, registrySaves := m.registrySaves + 1 }
  loadTable table m :=
    .ok ⟨(m.rows? table).getD [], none⟩ { m with tableLoads := m.tableLoads + 1 }
  saveTable table rows m :=
    .ok () { m with tables := m.tables.insert table rows, tableSaves := m.tableSaves + 1 }
  removeTable table m := .ok () { m with tables := m.tables.erase table }

end MemoryStorage
end TableStore
