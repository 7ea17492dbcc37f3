import TableStore.Document.Registry
import TableStore.Document.Rows

/-!
What documents have in common: each kind of data has an encoding as JSON, a data to start
from, and a form in bytes, which is the indented text.
-/

namespace TableStore

/-- A kind of data that is kept in a document of its own. -/
class Document (α : Type) where
  /-- What stands for a missing or damaged document. -/
  blank : α
  toJson : α → Json
  ofJson? : Json → Option α

instance : Document (List Row) := ⟨[], Rows.toJson, Rows.ofJson?⟩

instance : Document Registry := ⟨.empty, Registry.toJson, Registry.ofJson?⟩

namespace Document

variable {α : Type} [Document α]

def compact (a : α) : String := (toJson a).compact

def pretty (a : α) : String := (toJson a).pretty

def parse? (text : String) : Option α := Json.ofText? text >>= ofJson?

def encode (a : α) : ByteArray := (pretty a).toUTF8

/-- Bytes that belong to no character do no harm where nothing looks at the text around them. -/
def decode? (bytes : ByteArray) : Option α := Json.parse? (Text.readUtf8 bytes) >>= ofJson?

theorem decode?_toUTF8 (text : String) : decode? text.toUTF8 = (parse? text : Option α) := by
  rw [decode?, Text.readUtf8_toUTF8]
  rfl

end Document
end TableStore
