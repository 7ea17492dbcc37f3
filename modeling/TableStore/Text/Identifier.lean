/-!
Identifiers: names of tables and columns, made of ASCII letters, digits and underscores.
-/

namespace TableStore.Text

/-- An ASCII letter or an underscore. -/
def startsIdentifier (c : Char) : Bool := c.isAlpha || c == '_'

/-- An ASCII letter, an ASCII digit or an underscore. -/
def continuesIdentifier (c : Char) : Bool := c.isAlphanum || c == '_'

/-- Not empty, and no digit in front. -/
def isIdentifier (name : String) : Bool :=
  match name.toList with
  | [] => false
  | c :: rest => startsIdentifier c && rest.all continuesIdentifier

end TableStore.Text
