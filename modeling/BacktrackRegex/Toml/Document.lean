import BacktrackRegex.Toml.Reader

/-!
# TOML documents

A document is a table that its statements fill one after the other. The values of a statement go to
the table that the header before it opened, and to the document itself before the first header.
-/

namespace BacktrackRegex.Toml

/-- A document, and the names that lead to its open table. -/
structure Document where
  entries : Entries
  openTable : List String

namespace Document

/-- The document without content. -/
def empty : Document :=
  ⟨[], []⟩

/-- The document with one more statement. -/
def add (d : Document) : Statement → Option Document
  | .header key => do return ⟨← d.entries.declare key, key.names⟩
  | .arrayHeader key => do return ⟨← d.entries.extend key, key.names⟩
  | .assign key v => do
    let set (_ : Origin) (inner : Entries) := inner.assign key v
    return { d with entries := ← d.entries.within .implied set d.openTable .declared }

/-- The document with the statements of a text. -/
def ofText? (text : String) : Option Document := do
  (← statements? text).foldlM add empty

/-- The values of the document under their keys. -/
def toValues (d : Document) : List (String × Value) :=
  entryValues d.entries

end Document

end BacktrackRegex.Toml
