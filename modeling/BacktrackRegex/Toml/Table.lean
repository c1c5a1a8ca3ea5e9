import BacktrackRegex.Toml.Value

/-!
# Tables of TOML documents

A table is filled key by key, and every part of it remembers how it came about, which decides what
may still be added: nothing is defined twice, a value is never extended, dotted keys extend the
tables that dotted keys made, and a header declares a table that so far was only implied by other
headers.
-/

namespace BacktrackRegex.Toml

/-- A dotted key: the names of tables on the way, and a name in the last of them. -/
structure DottedKey where
  tables : List String
  name : String
  deriving DecidableEq, Repr

namespace DottedKey

/-- All names of a dotted key. -/
def names (key : DottedKey) : List String :=
  key.tables ++ [key.name]

end DottedKey

/-- How a table came about. -/
inductive Origin where
  /-- Headers name tables inside it. -/
  | implied
  /-- Dotted keys name values inside it. -/
  | dotted
  /-- A header opened it. -/
  | declared
  deriving DecidableEq, Repr

/-- What stands under a key. -/
inductive Entry where
  | value (v : Value)
  | table (origin : Origin) (entries : List (String × Entry))
  /-- An array of tables, of which the last can still be extended. -/
  | tables (earlier : List (List (String × Entry))) (last : List (String × Entry))

/-- The content of a table. -/
abbrev Entries := List (String × Entry)

mutual
/-- An entry as a value. -/
def Entry.toValue : Entry → Value
  | .value v => v
  | .table _ entries => .table (entryValues entries)
  | .tables earlier last => .array (tableValues earlier ++ [.table (entryValues last)])

/-- The content of a table as values. -/
def entryValues : List (String × Entry) → List (String × Value)
  | [] => []
  | (key, entry) :: rest => (key, entry.toValue) :: entryValues rest

/-- Tables as values. -/
def tableValues : List (List (String × Entry)) → List Value
  | [] => []
  | entries :: rest => .table (entryValues entries) :: tableValues rest
end

namespace Entries

/-- The table with an entry under a key, in place of the one that was there. -/
def put (key : String) (entry : Entry) : Entries → Entries
  | [] => [(key, entry)]
  | (k, e) :: rest => if k = key then (key, entry) :: rest else (k, e) :: put key entry rest

/-- Changes the table at the end of a path of names. Tables that are missing on the way come about
as `making` says, and an array of tables stands for its last one. Dotted keys do not reach into
tables that a header opened. -/
def within (making : Origin) (change : Origin → Entries → Option Entries) :
    List String → Origin → Entries → Option Entries
  | [], origin, entries => change origin entries
  | name :: path, _, entries =>
    match entries.lookup name with
    | none => do
      return entries.put name (.table making (← within making change path making []))
    | some (.table origin inner) => do
      if making = .dotted ∧ origin = .declared then none
      else return entries.put name (.table origin (← within making change path origin inner))
    | some (.tables earlier last) => do
      return entries.put name (.tables earlier (← within making change path .declared last))
    | some (.value _) => none

/-- Puts a value under a dotted key. The key is new, and the table that it names is one that dotted
keys made. -/
def assign (key : DottedKey) (v : Value) (entries : Entries) : Option Entries :=
  let set (origin : Origin) (inner : Entries) : Option Entries :=
    if (origin = .dotted ↔ key.tables ≠ []) ∧ (inner.lookup key.name).isNone then
      some (inner.put key.name (.value v))
    else none
  entries.within .dotted set key.tables .declared

/-- Declares the table that a header names. It is new, or implied so far. -/
def declare (key : DottedKey) (entries : Entries) : Option Entries :=
  let set (_ : Origin) (outer : Entries) : Option Entries :=
    match outer.lookup key.name with
    | none => some (outer.put key.name (.table .declared []))
    | some (.table .implied inner) => some (outer.put key.name (.table .declared inner))
    | some _ => none
  entries.within .implied set key.tables .declared

/-- Adds an empty table to the array of tables that a header names. -/
def extend (key : DottedKey) (entries : Entries) : Option Entries :=
  let set (_ : Origin) (outer : Entries) : Option Entries :=
    match outer.lookup key.name with
    | none => some (outer.put key.name (.tables [] []))
    | some (.tables earlier last) => some (outer.put key.name (.tables (earlier ++ [last]) []))
    | some _ => none
  entries.within .implied set key.tables .declared

end Entries

end BacktrackRegex.Toml
