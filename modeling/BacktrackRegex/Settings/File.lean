import BacktrackRegex.Settings.Basic
import BacktrackRegex.Toml.Document

/-!
# Settings files

A settings file is a TOML document whose table `engine` sets some of the settings; the others are
the standard ones. The settings may also stand in an array, in their order and without gaps. A table
with a certain key is a wrapper, which stands for the value under that key, and a table with another
one is refused; this holds of every value in the document, but not of the document itself.
-/

namespace BacktrackRegex

open Toml

namespace Toml.Value

/-- A value that is a boolean. -/
def boolean? : Value → Option Bool
  | .boolean b => some b
  | _ => none

/-- A value that is a natural number. -/
def natural? : Value → Option Nat
  | .integer n => n.toNat?
  | _ => none

end Toml.Value

namespace Settings

/-- The key of the value for which a wrapper stands. -/
def wrappedKey : String :=
  "___figment_value_value"

/-- A key that no table may have. -/
def reservedKey : String :=
  "___figment_value_id"

/-- The value for which a table stands. -/
def unwrapEntries? (entries : List (String × Value)) : Option Value :=
  if (entries.lookup reservedKey).isSome then none
  else (entries.lookup wrappedKey).getD (.table entries)

mutual
/-- A value without wrappers, if no table in it has the reserved key. -/
def unwrap? : Value → Option Value
  | .array elements => (unwrapEach? elements).map .array
  | .table entries => (unwrapUnder? entries).bind unwrapEntries?
  | v => some v

/-- Values without wrappers. -/
def unwrapEach? : List Value → Option (List Value)
  | [] => some []
  | v :: rest => do return (← unwrap? v) :: (← unwrapEach? rest)

/-- Entries with values without wrappers. -/
def unwrapUnder? : List (String × Value) → Option (List (String × Value))
  | [] => some []
  | (key, v) :: rest => do return (key, ← unwrap? v) :: (← unwrapUnder? rest)
end

/-- A value of the right kind, or the standard one if there is no value. -/
def field? {α : Type} (read : Value → Option α) (standard : α) : Option Value → Option α
  | none => some standard
  | some v => read v

/-- The settings in the entries of a table. -/
def ofEntries? (entries : List (String × Value)) : Option Settings := do
  let speculative ← field? Value.boolean? standard.speculative (entries.lookup "speculative")
  let threshold ← field? Value.natural? standard.threshold (entries.lookup "speculation_threshold")
  let usePrecompiled ←
    field? Value.boolean? standard.usePrecompiled (entries.lookup "use_precompiled")
  return ⟨speculative, threshold, usePrecompiled⟩

/-- The settings that the value of `engine` gives. A date has none of them. -/
def ofValue? : Value → Option Settings
  | .table entries => ofEntries? entries
  | .datetime => some standard
  | .array (speculative :: threshold :: usePrecompiled :: _) => do
    return ⟨← speculative.boolean?, ← threshold.natural?, ← usePrecompiled.boolean?⟩
  | _ => none

/-- The settings that the text of a settings file gives. -/
def ofText? (text : String) : Option Settings := do
  let values ← unwrapUnder? (← Document.ofText? text).toValues
  match values.lookup "engine" with
  | none => some standard
  | some v => ofValue? v

end Settings

end BacktrackRegex
