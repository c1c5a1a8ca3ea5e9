/-!
# Values of TOML documents

Floats and dates are told apart from the other values, but their content is not kept.
-/

namespace BacktrackRegex.Toml

/-- A value of a TOML document. -/
inductive Value where
  | string (s : String)
  | integer (n : Int)
  | float
  | boolean (b : Bool)
  | datetime
  | array (elements : List Value)
  | table (entries : List (String × Value))
  deriving Repr

end BacktrackRegex.Toml
