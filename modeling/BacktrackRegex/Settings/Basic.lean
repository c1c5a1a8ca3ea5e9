/-!
# Settings

The settings of a regular expression choose how its searches are carried out.
-/

namespace BacktrackRegex

/-- How searches are carried out. -/
structure Settings where
  /-- Whether decisions are shared out to idle workers. -/
  speculative : Bool
  /-- The number of bytes that must be left for a decision to be shared. -/
  threshold : Nat
  /-- Whether a pattern that has a matcher of its own uses it. -/
  usePrecompiled : Bool
  deriving DecidableEq, Repr

/-- The settings in the absence of others. -/
def Settings.standard : Settings :=
  ⟨false, 64, true⟩

end BacktrackRegex
