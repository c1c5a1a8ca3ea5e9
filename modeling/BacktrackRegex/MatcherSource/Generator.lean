import BacktrackRegex.MatcherSource.Function
import BacktrackRegex.Regex

/-!
# Generating matchers

A generator collects the matchers of patterns for one source file. A pattern that was added before
is not added again, and one that cannot be compiled leaves the generator as it is. The matchers are
named by a common stem and the number of matchers before them.
-/

namespace BacktrackRegex.MatcherSource

/-- A collection of matchers for one source file. -/
structure Generator where
  /-- What the names of the matchers begin with. -/
  stem : String
  /-- The patterns that were added, in no particular order. -/
  patterns : List String
  /-- The lines of the matchers, in the order in which their patterns were added. -/
  matchers : List (List String)
  deriving DecidableEq, Repr

namespace Generator

/-- The generator without patterns. -/
def empty (stem : String) : Generator :=
  ⟨stem, [], []⟩

/-- The number of matchers. -/
def size (g : Generator) : Nat :=
  g.matchers.length

/-- The name of the matcher with a given number. -/
def matcherName (g : Generator) (index : Nat) : String :=
  g.stem ++ "_" ++ index.repr

/-- Adds a pattern in place, unless it was added before. -/
def enter (pattern : String) : ExceptT RegexError (StateM Generator) Unit := do
  let g ← get
  unless g.patterns.contains pattern do
    let p ← MonadExcept.ofExcept (Program.ofText pattern)
    modify fun g => { g with matchers := g.matchers ++ [matcher (g.matcherName g.size) pattern p] }
    modify fun g => { g with patterns := pattern :: g.patterns }

/-- The generator with one more pattern. -/
def add (g : Generator) (pattern : String) : Except RegexError Generator :=
  match (enter pattern).run.run g with
  | (.ok (), g) => .ok g
  | (.error e, _) => .error e

/-- The lines at the beginning of every source file. -/
def header : List String :=
  ["// Code generated by yrx. DO NOT EDIT.", "", "use linkme::distributed_slice;",
    "use yarex::codegen::CompiledRegexp;",
    "use yarex::re::context::\x7bContextKey, MatchContext\x7d;", "use yarex::COMPILED_REGEXPS;"]

/-- The lines of the source file: the header, and each matcher after an empty line. -/
def lines (g : Generator) : List String :=
  header ++ (g.matchers.map ("" :: ·)).flatten

/-- The source file. -/
def source (g : Generator) : String :=
  String.join (g.lines.map (· ++ "\n"))

end Generator

end BacktrackRegex.MatcherSource
