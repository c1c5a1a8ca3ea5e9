import BacktrackRegex.Command.Environment
import BacktrackRegex.Command.Request
import BacktrackRegex.MatcherSource.Generator

/-!
# Generating matchers

The matchers of all patterns are written to one file. If one of the patterns can not be compiled,
the file stays as it is.
-/

namespace BacktrackRegex.Command.GenerateRequest

open MatcherSource

/-- Adds patterns to a generator. The complaint names the first that can not be compiled. -/
def collect : Generator → List String → Except String Generator
  | g, [] => .ok g
  | g, pattern :: patterns =>
    match g.add pattern with
    | .ok g => collect g patterns
    | .error e => .error ("can not compile `" ++ pattern ++ "`: " ++ e.message)

/-- Carries out the request. -/
def run (r : GenerateRequest) (env : Environment) : Report :=
  match collect (.empty r.stem) r.patterns with
  | .error message => .failure "" message
  | .ok g =>
    match env.obstacle? r.path with
    | some e => .unwritten r.path e
    | none => { Report.success "" with written := some (r.path, g.source) }

end BacktrackRegex.Command.GenerateRequest
