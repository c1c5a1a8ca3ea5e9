import BacktrackRegex.Command.Environment
import BacktrackRegex.Command.Request
import BacktrackRegex.Pattern.Outline
import BacktrackRegex.Pattern.Spelling
import BacktrackRegex.Program.Listing
import BacktrackRegex.Regex

/-!
# Showing patterns

A pattern is shown after simplification, in its own notation and as an outline, and as the listing
of its program.
-/

namespace BacktrackRegex.Command.DumpRequest

/-- Carries out the request. -/
def run (r : DumpRequest) : Report :=
  match Pattern.read Pattern.maxGroups r.pattern with
  | .error e => .failure "" e.message
  | .ok p =>
    let p := p.simplify
    let tree := if r.showTree then "AST:\n" ++ p.render ++ "\n" ++ p.outline.render ++ "\n" else ""
    if r.showProgram then
      match p.compile? Pattern.maxNodes with
      | none => .failure tree RegexError.tooLarge.message
      | some program =>
        .success (tree ++ "OPTREE:\n" ++ String.join (program.listing.map (· ++ "\n")))
    else .success tree

end BacktrackRegex.Command.DumpRequest
