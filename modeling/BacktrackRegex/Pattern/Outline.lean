import BacktrackRegex.CharClass.Spelling
import BacktrackRegex.Pattern.Basic
import BacktrackRegex.Text.Quoted

/-!
# Outlines of patterns

An outline shows a tree with one labelled line for each node, below the node that it belongs to.
Rules to the left of a label lead to the parent and down to the next child of each ancestor.
-/

namespace BacktrackRegex

/-- A tree of labels. -/
inductive Outline where
  | node (label : String) (children : List Outline)
  deriving Repr

namespace Outline

mutual
/-- The lines of a tree, with its label behind `branch` and its descendants behind `rules`. -/
def linesBehind (branch rules : String) : Outline → List String
  | .node label children => (branch ++ label) :: linesOfAll rules children

/-- The lines of trees that are the children of one node, behind the rules of their ancestors. -/
def linesOfAll (rules : String) : List Outline → List String
  | [] => []
  | [o] => linesBehind (rules ++ " └─ ") (rules ++ "   ") o
  | o :: next :: rest =>
    linesBehind (rules ++ " ├─ ") (rules ++ " │ ") o ++ linesOfAll rules (next :: rest)
end

/-- The lines of a tree. -/
def lines (o : Outline) : List String :=
  linesBehind " " "" o

/-- The lines of a tree as a text, each with a newline at its end. -/
def render (o : Outline) : String :=
  String.join (o.lines.map (· ++ "\n"))

end Outline

namespace Pattern

mutual
/-- The outline of a pattern. -/
def outline : Pattern → Outline
  | .literal s => .node ("literal " ++ Text.quoted s) []
  | .sequence ps => .node "sequence" (outlines ps)
  | .alternation ps => .node "alternation" (outlines ps)
  | .anyChar => .node "any except newline" []
  | .repetition p min max =>
    .node ("repeat \x7b" ++ min.repr ++ "," ++ (max.map Nat.repr).getD "" ++ "\x7d") [outline p]
  | .capture i p => .node ("capture " ++ i.repr) [outline p]
  | .backReference i => .node ("back-reference " ++ i.repr) []
  | .textStart => .node "assert start" []
  | .textEnd => .node "assert end" []
  | .charClass c => .node ("class [" ++ c.render ++ "]") []

/-- The outlines of a list of patterns. -/
def outlines : List Pattern → List Outline
  | [] => []
  | p :: ps => outline p :: outlines ps
end

end Pattern

end BacktrackRegex
