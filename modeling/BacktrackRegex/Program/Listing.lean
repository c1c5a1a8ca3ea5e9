import BacktrackRegex.Program.Basic

/-!
# Listings of programs

A listing has one line for each node: a star in front of the root, the identifier in five digits,
the operation with the identifiers that follow it, and the least length of a match from there on.
-/

namespace BacktrackRegex

/-- The identifier of a node, in five digits. -/
def nodeName (id : Nat) : String :=
  String.ofList (Text.digits 10 5 id)

/-- The name of a key. -/
def Key.name : Key → String
  | .group index => "c" ++ index.repr
  | .loop index => "r" ++ index.repr

/-- The line of an operation. -/
def Op.describe : Op → String
  | .success => "SUCCESS"
  | .literal text next => "LIT " ++ Text.quoted text ++ " -> " ++ nodeName next
  | .branch first second => "ALT " ++ nodeName first ++ " | " ++ nodeName second
  | .loop index body exit =>
    "REPEAT " ++ (Key.loop index).name ++ " " ++ nodeName body ++ " | " ++ nodeName exit
  | .charClass cls next => "CLASS [" ++ cls.render ++ "] -> " ++ nodeName next
  | .anyChar next => "ANY -> " ++ nodeName next
  | .mark group next => "MARK " ++ (Key.group group).name ++ " -> " ++ nodeName next
  | .backReference group next => "BACKREF " ++ (Key.group group).name ++ " -> " ++ nodeName next
  | .textStart next => "START -> " ++ nodeName next
  | .textEnd next => "END -> " ++ nodeName next

/-- The lines of a program, in the order of the identifiers. -/
def Program.listing (p : Program) : List String :=
  p.nodes.toList.zipIdx.map fun (node, id) =>
    (if id = p.root then "*" else " ") ++ nodeName id ++ ": " ++ node.op.describe
      ++ " (min " ++ node.minLength.repr ++ ")"

end BacktrackRegex
