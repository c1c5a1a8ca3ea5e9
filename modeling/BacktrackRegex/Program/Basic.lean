import BacktrackRegex.CharClass.Spelling
import BacktrackRegex.Text.Quoted
import BacktrackRegex.Trail

/-!
# Programs

A program is a graph of operations that is searched for a path from its root to success. Nodes have
their index as identifier. Every operation but success names the node that follows when it matches;
a decision names two, the preferred one first. Unbounded repetitions are cycles. Each node also
knows a number of bytes without which no path from it can succeed.
-/

namespace BacktrackRegex

/-- What a node of a program does. -/
inductive Op where
  /-- The whole pattern matched. -/
  | success
  /-- Consumes a fixed text. -/
  | literal (text : String) (next : Nat)
  /-- Tries one node and then another one. -/
  | branch (first second : Nat)
  /-- Tries one more iteration of the body and then the exit. It goes to the exit at once if the
  latest iteration began at the same place. -/
  | loop (index : Nat) (body exit : Nat)
  /-- Consumes a character of a class. -/
  | charClass (cls : CharClass) (next : Nat)
  /-- Consumes any character but the newline. -/
  | anyChar (next : Nat)
  /-- Records the place under a capture group, as its start or its end. -/
  | mark (group : Nat) (next : Nat)
  /-- Consumes the text that a capture group spans. -/
  | backReference (group : Nat) (next : Nat)
  /-- Holds at the start of the text. -/
  | textStart (next : Nat)
  /-- Holds at the end of the text. -/
  | textEnd (next : Nat)
  deriving DecidableEq, Repr

namespace Op

/-- The node that follows when the operation matches; the preferred one of a decision. -/
def next? : Op → Option Nat
  | .success => none
  | .literal _ next => some next
  | .branch first _ => some first
  | .loop _ body _ => some body
  | .charClass _ next => some next
  | .anyChar next => some next
  | .mark _ next => some next
  | .backReference _ next => some next
  | .textStart next => some next
  | .textEnd next => some next

/-- The key under which the operation records or looks up places. -/
def key? : Op → Option Key
  | .loop index _ _ => some (.loop index)
  | .mark group _ => some (.group group)
  | .backReference group _ => some (.group group)
  | _ => none

end Op

/-- A node of a program. -/
structure Node where
  op : Op
  /-- The least number of bytes that a match from this node on takes. -/
  minLength : Nat
  deriving DecidableEq, Repr

/-- A pattern in the form in which it is searched for. -/
structure Program where
  nodes : Array Node
  /-- The node that a search starts with. -/
  root : Nat
  /-- The number of capture groups. -/
  groups : Nat
  /-- Whether matches begin at the start of the text only. -/
  anchored : Bool
  deriving DecidableEq, Repr

namespace Program

/-- The number of nodes. -/
def size (p : Program) : Nat :=
  p.nodes.size

/-- The least number of bytes that a match takes. -/
def minLength (p : Program) : Nat :=
  (p.nodes[p.root]?.map Node.minLength).getD 0

end Program

end BacktrackRegex
