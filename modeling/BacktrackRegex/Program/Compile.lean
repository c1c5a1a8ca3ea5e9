import BacktrackRegex.Pattern.Basic
import BacktrackRegex.Program.Basic

/-!
# From patterns to programs

A pattern is compiled from its end: each part is compiled for a node that follows it, so that the
least length of a match is known when a node is made. An unbounded repetition makes its deciding
node first, with the exit in the place of the body, compiles the body for that node, and then puts
the body in. Loops whose body may match the empty text get a key and are guarded. Copies of a body
that makes no node are not repeated, whatever their number.

A limit bounds the number of nodes, and a pattern that needs more is too large.
-/

namespace BacktrackRegex

/-- A program in the making. -/
structure Draft where
  nodes : Array Node
  /-- The number of guarded loops so far. -/
  loops : Nat
  deriving DecidableEq, Repr

namespace Draft

/-- The least length of a match from a node on. -/
def minLength (d : Draft) (id : Nat) : Nat :=
  (d.nodes[id]?.map Node.minLength).getD 0

/-- Makes a node, unless the limit is reached. Numbers of nodes are natural numbers, which agree
with machine words of 32 bits as long as the limit is at most two to the power 32. -/
def emit (limit : Nat) (op : Op) (minLength : Nat) (d : Draft) : Option (Nat × Draft) :=
  if d.nodes.size < limit then
    some (d.nodes.size, { d with nodes := d.nodes.push ⟨op, minLength⟩ })
  else none

/-- Makes a decision between two nodes. -/
def emitBranch (limit : Nat) (first second : Nat) (d : Draft) : Option (Nat × Draft) :=
  d.emit limit (.branch first second) (min (d.minLength first) (d.minLength second))

/-- Makes the deciding node of an unbounded repetition, whose body is not known yet. -/
def emitLoop (limit : Nat) (guarded : Bool) (exit : Nat) (d : Draft) : Option (Nat × Draft) :=
  if guarded then
    { d with loops := d.loops + 1 }.emit limit (.loop (d.loops + 1) exit exit) (d.minLength exit)
  else d.emit limit (.branch exit exit) (d.minLength exit)

/-- Puts the body into the deciding node of an unbounded repetition. -/
def closeLoop (id body : Nat) (d : Draft) : Draft :=
  { d with nodes := d.nodes.modify id fun node =>
      match node.op with
      | .loop index _ exit => { node with op := .loop index body exit }
      | .branch _ exit => { node with op := .branch body exit }
      | _ => node }

/-- Chains the starts of options, the last of them first, into decisions that try the other ones
before `last`. -/
def chain (limit : Nat) : List Nat → Nat → Draft → Option (Nat × Draft)
  | [], last, d => some (last, d)
  | option :: earlier, last, d => do
    let (id, d) ← d.emitBranch limit option last
    chain limit earlier id d

/-- Compiles up to `n` copies of a body in front of `next`, each for the one after it, until a copy
makes no node. -/
def copies (compile : Nat → Draft → Option (Nat × Draft)) : Nat → Nat → Draft → Option (Nat × Draft)
  | 0, next, d => some (next, d)
  | n + 1, next, d => do
    let (start, d) ← compile next d
    if start = next then some (next, d) else copies compile n start d

/-- Compiles up to `n` nested optional copies of a body, each of which may be left for `exit`, until
a copy makes no node. -/
def optionalCopies (limit : Nat) (compile : Nat → Draft → Option (Nat × Draft)) (exit : Nat) :
    Nat → Nat → Draft → Option (Nat × Draft)
  | 0, next, d => some (next, d)
  | n + 1, next, d => do
    let (start, d) ← compile next d
    if start = next then some (next, d)
    else
      let (id, d) ← d.emitBranch limit start exit
      optionalCopies limit compile exit n id d

end Draft

namespace Pattern

mutual
/-- Compiles a pattern for the node `next` that follows it, and gives the node it starts with. -/
def compileFor (limit : Nat) : Pattern → Nat → Draft → Option (Nat × Draft)
  | .literal text, next, d =>
    if text.isEmpty then some (next, d)
    else d.emit limit (.literal text next) (d.minLength next + text.utf8ByteSize)
  | .sequence ps, next, d => compileItems limit ps next d
  | .alternation ps, next, d => do
    let (starts, d) ← compileOptions limit ps next d
    match starts.reverse with
    | [] => some (next, d)
    | last :: earlier => d.chain limit earlier last
  | .anyChar, next, d => d.emit limit (.anyChar next) (d.minLength next + 1)
  | .charClass cls, next, d => d.emit limit (.charClass cls next) (d.minLength next + 1)
  | .repetition p min none, next, d => do
    let (id, d) ← d.emitLoop limit p.isNullable next
    let (body, d) ← compileFor limit p id d
    (d.closeLoop id body).copies (compileFor limit p) min id
  | .repetition p min (some max), next, d => do
    let (start, d) ← d.optionalCopies limit (compileFor limit p) next (max - min) next
    d.copies (compileFor limit p) min start
  | .capture index p, next, d => do
    let (stop, d) ← d.emit limit (.mark index next) (d.minLength next)
    let (body, d) ← compileFor limit p stop d
    d.emit limit (.mark index body) (d.minLength body)
  | .backReference index, next, d => d.emit limit (.backReference index next) (d.minLength next)
  | .textStart, next, d => d.emit limit (.textStart next) (d.minLength next)
  | .textEnd, next, d => d.emit limit (.textEnd next) (d.minLength next)

/-- Compiles the items of a sequence, the last of them first. -/
def compileItems (limit : Nat) : List Pattern → Nat → Draft → Option (Nat × Draft)
  | [], next, d => some (next, d)
  | p :: ps, next, d => do
    let (start, d) ← compileItems limit ps next d
    compileFor limit p start d

/-- Compiles the options of an alternation for the same follower, the first of them first. -/
def compileOptions (limit : Nat) : List Pattern → Nat → Draft → Option (List Nat × Draft)
  | [], _, d => some ([], d)
  | p :: ps, next, d => do
    let (start, d) ← compileFor limit p next d
    let (starts, d) ← compileOptions limit ps next d
    some (start :: starts, d)
end

/-- Compiles a pattern to a program of at most `limit` nodes; none if it needs more. -/
def compile? (limit : Nat) (p : Pattern) : Option Program := do
  let (success, d) ← Draft.emit limit .success 0 ⟨#[], 0⟩
  let (root, d) ← p.compileFor limit success d
  let startsAnchored := match d.nodes[root]?.map Node.op with
    | some (.textStart _) => true
    | _ => false
  some ⟨d.nodes, root, p.groupCount, startsAnchored || p.isAnchored⟩

/-- The largest number of nodes of a program. -/
def maxNodes : Nat := 0x100000

end Pattern

end BacktrackRegex
