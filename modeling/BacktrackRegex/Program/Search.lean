import BacktrackRegex.Program.Basic
import BacktrackRegex.Search.Consume
import BacktrackRegex.Search.Speculation

/-!
# Searching programs

Each operation of a program decides by the text at the current place and by the trail. Operations
that consume text, and decisions, give up at once if fewer bytes are left than any match from there
on takes.
-/

namespace BacktrackRegex.Program

open Search

/-- The move of a node with `left` bytes to come. -/
@[inline] def moveAt (text : String) (node : Node) (left pos : Nat) (trail : Trail) : Move :=
  match node.op with
  | .success => .accept
  | .literal s next => needing node.minLength left (consumeText text pos s next)
  | .charClass cls next => needing node.minLength left (consumeChar text pos cls.accepts next)
  | .anyChar next => needing node.minLength left (consumeChar text pos (· != '\n') next)
  | .branch first second => needing node.minLength left (.choose first second none)
  | .loop index body exit => needing node.minLength left (iterateBody pos trail index body exit)
  | .mark group next => .mark (.group group) next
  | .backReference group next => consumeGroup text pos trail group next
  | .textStart next => assertPlace (pos == 0) pos next
  | .textEnd next => assertPlace (pos == text.utf8ByteSize) pos next

/-- The move of a node of a program. A number that is no node never matches. -/
@[inline] def move (p : Program) (text : String) : Moves := fun id pos trail =>
  if text.utf8ByteSize < pos then .fail .positionOutsideText
  else match p.nodes[id]? with
    | some node => moveAt text node (text.utf8ByteSize - pos) pos trail
    | none => .reject

/-- A number of rounds that is enough for searching a text. -/
def rounds (p : Program) (text : String) : Nat :=
  roundsFor p.size text.utf8ByteSize

/-- Searches for a match that begins at a place. The trail should end with that place under group 0;
the trail of a match ends with the place where the match stops. -/
def exec (p : Program) (text : String) (pos : Nat) (trail : Trail) : Outcome :=
  run (p.move text) (p.rounds text) ⟨p.root, pos, trail, []⟩

/-- Searches in the same way, with decisions shared out to workers. The search ends with the trail
of the match and with its own, over the storage of the trail that it was given. -/
def endShared (p : Program) (terms : Speculation) (text : String) (pos : Nat) (trail : Trail) :
    Ended :=
  runShared (p.move text) terms text.utf8ByteSize (p.rounds text) ⟨p.root, pos, trail, []⟩

/-- What a search comes to whose decisions are shared out to workers. -/
def execShared (p : Program) (terms : Speculation) (text : String) (pos : Nat) (trail : Trail) :
    Outcome :=
  (p.endShared terms text pos trail).outcome

end BacktrackRegex.Program
