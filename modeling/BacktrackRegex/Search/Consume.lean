import BacktrackRegex.Search.Machine
import BacktrackRegex.Text.Offset

/-!
# Moves that depend on the text

The moves of nodes that look at the text: a fixed text, a character with a property, the text of a
capture group, and one more iteration of a guarded loop. A node that needs a number of bytes does
not match where fewer are left.
-/

namespace BacktrackRegex.Search

/-- A move that takes place only if `needed` bytes are left. -/
@[inline] def needing (needed left : Nat) (move : Move) : Move :=
  if left < needed then .reject else move

/-- Consumes the text `s`. -/
@[inline] def consumeText (text : String) (pos : Nat) (s : String) (next : Nat) : Move :=
  if Text.occursAt text pos s then .goto next (pos + s.utf8ByteSize) else .reject

/-- Consumes a character with a property. -/
@[inline] def consumeChar (text : String) (pos : Nat) (accepts : Char → Bool) (next : Nat) : Move :=
  match Text.charAt? text pos with
  | some c => if accepts c then .goto next (pos + c.utf8Size) else .reject
  | none => .reject

/-- Consumes the text of the latest span of a capture group. -/
def consumeGroup (text : String) (pos : Nat) (trail : Trail) (group next : Nat) : Move :=
  match trail.captured group with
  | .error fault => .fail fault
  | .ok none => .reject
  | .ok (some span) =>
    if span.stop < span.start ∨ text.utf8ByteSize < span.stop then .fail .spanOutsideText
    else if Text.sameBytes text pos text span.start (span.stop - span.start) then
      .goto next (pos + (span.stop - span.start))
    else .reject

/-- Decides whether to iterate the body of a guarded loop once more. A body whose latest iteration
began at the same place consumed nothing, and another one would not end. -/
@[inline] def iterateBody (pos : Nat) (trail : Trail) (index body exit : Nat) : Move :=
  if trail.find? (.loop index) = some pos then .goto exit pos
  else .choose body exit (some (.loop index))

/-- Matches where a property of the place holds. -/
@[inline] def assertPlace (holds : Bool) (pos next : Nat) : Move :=
  if holds then .goto next pos else .reject

end BacktrackRegex.Search
