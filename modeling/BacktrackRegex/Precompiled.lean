import BacktrackRegex.Search.Consume

/-!
# Precompiled patterns

Some patterns have a matcher of their own, whose nodes and bounds are written out instead of being
looked up in a program. It indexes the text without asking whether the place allows it. The registry
holds what a search needs to know about each of them besides the matcher. Patterns are found by
their exact text.
-/

namespace BacktrackRegex

open Search

/-- A pattern with a matcher of its own. -/
structure Precompiled where
  /-- The text of the pattern. -/
  pattern : String
  /-- Whether matches begin at the start of the text only. -/
  anchored : Bool
  /-- The least number of bytes that a match takes. -/
  minLength : Nat
  /-- The number of capture groups. -/
  groups : Nat
  /-- The node that a search starts with. -/
  entry : Nat
  /-- The number of nodes. -/
  size : Nat
  /-- The moves of the nodes on a text. -/
  moves : String → Moves

namespace Precompiled

/-- A move that takes place only if `needed` bytes are left from a place on. They are counted, which
cannot be done from a place behind the end of the text. -/
@[inline] def needingFrom (text : String) (pos needed : Nat) (move : Move) : Move :=
  if text.utf8ByteSize < pos then .fail .positionOutsideText
  else needing needed (text.utf8ByteSize - pos) move

/-- Consumes a character with a property. The text is cut at the place, which cannot be done inside
of a character. -/
@[inline] def readChar (text : String) (pos : Nat) (accepts : Char → Bool) (next : Nat) : Move :=
  if Text.isBoundary text pos then consumeChar text pos accepts next else .fail .insideCharacter

/-- Consumes the text of the latest span of a capture group. The text is cut at the place if the
group has a span. -/
@[inline] def readGroup (text : String) (pos : Nat) (trail : Trail) (group next : Nat) : Move :=
  match trail.captured group with
  | .ok (some _) => needingFrom text pos 0 (consumeGroup text pos trail group next)
  | _ => consumeGroup text pos trail group next

/-- The moves of the matcher of `(hoge)\1fuga`. -/
def repeatedHoge (text : String) : Moves := fun node pos trail =>
  match node with
  | 0 => .accept
  | 1 => needingFrom text pos 4 (consumeText text pos "fuga" 0)
  | 2 => readGroup text pos trail 1 1
  | 3 => .mark (.group 1) 2
  | 4 => needingFrom text pos 8 (consumeText text pos "hoge" 3)
  | 5 => .mark (.group 1) 4
  | _ => .reject

/-- The characters from `a` to `c`, as a mask over ASCII. -/
def lowerABC (c : Char) : Bool :=
  c.toNat < 128 && (0xe000000000000000000000000 >>> c.toNat) % 2 != 0

/-- The moves of the matcher of `[a-c]+.`. -/
def lettersAndOne (text : String) : Moves := fun node pos _ =>
  match node with
  | 0 => .accept
  | 1 => needingFrom text pos 1 (readChar text pos (· != '\n') 0)
  | 2 => needingFrom text pos 1 (.choose 3 1 none)
  | 3 => needingFrom text pos 2 (readChar text pos lowerABC 2)
  | 4 => needingFrom text pos 2 (readChar text pos lowerABC 2)
  | _ => .reject

/-- The moves of the matcher of `(^|A)*foo bar`. -/
def prefixedFooBar (text : String) : Moves := fun node pos trail =>
  match node with
  | 0 => .accept
  | 1 => needingFrom text pos 7 (consumeText text pos "foo bar" 0)
  | 2 => needingFrom text pos 7 (iterateBody pos trail 1 7 1)
  | 3 => .mark (.group 1) 2
  | 4 => assertPlace (pos == 0) pos 3
  | 5 => needingFrom text pos 8 (consumeText text pos "A" 3)
  | 6 => needingFrom text pos 7 (.choose 4 5 none)
  | 7 => .mark (.group 1) 6
  | _ => .reject

/-- The precompiled patterns. -/
def registry : List Precompiled :=
  [⟨"(hoge)\\1fuga", false, 8, 1, 5, 6, repeatedHoge⟩,
    ⟨"[a-c]+.", false, 2, 0, 4, 5, lettersAndOne⟩,
    ⟨"(^|A)*foo bar", false, 7, 1, 2, 8, prefixedFooBar⟩]

/-- The precompiled pattern with a given text. -/
def lookup (pattern : String) : Option Precompiled :=
  registry.find? (·.pattern == pattern)

/-- Searches for a match that begins at a place. -/
def exec (m : Precompiled) (text : String) (pos : Nat) (trail : Trail) : Outcome :=
  run (m.moves text) (roundsFor m.size text.utf8ByteSize) ⟨m.entry, pos, trail, []⟩

end Precompiled

end BacktrackRegex
