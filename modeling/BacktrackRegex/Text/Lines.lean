/-!
# Lines of bytes

A line ends at a newline byte, and a carriage return right before that byte belongs to the end. What
follows the last newline is a line without an end, unless it is empty.
-/

namespace BacktrackRegex.Text

/-- The bytes before the first newline, and the bytes between each newline and the next one. -/
def splitNewlines (bytes : List UInt8) : List UInt8 × List (List UInt8) :=
  let add (b : UInt8) : List UInt8 × List (List UInt8) → List UInt8 × List (List UInt8)
    | (piece, pieces) => if b = 10 then ([], piece :: pieces) else (b :: piece, pieces)
  bytes.foldr add ([], [])

/-- Bytes without a carriage return at their end. -/
def chomp (bytes : List UInt8) : List UInt8 :=
  if bytes.getLast? = some 13 then bytes.dropLast else bytes

/-- The lines of some bytes, without their ends. -/
def lines (bytes : List UInt8) : List (List UInt8) :=
  let (piece, pieces) := splitNewlines bytes
  let all := piece :: pieces
  let last := pieces.getLast?.getD piece
  all.dropLast.map chomp ++ if last.isEmpty then [] else [last]

/-- The text that some bytes encode. -/
def decode? (bytes : List UInt8) : Option String :=
  String.fromUTF8? ⟨bytes.toArray⟩

end BacktrackRegex.Text
