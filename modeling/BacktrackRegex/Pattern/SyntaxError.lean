/-!
# Syntax errors of patterns

A text that is not a pattern is refused for one cause and at one place, counted in characters from
the start of the text.
-/

namespace BacktrackRegex

/-- What is wrong with a text that is not a pattern. -/
inductive SyntaxCause where
  /-- A quantifier or closing bracket where an item was expected. -/
  | unexpectedMeta (c : Char)
  /-- A group that is never closed. -/
  | unmatchedOpen
  /-- A closing parenthesis without a group. -/
  | unmatchedClose
  /-- An opening parenthesis and a question mark that are not followed by a colon. -/
  | unknownGroup
  /-- A backslash at the end. -/
  | danglingBackslash
  /-- A backslash before a character that has no escape. -/
  | unknownEscape (c : Char)
  /-- An escape with more than one digit that is not three octal digits below 256. -/
  | malformedOctal
  /-- A back-reference in a class. -/
  | referenceInClass
  /-- A back-reference to a group from inside that group. -/
  | referenceToOpenGroup (index : Nat)
  /-- A brace that does not open bounds. -/
  | malformedRepetition
  /-- Bounds in descending order. -/
  | invertedRepetition (min max : Nat)
  /-- A class that is never closed. -/
  | unterminatedClass
  /-- A range of a class whose bounds are in descending order. -/
  | invertedRange (lo hi : Char)
  /-- More capture groups than allowed. -/
  | tooManyGroups (limit : Nat)
  deriving DecidableEq, Repr

/-- Why a text is no pattern, and where. -/
structure SyntaxError where
  cause : SyntaxCause
  /-- The number of characters before the place of the error. -/
  position : Nat
  deriving DecidableEq, Repr

/-- The wording of a cause. -/
def SyntaxCause.message : SyntaxCause → String
  | .unexpectedMeta c => "unexpected `" ++ c.toString ++ "`, a literal was expected"
  | .unmatchedOpen => "unmatched `(`"
  | .unmatchedClose => "unmatched `)`"
  | .unknownGroup => "unknown group syntax, only `(?:` is supported"
  | .danglingBackslash => "trailing `\\` in pattern"
  | .unknownEscape c => "unknown escape sequence `\\" ++ c.toString ++ "`"
  | .malformedOctal => "malformed octal escape"
  | .referenceInClass => "back-references are not allowed in character classes"
  | .referenceToOpenGroup index =>
    "back-reference to group " ++ index.repr ++ " from inside the group itself"
  | .malformedRepetition => "malformed repetition"
  | .invertedRepetition min max =>
    "invalid repetition range \x7b" ++ min.repr ++ "," ++ max.repr ++ "\x7d"
  | .unterminatedClass => "unterminated character class"
  | .invertedRange lo hi =>
    "invalid character class range `" ++ lo.toString ++ "-" ++ hi.toString ++ "`"
  | .tooManyGroups limit => "too many capture groups, the maximum is " ++ limit.repr

/-- The wording of an error with its place. -/
def SyntaxError.message (e : SyntaxError) : String :=
  e.cause.message ++ " at position " ++ e.position.repr

end BacktrackRegex
