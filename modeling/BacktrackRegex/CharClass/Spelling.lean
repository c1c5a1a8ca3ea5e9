import BacktrackRegex.CharClass.Basic
import BacktrackRegex.Text.Numeral

/-!
# The spelling of character classes

A class is spelled as it stands between the brackets of a pattern: ranges with a hyphen between
their bounds, a caret in front of what is negated. Characters that mean something between brackets
have a backslash, controls are octal escapes, and a code point that is no character is spelled in
braces. Strides follow a slash; patterns cannot say them.
-/

namespace BacktrackRegex

/-- Whether a character is a control: one below the space, or one from delete to the end of the
second control block. -/
def isControl (c : Char) : Bool :=
  c.toNat < 0x20 || (0x7F ≤ c.toNat && c.toNat ≤ 0x9F)

/-- The three-digit octal escape of a character below 256. -/
def octalEscape (c : Char) : List Char :=
  '\\' :: Text.digits 8 3 c.toNat

/-- The characters that have a backslash inside a class. -/
def isClassMeta (c : Char) : Bool :=
  c == '\\' || c == ']' || c == '[' || c == '^' || c == '-'

/-- The spelling of a code point inside a class. -/
def spellCodePoint (c : Nat) : List Char :=
  match charOfCodePoint? c with
  | some ch => if isClassMeta ch then ['\\', ch] else if isControl ch then octalEscape ch else [ch]
  | none => ['\\', 'u', '{'] ++ Text.digits 16 1 c ++ ['}']

/-- The spelling of a range: its bounds, and its stride if that is not one. -/
def CodeRange.spell (r : CodeRange) : List Char :=
  spellCodePoint r.lo
    ++ (if r.lo < r.hi then '-' :: spellCodePoint r.hi else [])
    ++ (if 1 < r.stride then '/' :: Text.decimal r.stride else [])

/-- The spelling of a range set: its ranges one after the other. -/
def RangeSet.spell (s : RangeSet) : List Char :=
  s.ranges.flatMap CodeRange.spell

/-- The spelling of a mask: the ranges of its ASCII code points, or a caret and the ranges of the
others if it holds everything beyond them. -/
def AsciiMask.spell (m : AsciiMask) : List Char :=
  if m.beyond then '^' :: m.negate.asciiRanges.spell else m.asciiRanges.spell

namespace CharClass

/-- Whether a class is a complement. -/
def isComplement : CharClass → Bool
  | .complement _ => true
  | _ => false

mutual
/-- The spelling of a class without the brackets around it. -/
def spell : CharClass → List Char
  | .ascii mask => mask.spell
  | .ranges set => set.spell
  | .complement inner => '^' :: spell inner
  | .union members => spellMembers members

/-- The spelling of the members of a union, with brackets around complements. -/
def spellMembers : List CharClass → List Char
  | [] => []
  | m :: ms =>
    (if m.isComplement then '[' :: spell m ++ [']'] else spell m) ++ spellMembers ms
end

/-- The spelling of a class as a text. -/
def render (c : CharClass) : String :=
  String.ofList c.spell

end CharClass

end BacktrackRegex
