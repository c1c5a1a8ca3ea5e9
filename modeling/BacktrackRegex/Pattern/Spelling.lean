import BacktrackRegex.CharClass.Spelling
import BacktrackRegex.Pattern.Basic

/-!
# The spelling of patterns

A tree is spelled so that reading the spelling and simplifying gives the simplified tree again, with
three exceptions: a repeated digit directly after a back-reference runs into it, an empty literal
among other items leaves no trace, and a class with bounds that are no characters, or with ranges of
which a mask is read, is not read back. Sequences and alternations stand in groups without a number,
so no precedence is left to chance. A literal takes a group of its own under a quantifier unless it
is one character long, and after a back-reference if it begins with a digit.
-/

namespace BacktrackRegex.Pattern

/-- The characters that have a backslash outside classes. -/
def isMeta (c : Char) : Bool :=
  "$^*()+[]\x7b\x7d|\\.?".toList.contains c

/-- The spelling of one character of a literal. -/
def spellChar (c : Char) : List Char :=
  if isMeta c then ['\\', c]
  else match c with
    | '\t' => ['\\', 't']
    | '\n' => ['\\', 'n']
    | '\r' => ['\\', 'r']
    | c => if isControl c then octalEscape c else [c]

/-- The spelling of a literal. -/
def spellLiteral (s : String) : List Char :=
  s.toList.flatMap spellChar

/-- The spelling of bounds of a repetition. -/
def spellQuantifier (min : Nat) (max : Option Nat) : List Char :=
  match min, max with
  | 0, none => ['*']
  | 1, none => ['+']
  | 0, some 1 => ['?']
  | m, none => '{' :: Text.decimal m ++ [',', '}']
  | m, some n =>
    if m = n then '{' :: Text.decimal m ++ ['}']
    else '{' :: Text.decimal m ++ ',' :: Text.decimal n ++ ['}']

/-- A spelling inside a group without a number. -/
def grouped (s : List Char) : List Char :=
  '(' :: '?' :: ':' :: s ++ [')']

/-- Whether the quantifier of a pattern would fall on a part of its spelling, or on another
quantifier. -/
def needsGroup : Pattern → Bool
  | .literal s => s.length != 1
  | .repetition .. => true
  | _ => false

/-- Whether a pattern is a literal that begins with an ASCII digit. -/
def startsWithDigit : Pattern → Bool
  | .literal s => s.toList.head?.any Char.isDigit
  | _ => false

/-- Whether a pattern is a back-reference. -/
def isBackReference : Pattern → Bool
  | .backReference _ => true
  | _ => false

mutual
/-- The spelling of a pattern. -/
def spell : Pattern → List Char
  | .literal s => spellLiteral s
  | .sequence ps => grouped (spellItems false ps)
  | .alternation ps => grouped (spellOptions ps)
  | .anyChar => ['.']
  | .repetition p min max =>
    (if p.needsGroup then grouped (spell p) else spell p) ++ spellQuantifier min max
  | .capture _ p => '(' :: spell p ++ [')']
  | .backReference i => '\\' :: Text.decimal i
  | .textStart => ['^']
  | .textEnd => ['$']
  | .charClass c => '[' :: c.spell ++ [']']

/-- The spelling of the items of a sequence, the first of which may follow a back-reference. -/
def spellItems (afterReference : Bool) : List Pattern → List Char
  | [] => []
  | p :: ps =>
    (if afterReference && p.startsWithDigit then grouped (spell p) else spell p)
      ++ spellItems p.isBackReference ps

/-- The spelling of the options of an alternation. -/
def spellOptions : List Pattern → List Char
  | [] => []
  | [p] => spell p
  | p :: q :: ps => spell p ++ '|' :: spellOptions (q :: ps)
end

/-- The spelling of a pattern as a text. -/
def render (p : Pattern) : String :=
  String.ofList p.spell

end BacktrackRegex.Pattern
