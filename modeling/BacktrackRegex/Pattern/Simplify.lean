import BacktrackRegex.Pattern.Basic

/-!
# Simplifying patterns

Simplification works from the leaves up. Sequences inside sequences and alternations inside
alternations are opened, neighbouring literals of a sequence are joined, a class of a single
character becomes a literal, and sequences and alternations with fewer than two items give way to
the item or to the empty literal. What a pattern matches and captures stays the same.
-/

namespace BacktrackRegex.Pattern

/-- The items of a sequence, or the pattern alone. -/
def items : Pattern → List Pattern
  | .sequence ps => ps
  | p => [p]

/-- The options of an alternation, or the pattern alone. -/
def options : Pattern → List Pattern
  | .alternation ps => ps
  | p => [p]

/-- A pattern in front of items, joined with the first one if both are literals. -/
def joinInFront : Pattern → List Pattern → List Pattern
  | .literal s, .literal t :: rest => .literal (s ++ t) :: rest
  | p, rest => p :: rest

/-- The items with neighbouring literals joined. -/
def joinLiterals (ps : List Pattern) : List Pattern :=
  ps.foldr joinInFront []

/-- The sequence of some items: the empty literal for none, the item for one. -/
def collapseItems : List Pattern → Pattern
  | [] => .literal ""
  | [p] => p
  | ps => .sequence ps

/-- The alternation of some options: the empty literal for none, the option for one. -/
def collapseOptions : List Pattern → Pattern
  | [] => .literal ""
  | [p] => p
  | ps => .alternation ps

mutual
/-- The simplified pattern. -/
def simplify : Pattern → Pattern
  | .sequence ps => collapseItems (joinLiterals ((simplifyAll ps).flatMap items))
  | .alternation ps => collapseOptions ((simplifyAll ps).flatMap options)
  | .repetition p min max => .repetition (simplify p) min max
  | .capture i p => .capture i (simplify p)
  | .charClass c =>
    match c.single? with
    | some ch => .literal (String.singleton ch)
    | none => .charClass c
  | p => p

/-- The patterns of a list, each simplified. -/
def simplifyAll : List Pattern → List Pattern
  | [] => []
  | p :: ps => simplify p :: simplifyAll ps
end

end BacktrackRegex.Pattern
