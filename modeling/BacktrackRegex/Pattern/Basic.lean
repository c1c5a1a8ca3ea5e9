import BacktrackRegex.CharClass.Basic

/-!
# Patterns

A pattern is the tree of a regular expression with capture groups and back-references. Group 0 is
the whole match and has no node; the groups of a pattern are numbered from 1 by their opening
parentheses.
-/

namespace BacktrackRegex

/-- The tree of a regular expression. -/
inductive Pattern where
  /-- A fixed text, possibly empty. -/
  | literal (text : String)
  /-- One item after the other. -/
  | sequence (items : List Pattern)
  /-- One of the options; earlier ones are preferred. -/
  | alternation (options : List Pattern)
  /-- Any character except the newline. -/
  | anyChar
  /-- At least `min` copies of the body and at most `max`; without `max` there is no limit. More
  copies are preferred. -/
  | repetition (body : Pattern) (min : Nat) (max : Option Nat)
  /-- A capture group. -/
  | capture (index : Nat) (body : Pattern)
  /-- The text of the latest completed span of a capture group. -/
  | backReference (index : Nat)
  /-- The start of the text. -/
  | textStart
  /-- The end of the text. -/
  | textEnd
  /-- A character of a class. -/
  | charClass (cls : CharClass)
  deriving Repr

namespace Pattern

mutual
/-- Whether two patterns are the same tree. -/
def same : Pattern → Pattern → Bool
  | .literal s, .literal t => s == t
  | .sequence ps, .sequence qs => sameAll ps qs
  | .alternation ps, .alternation qs => sameAll ps qs
  | .anyChar, .anyChar => true
  | .repetition p m n, .repetition q k l => same p q && m == k && n == l
  | .capture i p, .capture j q => i == j && same p q
  | .backReference i, .backReference j => i == j
  | .textStart, .textStart => true
  | .textEnd, .textEnd => true
  | .charClass c, .charClass d => c == d
  | _, _ => false

/-- Whether two lists of patterns are the same trees. -/
def sameAll : List Pattern → List Pattern → Bool
  | [], [] => true
  | p :: ps, q :: qs => same p q && sameAll ps qs
  | _, _ => false
end

mutual
/-- Patterns that are the same tree are equal. -/
theorem same_iff : (p q : Pattern) → (same p q = true ↔ p = q)
  | .literal _, q => by cases q <;> simp [same]
  | .sequence ps, q => by cases q <;> simp [same, sameAll_iff ps]
  | .alternation ps, q => by cases q <;> simp [same, sameAll_iff ps]
  | .anyChar, q => by cases q <;> simp [same]
  | .repetition p _ _, q => by cases q <;> simp [same, same_iff p, and_assoc]
  | .capture _ p, q => by cases q <;> simp [same, same_iff p]
  | .backReference _, q => by cases q <;> simp [same]
  | .textStart, q => by cases q <;> simp [same]
  | .textEnd, q => by cases q <;> simp [same]
  | .charClass _, q => by cases q <;> simp [same]

/-- Lists of patterns that are the same trees are equal. -/
theorem sameAll_iff : (ps qs : List Pattern) → (sameAll ps qs = true ↔ ps = qs)
  | [], qs => by cases qs <;> simp [sameAll]
  | p :: ps, qs => by cases qs <;> simp [sameAll, same_iff p, sameAll_iff ps]
end

instance : DecidableEq Pattern := fun p q =>
  decidable_of_iff (same p q = true) (same_iff p q)

mutual
/-- Whether the shape of the pattern lets it match the empty text somewhere. Anchors and
back-references are taken to be able to. -/
def isNullable : Pattern → Bool
  | .literal s => s.isEmpty
  | .sequence ps => allNullable ps
  | .alternation ps => anyNullable ps
  | .anyChar => false
  | .repetition p min _ => min == 0 || isNullable p
  | .capture _ p => isNullable p
  | .backReference _ => true
  | .textStart => true
  | .textEnd => true
  | .charClass _ => false

/-- Whether all patterns of a list can match the empty text. -/
def allNullable : List Pattern → Bool
  | [] => true
  | p :: ps => isNullable p && allNullable ps

/-- Whether some pattern of a list can match the empty text. -/
def anyNullable : List Pattern → Bool
  | [] => false
  | p :: ps => isNullable p || anyNullable ps
end

mutual
/-- Whether the shape of the pattern lets it match at the start of the text only. -/
def isAnchored : Pattern → Bool
  | .textStart => true
  | .sequence (p :: _) => isAnchored p
  | .alternation (p :: ps) => isAnchored p && allAnchored ps
  | .repetition p min _ => 0 < min && isAnchored p
  | .capture _ p => isAnchored p
  | _ => false

/-- Whether all patterns of a list match at the start of the text only. -/
def allAnchored : List Pattern → Bool
  | [] => true
  | p :: ps => isAnchored p && allAnchored ps
end

mutual
/-- The number of capture groups. -/
def groupCount : Pattern → Nat
  | .sequence ps => groupCounts ps
  | .alternation ps => groupCounts ps
  | .repetition p _ _ => groupCount p
  | .capture _ p => 1 + groupCount p
  | _ => 0

/-- The number of capture groups of a list of patterns. -/
def groupCounts : List Pattern → Nat
  | [] => 0
  | p :: ps => groupCount p + groupCounts ps
end

/-- The items of a sequence: a single one stands for itself. -/
def ofItems : List Pattern → Pattern
  | [p] => p
  | ps => .sequence ps

/-- The options of an alternation: a single one stands for itself. -/
def ofOptions : List Pattern → Pattern
  | [p] => p
  | ps => .alternation ps

end Pattern

end BacktrackRegex
