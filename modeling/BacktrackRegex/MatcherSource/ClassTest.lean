import BacktrackRegex.CharClass.Basic
import BacktrackRegex.Text.Numeral

/-!
# Tests for character classes in source text

The membership test of a class is an expression over the code point `u`: a shift for a mask, a match
on the ranges of stride one, and arithmetic for the other ranges.
-/

namespace BacktrackRegex.MatcherSource

/-- The test of a mask. -/
def maskTest (mask : AsciiMask) : String :=
  let bits := "0x" ++ String.ofList (Text.digits 16 1 mask.bits.toNat) ++ "u128"
  if mask.beyond then "(u >= 128 || (" ++ bits ++ " >> u) & 1 != 0)"
  else "(u < 128 && (" ++ bits ++ " >> u) & 1 != 0)"

/-- The pattern that a range contributes to a match on the code point, if it needs no stride. -/
def rangePattern? (r : CodeRange) : Option String :=
  if r.lo = r.hi then some r.lo.repr
  else if r.stride = 1 then some (r.lo.repr ++ "..=" ++ r.hi.repr)
  else none

/-- The test of a range with its stride. -/
def strideTest (r : CodeRange) : String :=
  "(u >= " ++ r.lo.repr ++ " && u <= " ++ r.hi.repr ++ " && (u - " ++ r.lo.repr ++ ") % "
    ++ r.stride.repr ++ " == 0)"

/-- A test that holds if one of several does. -/
def anyOf : List String → String
  | [] => "false"
  | [test] => test
  | tests => "(" ++ " || ".intercalate tests ++ ")"

/-- The test of a range set: a match on all ranges that need no stride, then the other ranges. -/
def rangesTest (set : RangeSet) : String :=
  let patterns := set.ranges.filterMap rangePattern?
  let strided := (set.ranges.filter fun r => (rangePattern? r).isNone).map strideTest
  anyOf (if patterns.isEmpty then strided
    else ("matches!(u, " ++ " | ".intercalate patterns ++ ")") :: strided)

mutual
/-- The test of a class. -/
def classTest : CharClass → String
  | .ascii mask => maskTest mask
  | .ranges set => rangesTest set
  | .complement inner => "!(" ++ classTest inner ++ ")"
  | .union [] => "false"
  | .union (m :: ms) => "(" ++ " || ".intercalate (classTests (m :: ms)) ++ ")"

/-- The tests of a list of classes. -/
def classTests : List CharClass → List String
  | [] => []
  | m :: ms => classTest m :: classTests ms
end

end BacktrackRegex.MatcherSource
