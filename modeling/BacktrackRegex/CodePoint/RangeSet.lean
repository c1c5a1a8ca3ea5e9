import BacktrackRegex.CodePoint.Range

/-!
# Sets of code points as lists of ranges

A range set lists its ranges in ascending order. Ranges of stride one are coalesced when they
overlap or touch, so that such a set has one list only; a set with a larger stride anywhere is
sorted and otherwise left as it was given. Membership looks for the one range that can hold a code
point by bisection on the upper bounds.
-/

namespace BacktrackRegex

/-- A sorted list of ranges of code points. -/
structure RangeSet where
  ranges : List CodeRange
  deriving DecidableEq, Repr

namespace RangeSet

/-- The set without code points. -/
def empty : RangeSet := ⟨[]⟩

/-- Whether every range of the set has stride one. -/
def isUnit (s : RangeSet) : Bool :=
  s.ranges.all CodeRange.isUnit

/-- Joins a range with those after it that overlap or touch it, then goes on with the rest. The
list must be sorted by lower bound. -/
def coalesceFrom (current : CodeRange) : List CodeRange → List CodeRange
  | [] => [current]
  | r :: rest =>
    if r.lo ≤ current.hi + 1 then coalesceFrom (current.reaching r) rest
    else current :: coalesceFrom r rest

/-- Joins overlapping and touching ranges of a list sorted by lower bound. -/
def coalesce : List CodeRange → List CodeRange
  | [] => []
  | r :: rest => coalesceFrom r rest

/-- The set of all code points of a list of ranges. Ranges of stride one may overlap and come in
any order. -/
def ofRanges (rs : List CodeRange) : RangeSet :=
  let sorted := rs.mergeSort CodeRange.precedes
  if sorted.all CodeRange.isUnit then ⟨coalesce sorted⟩ else ⟨sorted⟩

/-- The characters from `a` to `b`. -/
def ofChars (a b : Char) : RangeSet :=
  ⟨[CodeRange.between a.toNat b.toNat]⟩

/-- The least index from `base` on at which `below` stops to hold, among `size` candidates, found by
halving. -/
def bisect (below : Nat → Bool) (base size : Nat) : Nat :=
  if size ≤ 1 then
    if below base then base + 1 else base
  else
    let middle := base + size / 2
    bisect below (if below middle then middle else base) (size - size / 2)
termination_by size

/-- Whether the set holds a code point. The only range that can hold it is the first one that does
not end below it. -/
def contains (s : RangeSet) (c : Nat) : Bool :=
  let below i := match s.ranges[i]? with
    | some r => r.hi < c
    | none => false
  match s.ranges[bisect below 0 s.ranges.length]? with
  | some r => r.contains c
  | none => false

/-- Whether the set has no ranges. -/
def isEmpty (s : RangeSet) : Bool :=
  s.ranges.isEmpty

/-- The upper bound of the last range. -/
def max? (s : RangeSet) : Option Nat :=
  s.ranges.getLast?.map CodeRange.hi

/-- The code point of a set that consists of a single one. -/
def single? (s : RangeSet) : Option Nat :=
  match s.ranges with
  | [r] => if r.lo = r.hi then some r.lo else none
  | _ => none

/-- The union of two sets of stride one. -/
def union (s t : RangeSet) : RangeSet :=
  ⟨coalesce (s.ranges.merge t.ranges fun r q => r.lo ≤ q.lo)⟩

/-- The gaps before, between and after ranges, from the code point `start` on. -/
def gapsFrom (start : Nat) : List CodeRange → List CodeRange
  | [] => [CodeRange.between start maxCodePoint]
  | r :: rest =>
    let gap := if start < r.lo then [CodeRange.between start (r.lo - 1)] else []
    if r.hi + 1 ≤ maxCodePoint then gap ++ gapsFrom (r.hi + 1) rest else gap

/-- The code points outside a set of stride one. -/
def complement? (s : RangeSet) : Option RangeSet :=
  if s.isUnit then some ⟨gapsFrom 0 s.ranges⟩ else none

end RangeSet

end BacktrackRegex
