/-!
# Ranges of code points

An inclusive range of code points with a stride: a stride of one holds every code point between the
bounds, a larger one only those that lie whole strides above the lower bound. Upper bounds never
exceed the last code point. A lower bound may, and then the range is empty.
-/

namespace BacktrackRegex

/-- The last code point. -/
def maxCodePoint : Nat := 0x10FFFF

/-- The character with a given code point. Surrogates and numbers past the last code point have
none. -/
def charOfCodePoint? (c : Nat) : Option Char :=
  if c.isValidChar then some (Char.ofNat c) else none

/-- Code points `lo`, `lo + stride`, `lo + 2 * stride`, … up to `hi`. -/
structure CodeRange where
  lo : Nat
  hi : Nat
  stride : Nat
  hi_le : hi ≤ maxCodePoint
  stride_pos : 0 < stride
  deriving DecidableEq, Repr

namespace CodeRange

/-- The range between two bounds given in either order. A stride of zero counts as one. -/
def stepping (a b stride : Nat) : CodeRange where
  lo := min a b
  hi := min (max a b) maxCodePoint
  stride := max stride 1
  hi_le := Nat.min_le_right _ _
  stride_pos := Nat.le_max_right _ _

/-- All code points between two bounds given in either order. -/
def between (a b : Nat) : CodeRange :=
  stepping a b 1

/-- Whether the range holds every code point between its bounds. -/
def isUnit (r : CodeRange) : Bool :=
  r.stride == 1

/-- Whether a code point belongs to the range. -/
def contains (r : CodeRange) (c : Nat) : Bool :=
  r.lo ≤ c && c ≤ r.hi && (c - r.lo) % r.stride == 0

/-- The order of ranges by lower and then by upper bound. -/
def precedes (r s : CodeRange) : Bool :=
  r.lo < s.lo || r.lo == s.lo && r.hi ≤ s.hi

/-- The range widened upwards so that it ends no earlier than another one. -/
def reaching (r s : CodeRange) : CodeRange :=
  { r with hi := max r.hi s.hi, hi_le := Nat.max_le.mpr ⟨r.hi_le, s.hi_le⟩ }

end CodeRange

end BacktrackRegex
