import BacktrackRegex.CodePoint.RangeSet

/-!
# Sets of code points as ASCII masks

A mask has a bit for each of the first 128 code points and one answer for all the others, so its
complement is a mask again.
-/

namespace BacktrackRegex

/-- A set of code points told by 128 bits and one answer for the code points beyond them. -/
structure AsciiMask where
  /-- Bit `c` tells whether the code point `c` belongs to the set. -/
  bits : BitVec 128
  /-- Whether the code points from 128 on belong to the set. -/
  beyond : Bool
  deriving DecidableEq, Repr

namespace AsciiMask

/-- The mask whose bits come from two words, the low one for the code points below 64. -/
def ofWords (lo hi : UInt64) (beyond : Bool) : AsciiMask :=
  ⟨hi.toBitVec ++ lo.toBitVec, beyond⟩

/-- The two words of a mask, the low one first. -/
def words (m : AsciiMask) : UInt64 × UInt64 :=
  (⟨m.bits.extractLsb' 0 64⟩, ⟨m.bits.extractLsb' 64 64⟩)

/-- Whether the set holds a code point. -/
def contains (m : AsciiMask) (c : Nat) : Bool :=
  if c < 128 then m.bits.getLsbD c else m.beyond

/-- The code points outside the set. -/
def negate (m : AsciiMask) : AsciiMask :=
  ⟨~~~m.bits, !m.beyond⟩

/-- The ASCII code points of the set in ascending order. -/
def asciiMembers (m : AsciiMask) : List Nat :=
  (List.range 128).filter m.bits.getLsbD

/-- The number of ASCII code points in the set. -/
def count (m : AsciiMask) : Nat :=
  m.asciiMembers.length

/-- The ASCII code points of the set as ranges. -/
def asciiRanges (m : AsciiMask) : RangeSet :=
  RangeSet.ofRanges (m.asciiMembers.map fun c => CodeRange.between c c)

/-- The 128 bits whose values a test gives. -/
def bitsOf (test : Nat → Bool) : BitVec 128 :=
  (BitVec.ofBoolListLE ((List.range 128).map test)).cast (by simp)

/-- A bit of the 128 is the value of the test. -/
@[simp] theorem getLsbD_bitsOf (test : Nat → Bool) (c : Nat) :
    (bitsOf test).getLsbD c = (decide (c < 128) && test c) := by
  simp only [bitsOf, BitVec.getLsbD_cast, BitVec.getLsbD_ofBoolListLE]
  by_cases h : c < 128 <;> simp [List.getD, h]

/-- The mask of a range set whose last range ends below 128. -/
def ofRangeSet? (s : RangeSet) : Option AsciiMask :=
  if s.max?.any (128 ≤ ·) then none
  else some ⟨bitsOf fun c => s.ranges.any (·.contains c), false⟩

end AsciiMask

end BacktrackRegex
