/-!
# Numerals

Digits of natural numbers in the bases that patterns, listings and generated sources use, padded
with zeros to a least width.
-/

namespace BacktrackRegex.Text

/-- The digits of `n` in the given base, lower-case, with zeros in front up to `width` digits. -/
def digits (base width n : Nat) : List Char :=
  let ds := Nat.toDigits base n
  List.replicate (width - ds.length) '0' ++ ds

/-- The decimal numeral of `n`. -/
def decimal (n : Nat) : List Char :=
  digits 10 1 n

/-- The value of a run of decimal digits. -/
def decimalValue (ds : List Char) : Nat :=
  ds.foldl (fun value d => value * 10 + (d.toNat - '0'.toNat)) 0

/-- The value of a character as an octal digit. -/
def octalDigit? (c : Char) : Option Nat :=
  if '0' ≤ c ∧ c ≤ '7' then some (c.toNat - '0'.toNat) else none

end BacktrackRegex.Text
