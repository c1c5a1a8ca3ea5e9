import BacktrackRegex.Text.Numeral

/-!
# Numerals are read back

A decimal numeral consists of digits and has the value of its number. The octal numeral of a number
below 256 has exactly three digits if it is padded to this width.
-/

namespace BacktrackRegex.Text

/-- Decimal numerals need no padding. -/
theorem decimal_eq (n : Nat) : decimal n = Nat.toDigits 10 n := by
  have hpos : 1 - (Nat.toDigits 10 n).length = 0 := Nat.sub_eq_zero_of_le Nat.length_toDigits_pos
  simp only [decimal, digits, hpos, List.replicate_zero, List.nil_append]

/-- The value of decimal digits is the positional one. -/
theorem decimalValue_eq (ds : List Char) : decimalValue ds = Nat.ofDigitChars 10 ds 0 := by
  simp only [decimalValue, Nat.ofDigitChars, Nat.mul_comm]

/-- The value of a decimal numeral is its number. -/
theorem decimalValue_decimal (n : Nat) : decimalValue (decimal n) = n := by
  rw [decimalValue_eq, decimal_eq, Nat.ofDigitChars_ten_toDigits]

/-- Decimal numerals consist of digits. -/
theorem isDigit_of_mem_decimal {n : Nat} {d : Char} (h : d ∈ decimal n) : d.isDigit = true :=
  Nat.isDigit_of_mem_toDigits (by decide) (by decide) (decimal_eq n ▸ h)

/-- Decimal numerals are not empty. -/
theorem decimal_ne_nil (n : Nat) : decimal n ≠ [] :=
  decimal_eq n ▸ Nat.toDigits_ne_nil

/-- The numeral of a single digit is the digit. -/
theorem decimal_of_lt {n : Nat} (h : n < 10) : decimal n = [n.digitChar] := by
  rw [decimal_eq, Nat.toDigits_of_lt_base h]

/-- Three octal digits are enough for a number below 256, and never too many. -/
theorem digits_eight {n : Nat} (h : n < 256) :
    digits 8 3 n = [(n / 64).digitChar, (n / 8 % 8).digitChar, (n % 8).digitChar] := by
  have hall : ∀ n < 256,
      digits 8 3 n = [(n / 64).digitChar, (n / 8 % 8).digitChar, (n % 8).digitChar] := by
    decide +kernel
  exact hall n h

end BacktrackRegex.Text
