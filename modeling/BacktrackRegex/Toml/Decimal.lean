/-!
# Decimal numbers of TOML documents

The floats of a document are doubles, and a decimal number stands for the double nearest to it. The
numbers from half a step above the largest double on have none.
-/

namespace BacktrackRegex.Toml

/-- A decimal number: its digits as a natural number, times a power of ten. -/
structure Decimal where
  negative : Bool
  significand : Nat
  exponent : Int
  deriving DecidableEq, Repr

namespace Decimal

/-- The least natural number that is too large for a double. It is halfway from the largest double
to the power of two after it, and would have to be rounded to that power. -/
def doubleLimit : Nat :=
  0x3FFFFFFFFFFFFF <<< 970

/-- Whether the number without its sign is too large for a double. Powers of ten that decide this by
themselves are not computed. -/
def exceedsDoubles (d : Decimal) : Bool :=
  let up := d.exponent.toNat
  let down := (-d.exponent).toNat
  d.significand != 0
    && (309 ≤ up
      || down ≤ d.significand.log2
        && doubleLimit * Nat.pow 10 down ≤ d.significand * Nat.pow 10 up)

/-- A power of ten with 309 zeros is too large for a double. -/
theorem doubleLimit_le_pow {n : Nat} (h : 309 ≤ n) : doubleLimit ≤ Nat.pow 10 n :=
  Nat.le_trans (by decide +kernel) (Nat.pow_le_pow_right (by decide) h)

/-- A number is less than the power of ten with more zeros than it has bits after the first. -/
theorem lt_pow_of_log2_lt {m n : Nat} (h : m.log2 < n) : m < Nat.pow 10 n :=
  Nat.lt_of_lt_of_le Nat.lt_log2_self
    (Nat.le_trans (Nat.pow_le_pow_right (by decide) h) (Nat.pow_le_pow_left (by decide) n))

/-- A number is too large for a double just if it is not below the limit. -/
theorem exceedsDoubles_iff (d : Decimal) :
    d.exceedsDoubles = true ↔
      doubleLimit * Nat.pow 10 (-d.exponent).toNat
        ≤ d.significand * Nat.pow 10 d.exponent.toNat := by
  have positive : 0 < doubleLimit * Nat.pow 10 (-d.exponent).toNat :=
    Nat.mul_pos (by decide) (Nat.pow_pos (by decide))
  simp only [exceedsDoubles, Bool.and_eq_true, Bool.or_eq_true, bne_iff_ne, decide_eq_true_eq]
  constructor
  · rintro ⟨nonzero, large | ⟨-, h⟩⟩
    · have down : (-d.exponent).toNat = 0 := by omega
      rw [down]
      calc doubleLimit * Nat.pow 10 0
        _ = doubleLimit := Nat.mul_one doubleLimit
        _ ≤ Nat.pow 10 d.exponent.toNat := doubleLimit_le_pow large
        _ ≤ d.significand * Nat.pow 10 d.exponent.toNat :=
          Nat.le_mul_of_pos_left _ (Nat.pos_of_ne_zero nonzero)
    · exact h
  · intro h
    have nonzero : d.significand ≠ 0 := by
      intro zero
      rw [zero, Nat.zero_mul] at h
      omega
    refine ⟨nonzero, Or.inr ⟨?_, h⟩⟩
    apply Nat.le_of_not_lt
    intro short
    have up : d.exponent.toNat = 0 := by omega
    rw [up] at h
    have := calc Nat.pow 10 (-d.exponent).toNat
      _ ≤ doubleLimit * Nat.pow 10 (-d.exponent).toNat :=
        Nat.le_mul_of_pos_left _ (by decide)
      _ ≤ d.significand * Nat.pow 10 0 := h
      _ = d.significand := Nat.mul_one d.significand
    exact Nat.not_lt.mpr this (lt_pow_of_log2_lt short)

end Decimal

end BacktrackRegex.Toml
