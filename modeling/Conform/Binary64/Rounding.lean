import Conform.Binary64.Basic

/-!
# Rounding to a double

Every operation on doubles is the exact operation on numbers followed by one
rounding to the nearest double, a tie going to the neighbour with the even
significand. This file holds that rounding, once, for a quotient of two natural
numbers, and the conversions that need nothing else: from a ratio, an integer
and a decimal.

`rankOfUnits_units` says that a magnitude which already is a double rounds to
itself.
-/

namespace Conform

/-- The quotient of two natural numbers, rounded to the nearest whole number, a
half going to the even neighbour. -/
def roundDivEven (num den : Nat) : Nat :=
  let q := num / den
  let r := num % den
  if 2 * r < den then q
  else if den < 2 * r then q + 1
  else q + q % 2

/-- A quotient that is whole is not changed by rounding. -/
theorem roundDivEven_mul_left (q : Nat) {den : Nat} (h : 0 < den) :
    roundDivEven (q * den) den = q := by
  simp [roundDivEven, Nat.mul_div_cancel q h, h]

namespace Binary64

/-- How many low bits of a magnitude, in units, are rounded away: all but the
leading 53. -/
def excessBits (magnitude : Nat) : Nat :=
  magnitude.log2 - 52

/-- The rank nearest to a magnitude of `num / den` units. -/
def rankOfUnits (num den : Nat) : Nat :=
  let excess := excessBits (num / den)
  excess * binade + roundDivEven num (den * Nat.pow 2 excess)

/-- The number nearest to a magnitude of `num / den` units with the given sign;
beyond the largest finite number lies infinity. -/
def ofUnits (negative : Bool) (num den : Nat) : Binary64 :=
  if h : rankOfUnits num den < infiniteRank then
    finite negative ⟨rankOfUnits num den, h⟩
  else
    infinite negative

/-- The number nearest to `num / den` with the given sign. -/
def ofRatio (negative : Bool) (num den : Nat) : Binary64 :=
  ofUnits negative (num * unitsOfOne) den

/-- The number nearest to a whole number. -/
def ofInt (n : Int) : Binary64 :=
  ofRatio (n < 0) n.natAbs 1

/-- The number nearest to `digits * 10 ^ exponent`. Magnitudes from 10^310 on
are beyond every finite number, and those below 10^-330 are nearer to zero than
to any other number; for both no power needs to be computed. -/
def ofDecimal (negative : Bool) (digits : Nat) (exponent : Int) : Binary64 :=
  if digits = 0 then zero negative
  else
    let length : Int := (Nat.toDigits 10 digits).length
    if 310 < length + exponent then infinite negative
    else if length + exponent < -330 then zero negative
    else if 0 ≤ exponent then ofRatio negative (digits * Nat.pow 10 exponent.toNat) 1
    else ofRatio negative digits (Nat.pow 10 (-exponent).toNat)

/-! ## Rounding keeps what needs no rounding -/

/-- A magnitude that is a double rounds to itself. -/
theorem rankOfUnits_units (r : Nat) : rankOfUnits (units r) 1 = r := by
  have hb : binade = 2 ^ 52 := rfl
  simp only [rankOfUnits, excessBits, Nat.div_one, Nat.one_mul, Nat.pow_eq, hb]
  by_cases h : r < 2 ^ 52
  · have hu : units r = r := by simp only [units, hb, if_pos h]
    have hl : r.log2 - 52 = 0 := by
      by_cases h0 : r = 0
      · simp [h0]
      · have := (Nat.log2_lt h0).mpr h
        omega
    rw [hu, hl]
    simpa using roundDivEven_mul_left r Nat.one_pos
  · have hu : units r = (2 ^ 52 + r % 2 ^ 52) * 2 ^ (r / 2 ^ 52 - 1) := by
      simp only [units, Nat.pow_eq, hb, if_neg h]
    have hm : r % 2 ^ 52 < 2 ^ 52 := Nat.mod_lt _ (by decide)
    generalize he : r / 2 ^ 52 - 1 = e at hu
    have hne : (2 ^ 52 + r % 2 ^ 52) * 2 ^ e ≠ 0 := by
      have := Nat.two_pow_pos e
      exact Nat.mul_ne_zero (by omega) (by omega)
    have hl : ((2 ^ 52 + r % 2 ^ 52) * 2 ^ e).log2 = 52 + e := by
      apply (Nat.log2_eq_iff hne).mpr
      constructor
      · rw [Nat.pow_add]
        exact Nat.mul_le_mul_right _ (by omega)
      · rw [Nat.add_right_comm, Nat.pow_add]
        exact Nat.mul_lt_mul_of_pos_right (by omega) (Nat.two_pow_pos e)
    rw [hu, hl, Nat.add_sub_cancel_left, roundDivEven_mul_left _ (Nat.two_pow_pos e)]
    omega

/-- The sign and units of a finite number give that number back. -/
theorem ofUnits_units (s : Bool) (r : Fin infiniteRank) : ofUnits s (units r) 1 = finite s r := by
  simp [ofUnits, rankOfUnits_units, r.isLt]

end Binary64

end Conform
