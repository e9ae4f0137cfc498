/-!
# Double precision numbers

The 64-bit binary floating point numbers, with one number standing for all
payloads of "not a number". A finite number is a sign and the place of its
magnitude among all finite magnitudes, its `rank`: 0 is zero, 1 the least
positive number, and so on in order of size.

Every finite magnitude is a whole number of `units` of 2^-1074, so that exact
arithmetic on these numbers is arithmetic on natural numbers. `units_lt_units`
says that the rank orders magnitudes; because the rank is also the bit pattern
without the sign, `bits?` only has to add the sign.
-/

namespace Conform

/-- How many ranks lie from one power of two to the next: 2^52. -/
def Binary64.binade : Nat := Nat.pow 2 52

/-- The rank that the next power of two above the finite numbers would have. -/
abbrev Binary64.infiniteRank : Nat := 2047 * binade

/-- A double precision number. -/
inductive Binary64 where
  | nan
  | infinite (negative : Bool)
  | finite (negative : Bool) (rank : Fin Binary64.infiniteRank)
deriving DecidableEq

namespace Binary64

/-- How many units of 2^-1074 one is worth, as a power of two. -/
def unitBits : Nat := 1074

/-- How many units of 2^-1074 one is worth. -/
def unitsOfOne : Nat := Nat.pow 2 unitBits

/-- The bit that holds the sign. -/
def signBit : Nat := Nat.pow 2 63

/-- The binade as a numeral, for arithmetic on ranks. -/
theorem binade_eq : binade = 4503599627370496 := rfl

/-- The magnitude of a rank in units of 2^-1074. The first `binade` ranks count
units; from there each run of so many ranks covers one power of two. -/
def units (rank : Nat) : Nat :=
  if rank < binade then rank
  else (binade + rank % binade) * Nat.pow 2 (rank / binade - 1)

@[simp] theorem units_zero : units 0 = 0 := rfl

/-- The next rank is worth more. -/
theorem units_lt_units_succ (rank : Nat) : units rank < units (rank + 1) := by
  simp only [units, binade_eq, Nat.pow_eq]
  by_cases h : rank + 1 < 4503599627370496
  · simp [h, Nat.lt_of_succ_lt h]
  · by_cases h' : rank < 4503599627370496
    · have e : rank + 1 = 4503599627370496 := by omega
      simp [e, h']
    · simp only [h, h', if_false]
      by_cases hm : rank % 4503599627370496 = 4503599627370495
      · have hm' : (rank + 1) % 4503599627370496 = 0 := by omega
        have hd : (rank + 1) / 4503599627370496 - 1 = (rank / 4503599627370496 - 1) + 1 := by omega
        rw [hm, hm', hd, Nat.pow_succ]
        have := Nat.two_pow_pos (rank / 4503599627370496 - 1)
        generalize 2 ^ (rank / 4503599627370496 - 1) = t at this
        omega
      · have hm' : (rank + 1) % 4503599627370496 = rank % 4503599627370496 + 1 := by omega
        have hd : (rank + 1) / 4503599627370496 = rank / 4503599627370496 := by omega
        rw [hm', hd]
        exact Nat.mul_lt_mul_of_pos_right (by omega) (Nat.two_pow_pos _)

/-- The rank orders magnitudes. -/
theorem units_lt_units {r s : Nat} (h : r < s) : units r < units s := by
  induction s with
  | zero => omega
  | succ s ih =>
    rcases Nat.lt_or_eq_of_le (Nat.le_of_lt_succ h) with h | rfl
    · exact Nat.lt_trans (ih h) (units_lt_units_succ s)
    · exact units_lt_units_succ r

/-- Different ranks are different magnitudes. -/
theorem units_injective {r s : Nat} (h : units r = units s) : r = s := by
  rcases Nat.lt_trichotomy r s with hlt | heq | hgt
  · exact absurd h (Nat.ne_of_lt (units_lt_units hlt))
  · exact heq
  · exact absurd h.symm (Nat.ne_of_lt (units_lt_units hgt))

/-- Zero, with a sign. -/
def zero (negative : Bool) : Binary64 :=
  finite negative ⟨0, by decide⟩

/-- Whether a number is neither infinite nor "not a number". -/
def isFinite : Binary64 → Bool
  | finite _ _ => true
  | _ => false

/-- The number with the other sign. -/
def neg : Binary64 → Binary64
  | nan => nan
  | infinite s => infinite (!s)
  | finite s r => finite (!s) r

/-- Numeric equality: "not a number" is unequal to itself, and zero equals
minus zero. -/
def equal : Binary64 → Binary64 → Bool
  | nan, _ => false
  | _, nan => false
  | infinite s, infinite t => s == t
  | finite s r, finite t q => r == q && (s == t || r.val == 0)
  | _, _ => false

/-- The 64 bits of a number: sign, exponent, fraction; `none` for "not a
number", whose payload is not kept. -/
def bits? : Binary64 → Option Nat
  | nan => none
  | infinite s => some ((if s then signBit else 0) + infiniteRank)
  | finite s r => some ((if s then signBit else 0) + r.val)

end Binary64

end Conform
