import Conform.Proofs.WholeDoubles
import Mathlib.Data.Nat.Dist

/-!
# The nearest double

What it is to be the double nearest to a whole number, said by distances alone: no other double
is nearer, and of two that are as near it is the one with the even significand. Infinity takes
part as if it were the next power of two above the finite numbers, so that a number is rounded to
it if and only if it is nearer to that power, or half way.

- `dist_multiple_cases`: how far the multiples of a divisor are from a number;
- `roundDivEven_nearest`, `roundDivEven_even_of_tie`: so a rounded quotient finds the nearest one;
- `rankOfUnits_nearest`: **rounding a magnitude finds the nearest rank**. The other ranks either
  count multiples of the last place that is kept, or lie below the power of two from which on it
  is kept, and then that power is nearer;
- `isNearest_ofInt`: so `ofInt` finds the nearest double, whatever the number is.
-/

namespace Conform

/-! ## The nearest multiple -/

/-- Of the multiples of a divisor, the last one up to a number is the remainder away from it, the
next one what the remainder lacks, and all others are at least the divisor away. -/
theorem dist_multiple_cases (n : Nat) {d : Nat} (hd : 0 < d) (k : Nat) :
    (k = n / d ∧ Nat.dist n (k * d) = n % d) ∨
      (k = n / d + 1 ∧ Nat.dist n (k * d) = d - n % d) ∨ d ≤ Nat.dist n (k * d) := by
  have hn := Nat.div_add_mod' n d
  have hr := Nat.mod_lt n hd
  have hnext : (n / d + 1) * d = n / d * d + d := Nat.succ_mul _ _
  unfold Nat.dist
  rcases Nat.lt_trichotomy k (n / d) with hk | rfl | hk
  · -- at least one multiple further below
    have hside : (k + 1) * d ≤ n / d * d := Nat.mul_le_mul_right d hk
    rw [Nat.succ_mul] at hside
    omega
  · omega
  · rcases Nat.eq_or_lt_of_le hk with rfl | hk
    · rw [hnext]
      omega
    · -- at least one multiple further above
      have hside : (n / d + 1 + 1) * d ≤ k * d := Nat.mul_le_mul_right d hk
      rw [Nat.succ_mul] at hside
      omega

/-- Rounding a quotient finds the nearer one of the multiples on both sides. -/
theorem dist_roundDivEven (n : Nat) {d : Nat} (hd : 0 < d) :
    Nat.dist n (roundDivEven n d * d) = min (n % d) (d - n % d) := by
  have hn := Nat.div_add_mod' n d
  have hr := Nat.mod_lt n hd
  unfold Nat.dist
  rcases roundDivEven_cases n d with ⟨h, hnear⟩ | ⟨h, hnear⟩
  · rw [h]
    omega
  · rw [h, Nat.succ_mul]
    omega

/-- No multiple is nearer to a number than its rounded quotient times the divisor. -/
theorem roundDivEven_nearest (n : Nat) {d : Nat} (hd : 0 < d) (k : Nat) :
    Nat.dist n (roundDivEven n d * d) ≤ Nat.dist n (k * d) := by
  have hr := Nat.mod_lt n hd
  rw [dist_roundDivEven n hd]
  rcases dist_multiple_cases n hd k with ⟨-, h⟩ | ⟨-, h⟩ | h
  · rw [h]
    exact Nat.min_le_left _ _
  · rw [h]
    exact Nat.min_le_right _ _
  · omega

/-- If another multiple is as near, the rounded quotient is even. -/
theorem roundDivEven_even_of_tie {n d k : Nat} (hd : 0 < d)
    (htie : Nat.dist n (k * d) = Nat.dist n (roundDivEven n d * d)) :
    k = roundDivEven n d ∨ roundDivEven n d % 2 = 0 := by
  rw [dist_roundDivEven n hd] at htie
  by_cases hmiddle : 2 * (n % d) = d
  · -- half way, where the quotient is made even
    right
    simp only [roundDivEven, hmiddle, Nat.lt_irrefl, if_false]
    omega
  · -- otherwise one side is nearer, and rounding goes there
    left
    have hr := Nat.mod_lt n hd
    rcases roundDivEven_cases n d with ⟨h, hnear⟩ | ⟨h, hnear⟩
    · rcases dist_multiple_cases n hd k with ⟨hk, hdist⟩ | ⟨hk, hdist⟩ | hdist <;> omega
    · rcases dist_multiple_cases n hd k with ⟨hk, hdist⟩ | ⟨hk, hdist⟩ | hdist <;> omega

namespace Binary64

/-! ## The nearest rank -/

/-- The magnitude of a rank is a multiple of a power of two, or so small that the power is the
last place of a greater one. -/
theorem units_grid (e q : Nat) :
    (∃ k, units q = k * 2 ^ e) ∨ (0 < e ∧ units q < 2 ^ 52 * 2 ^ e) := by
  rcases Nat.eq_zero_or_pos e with rfl | he
  · exact .inl ⟨units q, (Nat.mul_one _).symm⟩
  · rcases Nat.lt_or_ge q (e * binade + 2 ^ 52) with hq | hq
    · right
      rw [← units_of_significand e (2 ^ 52) (Nat.le_refl _) (by decide)]
      exact ⟨he, units_lt_units hq⟩
    · left
      rw [binade_eq] at hq
      have hexponent : q / 2 ^ 52 - 1 = q / 2 ^ 52 - 1 - e + e := by omega
      have hbinade : binade = 2 ^ 52 := rfl
      refine ⟨(2 ^ 52 + q % 2 ^ 52) * 2 ^ (q / 2 ^ 52 - 1 - e), ?_⟩
      rw [Nat.mul_assoc, ← Nat.pow_add, ← hexponent, units, hbinade, if_neg (by omega), Nat.pow_eq]

/-- What loses bits by rounding has 53 that are kept. -/
theorem le_of_excessBits_pos {n : Nat} (h : 0 < excessBits n) : 2 ^ 52 * 2 ^ excessBits n ≤ n := by
  have h0 : n ≠ 0 := by
    rintro rfl
    exact absurd h (by decide)
  have hlog : n.log2 = 52 + excessBits n := by
    unfold excessBits at h ⊢
    omega
  rw [← Nat.pow_add, ← hlog]
  exact Nat.log2_self_le h0

/-- **Rounding a magnitude finds the nearest rank**, and the even one of two as near. -/
theorem rankOfUnits_nearest (n q : Nat) :
    Nat.dist n (units (rankOfUnits n 1)) ≤ Nat.dist n (units q) ∧
      (Nat.dist n (units q) = Nat.dist n (units (rankOfUnits n 1)) →
        q = rankOfUnits n 1 ∨ rankOfUnits n 1 % 2 = 0) := by
  have hpos : 0 < 2 ^ excessBits n := Nat.two_pow_pos _
  have hunits := units_rankOfUnits_eq n
  rcases units_grid (excessBits n) q with ⟨k, hk⟩ | ⟨hexcess, hsmall⟩
  · refine ⟨?_, fun htie => ?_⟩
    · rw [hunits, hk]
      exact roundDivEven_nearest n hpos k
    · rw [hunits, hk] at htie
      rcases roundDivEven_even_of_tie hpos htie with rfl | heven
      · exact .inl (units_injective (hk.trans hunits.symm))
      · right
        rw [rankOfUnits_one, binade_eq]
        omega
  · have hpower := roundDivEven_nearest n hpos (2 ^ 52)
    have hle := le_of_excessBits_pos hexcess
    rw [hunits]
    unfold Nat.dist at hpower ⊢
    generalize 2 ^ 52 * 2 ^ excessBits n = power at hsmall hpower hle
    omega

/-! ## The nearest double -/

/-- No rank up to that of infinity is nearer to a magnitude of `n` units than this one, and one
that is as near is odd. -/
def IsNearestRank (n rank : Nat) : Prop :=
  rank ≤ infiniteRank ∧ ∀ other ≤ infiniteRank,
    Nat.dist n (units rank) ≤ Nat.dist n (units other) ∧
      (Nat.dist n (units other) = Nat.dist n (units rank) → other = rank ∨ rank % 2 = 0)

/-- A number is the double nearest to a whole number: it has its sign, and the nearest rank. -/
def IsNearest (x : Binary64) (n : Int) : Prop :=
  match x with
  | nan => False
  | infinite negative => negative = decide (n < 0) ∧
      IsNearestRank (n.natAbs * unitsOfOne) infiniteRank
  | finite negative rank => negative = decide (n < 0) ∧
      IsNearestRank (n.natAbs * unitsOfOne) rank

/-- What is rounded beyond infinity is nearest to infinity. -/
theorem isNearestRank_infinite {n : Nat} (h : infiniteRank ≤ rankOfUnits n 1) :
    IsNearestRank n infiniteRank := by
  refine ⟨Nat.le_refl _, fun other hother => ?_⟩
  rcases Nat.eq_or_lt_of_le h with heq | hlt
  · rw [heq]
    exact rankOfUnits_nearest n other
  · have hnearest := (rankOfUnits_nearest n infiniteRank).1
    have hbeyond := units_lt_units hlt
    have hbelow := units_le_units hother
    unfold Nat.dist at hnearest ⊢
    refine ⟨by omega, fun htie => ?_⟩
    exact .inl (units_injective (by omega))

/-- **The double that is found is the nearest.** -/
theorem isNearest_ofInt (n : Int) : (ofInt n).IsNearest n := by
  rw [ofInt, ofRatio, ofUnits]
  split
  · next hfinite =>
    exact ⟨rfl, Nat.le_of_lt hfinite, fun other _ => rankOfUnits_nearest _ other⟩
  · next hinfinite => exact ⟨rfl, isNearestRank_infinite (Nat.le_of_not_lt hinfinite)⟩

end Binary64

end Conform
