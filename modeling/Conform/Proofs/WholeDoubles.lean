import Conform.DateText.Reading
import Mathlib.Tactic.Ring

/-!
# Whole numbers as doubles

A whole number with at most 53 significant bits is a double, and arithmetic that meets no
others rounds at most once, at the end.

- `ofInt_eq_finite`: such a number is kept exactly;
- `add_ofInt`, `mul_ofInt`: sums and products of such numbers are the sum and the product,
  rounded once;
- `DateText.epochMillis_ofInt`: **the range of times is decided exactly**, also for numbers
  of milliseconds that are no doubles, because rounding does not come back below 2^53.
-/

namespace Conform

/-- A common factor does not matter to a rounded quotient. -/
theorem roundDivEven_mul_mul (n d : Nat) {c : Nat} (hc : 0 < c) :
    roundDivEven (n * c) (d * c) = roundDivEven n d := by
  have hlt : ∀ a b : Nat, a * c < b * c ↔ a < b := fun a b => Nat.mul_lt_mul_right hc
  have hdouble : 2 * (n % d * c) = 2 * (n % d) * c := by ring
  simp only [roundDivEven, Nat.mul_div_mul_right _ _ hc, Nat.mul_mod_mul_right, hdouble, hlt]

/-- Rounding a quotient goes down or up, but not away from what is nearer. -/
theorem roundDivEven_cases (n d : Nat) :
    (roundDivEven n d = n / d ∧ 2 * (n % d) ≤ d) ∨
      (roundDivEven n d = n / d + 1 ∧ d ≤ 2 * (n % d)) := by
  simp only [roundDivEven]
  split
  · exact .inl ⟨rfl, by omega⟩
  · split
    · exact .inr ⟨rfl, by omega⟩
    · rcases Nat.mod_two_eq_zero_or_one (n / d) with heven | hodd
      · exact .inl ⟨by rw [heven, Nat.add_zero], by omega⟩
      · exact .inr ⟨by rw [hodd], by omega⟩

/-- Rounding a quotient does not go below its whole part, and at most to the next number. -/
theorem roundDivEven_bounds (n d : Nat) :
    n / d ≤ roundDivEven n d ∧ roundDivEven n d ≤ n / d + 1 := by
  rcases roundDivEven_cases n d with ⟨h, -⟩ | ⟨h, -⟩
  · omega
  · omega

/-- A positive factor keeps the sign. -/
theorem mul_neg_iff_of_pos {a b : Int} (hb : 0 < b) : a * b < 0 ↔ a < 0 :=
  ⟨fun h => Int.neg_of_mul_neg_left h hb, fun h => Int.mul_neg_of_neg_of_pos h hb⟩

namespace Binary64

/-! ## Magnitudes -/

/-- A magnitude has at most 53 significant bits. -/
def Fits (n : Nat) : Prop :=
  2 ^ excessBits n ∣ n

/-- Trailing zeros do not count. -/
theorem fits_mul_two_pow {m : Nat} (hm : m < 2 ^ 53) (k : Nat) : Fits (m * 2 ^ k) := by
  have hexcess : excessBits (m * 2 ^ k) ≤ k := by
    by_cases h0 : m * 2 ^ k = 0
    · simp [excessBits, h0]
    · have hlt : m * 2 ^ k < 2 ^ (53 + k) := by
        rw [Nat.pow_add]
        exact Nat.mul_lt_mul_of_pos_right hm (Nat.two_pow_pos k)
      have := (Nat.log2_lt h0).mpr hlt
      unfold excessBits
      omega
  exact (Nat.pow_dvd_pow 2 hexcess).trans (Nat.dvd_mul_left _ _)

/-- The whole significand of a magnitude of 53 bits or more has 53 bits. -/
theorem significand_bounds {n : Nat} (h : 2 ^ 52 ≤ n) :
    2 ^ 52 ≤ n / 2 ^ excessBits n ∧ n / 2 ^ excessBits n < 2 ^ 53 := by
  have h0 : n ≠ 0 := by omega
  have hlog : 52 ≤ n.log2 := (Nat.le_log2 h0).mpr h
  have hself : 2 ^ n.log2 ≤ n := Nat.log2_self_le h0
  have hlt : n < 2 ^ (n.log2 + 1) := Nat.lt_log2_self
  have hsplit : n.log2 = 52 + excessBits n := by
    unfold excessBits
    omega
  constructor
  · rw [Nat.le_div_iff_mul_le (Nat.two_pow_pos _), ← Nat.pow_add, ← hsplit]
    exact hself
  · rw [Nat.div_lt_iff_lt_mul (Nat.two_pow_pos _), ← Nat.pow_add]
    have hexp : 53 + excessBits n = n.log2 + 1 := by omega
    rw [hexp]
    exact hlt

/-- The magnitude of a rank, told by its exponent and its significand of 53 bits. -/
theorem units_of_significand (e q : Nat) (hlow : 2 ^ 52 ≤ q) (hhigh : q < 2 ^ 53) :
    units (e * binade + q) = q * 2 ^ e := by
  have hb : binade = 2 ^ 52 := rfl
  have hnot : ¬ e * 2 ^ 52 + q < 2 ^ 52 := by omega
  have hmod : (e * 2 ^ 52 + q) % 2 ^ 52 = q - 2 ^ 52 := by omega
  have hdiv : (e * 2 ^ 52 + q) / 2 ^ 52 - 1 = e := by omega
  simp only [units, hb, if_neg hnot, hmod, hdiv, Nat.pow_eq, Nat.add_sub_cancel' hlow]

/-- The same at the upper border, where the significand takes one more bit. -/
theorem units_of_significand_le (e q : Nat) (hlow : 2 ^ 52 ≤ q) (hhigh : q ≤ 2 ^ 53) :
    units (e * binade + q) = q * 2 ^ e := by
  rcases Nat.lt_or_eq_of_le hhigh with hlt | rfl
  · exact units_of_significand e q hlow hlt
  · have hnext : e * binade + 2 ^ 53 = (e + 1) * binade + 2 ^ 52 := by
      rw [binade_eq]
      omega
    rw [hnext, units_of_significand (e + 1) (2 ^ 52) (Nat.le_refl _) (by decide), Nat.pow_succ]
    ring

/-- No bit of a magnitude below 2^52 is rounded away. -/
theorem excessBits_of_lt {n : Nat} (h : n < 2 ^ 52) : excessBits n = 0 := by
  by_cases h0 : n = 0
  · simp [excessBits, h0]
  · have := (Nat.log2_lt h0).mpr h
    unfold excessBits
    omega

/-- The rank nearest to a whole magnitude, told by its exponent and its significand. -/
theorem rankOfUnits_one (n : Nat) :
    rankOfUnits n 1 = excessBits n * binade + roundDivEven n (2 ^ excessBits n) := by
  simp only [rankOfUnits, Nat.div_one, Nat.one_mul, Nat.pow_eq]

/-- **Rounding a magnitude rounds its significand.** -/
theorem units_rankOfUnits_eq (n : Nat) :
    units (rankOfUnits n 1) = roundDivEven n (2 ^ excessBits n) * 2 ^ excessBits n := by
  rw [rankOfUnits_one]
  by_cases hn : n < 2 ^ 52
  · have hround : roundDivEven n 1 = n := by simpa using roundDivEven_mul_left n Nat.one_pos
    have hunits : units n = n := if_pos hn
    rw [excessBits_of_lt hn, Nat.pow_zero, hround, Nat.zero_mul, Nat.zero_add, hunits, Nat.mul_one]
  · obtain ⟨hlow, hhigh⟩ := significand_bounds (Nat.le_of_not_lt hn)
    have hround := roundDivEven_bounds n (2 ^ excessBits n)
    exact units_of_significand_le _ _ (hlow.trans hround.1) (hround.2.trans hhigh)

/-- A magnitude of at most 53 significant bits is kept by rounding. -/
theorem units_rankOfUnits {n : Nat} (h : Fits n) : units (rankOfUnits n 1) = n := by
  have hpos : 0 < 2 ^ excessBits n := Nat.two_pow_pos _
  have hsplit : n / 2 ^ excessBits n * 2 ^ excessBits n = n := Nat.div_mul_cancel h
  have hround := roundDivEven_mul_left (n / 2 ^ excessBits n) hpos
  rw [hsplit] at hround
  rw [units_rankOfUnits_eq, hround, hsplit]

/-- The ranks are in the order of magnitudes. -/
theorem units_le_units {r s : Nat} (h : r ≤ s) : units r ≤ units s := by
  rcases Nat.lt_or_eq_of_le h with h | rfl
  · exact Nat.le_of_lt (units_lt_units h)
  · exact Nat.le_refl _

/-- Rounding does not come back below a power of two. -/
theorem two_pow_le_units_rankOfUnits {n k : Nat} (hk : 52 ≤ k) (h : 2 ^ k ≤ n) :
    2 ^ k ≤ units (rankOfUnits n 1) := by
  have h0 : n ≠ 0 := by
    have := Nat.two_pow_pos k
    omega
  have hlog : k ≤ n.log2 := (Nat.le_log2 h0).mpr h
  have hexcess : k - 52 ≤ excessBits n := by
    unfold excessBits
    omega
  have hn : 2 ^ 52 ≤ n := Nat.le_trans (Nat.pow_le_pow_right (by decide) hk) h
  have hround := (significand_bounds hn).1.trans (roundDivEven_bounds n (2 ^ excessBits n)).1
  have hrank : (k - 52) * binade + 2 ^ 52 ≤ rankOfUnits n 1 := by
    rw [rankOfUnits_one]
    exact Nat.add_le_add (Nat.mul_le_mul_right _ hexcess) hround
  calc 2 ^ k = 2 ^ 52 * 2 ^ (k - 52) := by rw [← Nat.pow_add]; congr 1; omega
    _ = units ((k - 52) * binade + 2 ^ 52) :=
        (units_of_significand _ _ (Nat.le_refl _) (by decide)).symm
    _ ≤ units (rankOfUnits n 1) := units_le_units hrank

/-! ## Whole numbers -/

/-- A number that is exactly the whole number `n`. -/
def IsWhole (x : Binary64) (n : Int) : Prop :=
  ∃ s r, x = finite s r ∧ signedUnits s r = n * unitsOfOne

/-- A whole magnitude is a whole number, with either sign. -/
theorem isWhole_of_units_eq (negative : Bool) {r : Fin infiniteRank} {m : Nat}
    (h : units r = m * unitsOfOne) :
    (finite negative r).IsWhole (if negative then -(m : Int) else m) := by
  refine ⟨negative, r, rfl, ?_⟩
  rw [signedUnits, h]
  cases negative with
  | true => simp only [if_true, Nat.cast_mul, Int.neg_mul]
  | false => simp only [Bool.false_eq_true, if_false, Nat.cast_mul]

/-- The magnitude of a whole number is whole. -/
theorem IsWhole.exists_units_eq {x : Binary64} {n : Int} (h : x.IsWhole n) :
    ∃ negative r, x = finite negative r ∧ units r = n.natAbs * unitsOfOne := by
  obtain ⟨negative, r, rfl, hunits⟩ := h
  refine ⟨negative, r, rfl, ?_⟩
  have habs : (signedUnits negative r).natAbs = units r := by
    cases negative with
    | true => exact (Int.natAbs_neg _).trans (Int.natAbs_natCast _)
    | false => exact Int.natAbs_natCast _
  rw [← habs, hunits, Int.natAbs_mul, Int.natAbs_natCast]

/-- Whole numbers of at most 53 significant bits, and not too large. -/
def Exact (n : Int) : Prop :=
  ∃ m k, n.natAbs = m * 2 ^ k ∧ m < 2 ^ 53 ∧ k ≤ 11

/-- Whole numbers of at most 53 bits. -/
theorem exact_of_lt {n : Int} (h : n.natAbs < 2 ^ 53) : Exact n :=
  ⟨n.natAbs, 0, (Nat.mul_one _).symm, h, Nat.zero_le _⟩

theorem unitsOfOne_eq : unitsOfOne = 2 ^ unitBits := by
  unfold unitsOfOne
  generalize unitBits = b
  exact Nat.pow_eq

theorem unitsOfOne_pos : 0 < unitsOfOne := by
  rw [unitsOfOne_eq]
  exact Nat.two_pow_pos unitBits

/-- The exponent that the significand of infinity would have. -/
def infiniteExponent : Nat := 2046

/-- The ranks from infinity on are worth at least as much as infinity would be. -/
theorem le_units_of_infinite {r : Nat} (h : infiniteRank ≤ r) :
    2 ^ 52 * 2 ^ infiniteExponent ≤ units r := by
  have hrank : infiniteExponent * binade + 2 ^ 52 = infiniteRank := by decide
  rw [← units_of_significand _ _ (Nat.le_refl _) (by decide), hrank]
  exact units_le_units h

/-- The magnitude of such a number is kept exactly, with any sign. -/
theorem ofRatio_eq_finite (negative : Bool) {n : Int} (h : Exact n) :
    ∃ r, ofRatio negative n.natAbs 1 = finite negative r ∧ units r = n.natAbs * unitsOfOne := by
  obtain ⟨m, k, hn, hm, hk⟩ := h
  have hunits : n.natAbs * unitsOfOne = m * 2 ^ (k + unitBits) := by
    rw [hn, unitsOfOne_eq, Nat.mul_assoc, ← Nat.pow_add]
  have hkept : units (rankOfUnits (n.natAbs * unitsOfOne) 1) = n.natAbs * unitsOfOne := by
    refine units_rankOfUnits ?_
    rw [hunits]
    exact fits_mul_two_pow hm _
  have hfinite : rankOfUnits (n.natAbs * unitsOfOne) 1 < infiniteRank := by
    refine Nat.lt_of_not_le fun hle => ?_
    have hbig := le_units_of_infinite hle
    rw [hkept, hunits] at hbig
    have hexp : 1 + (k + unitBits) ≤ infiniteExponent := by
      unfold unitBits infiniteExponent
      omega
    have hlt : m * 2 ^ (k + unitBits) < 2 ^ 52 * 2 ^ infiniteExponent :=
      calc m * 2 ^ (k + unitBits) < 2 ^ 53 * 2 ^ (k + unitBits) :=
            Nat.mul_lt_mul_of_pos_right hm (Nat.two_pow_pos _)
        _ = 2 ^ 52 * 2 ^ (1 + (k + unitBits)) := by
            rw [Nat.pow_add 2 1, ← Nat.mul_assoc, ← Nat.pow_add 2 52 1]
        _ ≤ 2 ^ 52 * 2 ^ infiniteExponent :=
            Nat.mul_le_mul_left _ (Nat.pow_le_pow_right (by decide) hexp)
    exact absurd hbig (Nat.not_le.mpr hlt)
  refine ⟨⟨_, hfinite⟩, ?_, hkept⟩
  rw [ofRatio, ofUnits, dif_pos hfinite]

/-- Such a number is kept exactly. -/
theorem ofInt_eq_finite {n : Int} (h : Exact n) :
    ∃ r, ofInt n = finite (n < 0) r ∧ units r = n.natAbs * unitsOfOne :=
  ofRatio_eq_finite (n < 0) h

/-- A number that is kept is exactly itself. -/
theorem isWhole_ofInt {n : Int} (h : Exact n) : (ofInt n).IsWhole n := by
  obtain ⟨r, hr, hunits⟩ := ofInt_eq_finite h
  have hsigned : (if decide (n < 0) then -(n.natAbs : Int) else n.natAbs) = n := by
    simp only [decide_eq_true_eq]
    split <;> omega
  have hwhole := isWhole_of_units_eq (n < 0) hunits
  rwa [hsigned, ← hr] at hwhole

/-- A signed magnitude in units is rounded as the whole number that it is. -/
theorem ofUnits_eq_ofInt (n : Int) :
    ofUnits (n * unitsOfOne < 0) (n * unitsOfOne).natAbs 1 = ofInt n := by
  have hsign : n * unitsOfOne < 0 ↔ n < 0 :=
    mul_neg_iff_of_pos (Int.natCast_pos.mpr unitsOfOne_pos)
  rw [ofInt, ofRatio, Int.natAbs_mul, Int.natAbs_natCast, decide_eq_decide.mpr hsign]

/-- A whole number has no fraction to lose. -/
theorem trunc_of_units_eq {negative : Bool} {r : Fin infiniteRank} {m : Nat}
    (h : units r = m * unitsOfOne) : (finite negative r).trunc = finite negative r := by
  rw [trunc, wholePart, h, Nat.mul_div_cancel _ unitsOfOne_pos, ofRatio, ← h, ofUnits_units]

theorem ofInt_zero : ofInt 0 = zero false := by
  obtain ⟨r, hr, hunits⟩ := ofInt_eq_finite (n := 0) (exact_of_lt (by decide))
  have h0 : r = ⟨0, by decide⟩ := by
    refine Fin.ext (units_injective ?_)
    rw [hunits, Int.natAbs_zero, Nat.zero_mul, units_zero]
  rw [hr, h0]
  rfl

/-- **A sum of doubles is the sum, rounded once.** -/
theorem add_ofInt {a b : Int} (ha : Exact a) (hb : Exact b) :
    (ofInt a).add (ofInt b) = ofInt (a + b) := by
  obtain ⟨s, r, hr, hunits⟩ := isWhole_ofInt ha
  obtain ⟨t, q, hq, hunits'⟩ := isWhole_ofInt hb
  have hsum : signedUnits s r + signedUnits t q = (a + b) * unitsOfOne := by
    rw [hunits, hunits', Int.add_mul]
  by_cases h0 : a + b = 0
  · -- the sum is zero with the sign of both, and they are not both negative
    obtain ⟨r', hr', -⟩ := ofInt_eq_finite ha
    obtain ⟨q', hq', -⟩ := ofInt_eq_finite hb
    obtain ⟨rfl, -⟩ := finite.inj (hr.symm.trans hr')
    obtain ⟨rfl, -⟩ := finite.inj (hq.symm.trans hq')
    have hsigns : (decide (a < 0) && decide (b < 0)) = false := by
      simp only [Bool.and_eq_false_iff, decide_eq_false_iff_not]
      omega
    rw [hr, hq, add]
    simp only [hsum, h0, Int.zero_mul, if_true, hsigns, ofInt_zero]
  · have hne : (a + b) * unitsOfOne ≠ 0 := by
      have := unitsOfOne_pos
      exact Int.mul_ne_zero h0 (by omega)
    rw [hr, hq, add]
    simp only [hsum, if_neg hne]
    exact ofUnits_eq_ofInt (a + b)

/-- **A product of doubles is the product, rounded once**; with a positive factor its sign
is that of the other, also if it is zero. -/
theorem mul_ofInt {a b : Int} (ha : Exact a) (hb : Exact b) (hpos : 0 < b) :
    (ofInt a).mul (ofInt b) = ofInt (a * b) := by
  obtain ⟨r, hr, hunits⟩ := ofInt_eq_finite ha
  obtain ⟨q, hq, hunits'⟩ := ofInt_eq_finite hb
  have hb0 : decide (b < 0) = false := decide_eq_false (by omega)
  have hproduct : units r * units q = (a * b).natAbs * unitsOfOne * unitsOfOne := by
    rw [hunits, hunits', Int.natAbs_mul]
    ring
  -- one of the two units is the denominator, and cancels
  have hround : rankOfUnits ((a * b).natAbs * unitsOfOne * unitsOfOne) unitsOfOne =
      rankOfUnits ((a * b).natAbs * unitsOfOne) 1 := by
    simp only [rankOfUnits, Nat.mul_div_cancel _ unitsOfOne_pos, Nat.div_one]
    rw [Nat.mul_comm unitsOfOne, roundDivEven_mul_mul _ _ unitsOfOne_pos, Nat.one_mul]
  rw [hr, hq, mul, hb0, Bool.bne_false, hproduct, ofUnits, hround, ofInt, ofRatio, ofUnits,
    decide_eq_decide.mpr (mul_neg_iff_of_pos hpos)]

end Binary64

namespace DateText

open Binary64

/-- A time is as far away as a whole number that is exactly it. -/
theorem within_finite {s : Bool} {r : Fin infiniteRank} {n limit : Nat}
    (h : units r = n * unitsOfOne) : (finite s r).within limit = decide (n ≤ limit) := by
  rw [within, h, decide_eq_decide]
  exact Nat.mul_le_mul_right_iff unitsOfOne_pos

/-- Times have at most 53 bits. -/
theorem maxMillis_lt : maxMillis < 2 ^ 53 := by decide

/-- What has more than 53 bits is no time, however it is rounded. -/
theorem within_ofInt_of_le {n : Int} (h : 2 ^ 53 ≤ n.natAbs) :
    (ofInt n).within maxMillis = false := by
  rw [ofInt, ofRatio, ofUnits]
  split
  · have hpow : 2 ^ (53 + unitBits) ≤ n.natAbs * unitsOfOne := by
      rw [unitsOfOne_eq, Nat.pow_add]
      exact Nat.mul_le_mul_right _ h
    have hround := two_pow_le_units_rankOfUnits (by omega) hpow
    have hlimit : maxMillis * unitsOfOne < 2 ^ (53 + unitBits) := by
      rw [unitsOfOne_eq, Nat.pow_add]
      have hpos := Nat.two_pow_pos unitBits
      generalize 2 ^ unitBits = u at hpos ⊢
      exact Nat.mul_lt_mul_of_pos_right maxMillis_lt hpos
    rw [within]
    exact decide_eq_false (Nat.not_le.mpr (Nat.lt_of_lt_of_le hlimit hround))
  · rfl

/-- **The range of times is decided exactly**, and times are kept as they are. -/
theorem epochMillis_ofInt (n : Int) :
    epochMillis (ofInt n) = if n.natAbs ≤ maxMillis then some (ofInt n) else none := by
  rw [epochMillis]
  by_cases hlt : n.natAbs < 2 ^ 53
  · obtain ⟨r, hr, hunits⟩ := ofInt_eq_finite (exact_of_lt hlt)
    rw [hr, trunc_of_units_eq hunits, within_finite hunits]
    simp only [decide_eq_true_eq]
  · have hle := Nat.le_of_not_lt hlt
    have hfar : ¬ n.natAbs ≤ maxMillis := by
      have := maxMillis_lt
      omega
    rw [within_ofInt_of_le hle, if_neg hfar]
    rfl

end DateText

end Conform
