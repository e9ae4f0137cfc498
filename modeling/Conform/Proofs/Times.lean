import Conform.Proofs.StampInstants
import Conform.Proofs.WholeDoubles

/-!
# Times

A time is a whole number of milliseconds that is not too far away. Not every way to a time goes
through the test for one: dates come with an instant, null and the booleans with a constant, and
the years of six digits are reached by sums of doubles. All of them come to times, and times are
what the test leaves as it is.

- `isTime_of_epochMillis`, `epochMillis_of_isTime`: what passes the test becomes a time, and
  times pass it unchanged;
- `Value.isTime_of_millis?`: every value that denotes anything denotes a time, one case for each
  constructor;
- `Value.millis?_canonical`: **what a value denotes is whole, in range, and denotes itself**.
-/

namespace Conform

namespace DateText

open Binary64

/-- A time: a whole number of milliseconds, not too far from the start of 1970. Zero may have
either sign. -/
def IsTime (x : Binary64) : Prop :=
  ∃ n : Int, n.natAbs ≤ maxMillis ∧ x.IsWhole n

/-! ## The test for times -/

/-- Whole numbers in range are times. -/
theorem isTime_ofInt {n : Int} (h : n.natAbs ≤ maxMillis) : IsTime (ofInt n) :=
  ⟨n, h, isWhole_ofInt (exact_of_lt (Nat.lt_of_le_of_lt h maxMillis_lt))⟩

/-- The test makes times. -/
theorem isTime_of_epochMillis {x y : Binary64} (h : epochMillis x = some y) : IsTime y := by
  obtain ⟨hwithin, htrunc⟩ := Option.ite_none_right_eq_some.mp h
  obtain rfl := Option.some.inj htrunc
  cases x with
  | nan => cases hwithin
  | infinite _ => cases hwithin
  | finite negative r =>
    have hle : units r ≤ maxMillis * unitsOfOne := of_decide_eq_true hwithin
    have hwhole : wholePart r ≤ maxMillis := Nat.div_le_of_le_mul (Nat.mul_comm .. ▸ hle)
    -- the whole part has few enough bits to be kept
    have hexact : Exact (wholePart r : Int) := exact_of_lt (Nat.lt_of_le_of_lt hwhole maxMillis_lt)
    obtain ⟨q, hq, hunits⟩ := ofRatio_eq_finite negative hexact
    rw [Int.natAbs_natCast] at hq hunits
    rw [trunc, hq]
    refine ⟨_, ?_, isWhole_of_units_eq negative hunits⟩
    cases negative with
    | true => simpa using hwhole
    | false => simpa using hwhole

/-- Times pass the test unchanged. -/
theorem epochMillis_of_isTime {x : Binary64} (h : IsTime x) : epochMillis x = some x := by
  obtain ⟨n, hn, hwhole⟩ := h
  obtain ⟨negative, r, rfl, hunits⟩ := hwhole.exists_units_eq
  rw [epochMillis, within_finite hunits, trunc_of_units_eq hunits, decide_eq_true hn, if_pos rfl]

/-! ## What values denote -/

/-- A text denotes a time, with a year of any form. -/
theorem isTime_of_millis? {cs : List Char} {ms : Binary64} (h : millis? cs = some ms) :
    IsTime ms := by
  unfold millis? at h
  split at h
  · next hextended =>
    obtain rfl := Option.some.inj h
    obtain ⟨year, -, hyear⟩ := Option.bind_eq_some_iff.mp hextended
    obtain ⟨t, -, ht⟩ := Option.bind_eq_some_iff.mp hyear
    exact isTime_of_epochMillis ht
  · obtain ⟨t, -, ht⟩ := Option.bind_eq_some_iff.mp h
    exact isTime_of_epochMillis ht

end DateText

namespace Value

open Binary64 DateText

/-- Every value that denotes anything denotes a time. -/
theorem isTime_of_millis? {v : Value} {ms : Binary64} (h : v.millis? = some ms) : IsTime ms := by
  cases v with
  | null =>
    obtain rfl := Option.some.inj h
    exact isTime_ofInt (by decide)
  | bool b =>
    obtain rfl := Option.some.inj h
    cases b with
    | true => exact isTime_ofInt (by decide)
    | false => exact isTime_ofInt (by decide)
  | number x => exact isTime_of_epochMillis h
  | string s => exact DateText.isTime_of_millis? h
  | array items => cases h
  | object fields => cases h
  | date t =>
    -- no test is made here, but instants lie in fewer years than times
    obtain rfl := Option.some.inj h
    exact isTime_ofInt t.natAbs_millis_le

/-- **What a value denotes is whole, in range, and denotes itself**, whatever the value is: as a
number of milliseconds it passes the test for times unchanged, and so it does as a value. -/
theorem millis?_canonical {v : Value} {ms : Binary64} (h : v.millis? = some ms) :
    (∃ n : Int, -8640000000000000 ≤ n ∧ n ≤ 8640000000000000 ∧ ms.IsWhole n) ∧
      epochMillis ms = some ms ∧ (number ms).millis? = some ms := by
  have htime := isTime_of_millis? h
  obtain ⟨n, hn, hwhole⟩ := id htime
  have hfixed := epochMillis_of_isTime htime
  unfold maxMillis at hn
  exact ⟨⟨n, by omega, by omega, hwhole⟩, hfixed, hfixed⟩

/-- A number that loses its fraction and keeps its sign, the last time of all as a text with
blanks, and a date half a millisecond before 1970. -/
theorem millis?_canonical_borders :
    let half := number (ofRatio true 1 2)
    let last := string " +275760-09-13T00:00:00Z "
    let before := date ⟨-1, 999500000, by decide, by decide, by decide, by decide⟩
    (half.millis? = some (zero true) ∧ (number (zero true)).millis? = some (zero true)) ∧
      (last.millis? = some (ofInt 8640000000000000) ∧
        epochMillis (ofInt 8640000000000000) = some (ofInt 8640000000000000)) ∧
      before.millis? = some (ofInt (-1)) ∧ (number (ofInt (-1))).millis? = some (ofInt (-1)) := by
  intro half last before
  have hhalf : half.millis? = some (zero true) := by decide +kernel
  have hlast : last.millis? = some (ofInt 8640000000000000) := by decide +kernel
  have hbefore : before.millis? = some (ofInt (-1)) := by decide +kernel
  exact ⟨⟨hhalf, (millis?_canonical hhalf).2.2⟩, ⟨hlast, (millis?_canonical hlast).2.1⟩,
    hbefore, (millis?_canonical hbefore).2.2⟩

end Value

end Conform
