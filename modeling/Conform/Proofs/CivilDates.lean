import Conform.Calendar
import Mathlib.Tactic.IntervalCases

/-!
# Civil dates

The Gregorian calendar a second time, by its rules for leap years and the lengths of months,
and by the formula that counts a year from March on, so that the day that comes and goes is
its last. The calendar of the readers agrees with it.

- `Date.map_toDays_ofParts?`: **the dates there are, and the days from the start of 1970 to
  each**;
- `civilDays_add_cycles`: 400 years later is 146097 days later.
-/

namespace Conform

/-! ## Dates -/

/-- A year is a leap year if four divides it, but of the full centuries only every fourth. -/
def IsLeapYear (year : Int) : Prop :=
  4 ∣ year ∧ (100 ∣ year → 400 ∣ year)

instance (year : Int) : Decidable (IsLeapYear year) :=
  inferInstanceAs (Decidable (_ ∧ _))

/-- The number of days of a month. -/
def monthLength (year : Int) (month : Nat) : Nat :=
  if month = 2 then if IsLeapYear year then 29 else 28
  else if month ∈ [4, 6, 9, 11] then 30
  else 31

/-- There is a date with this year, month and day. -/
def IsCivilDate (year : Int) (month day : Nat) : Prop :=
  (1 ≤ month ∧ month ≤ 12) ∧ 1 ≤ day ∧ day ≤ monthLength year month

instance (year : Int) (month day : Nat) : Decidable (IsCivilDate year month day) :=
  inferInstanceAs (Decidable (_ ∧ _))

theorem isLeap_iff (year : Int) : Calendar.isLeap year ↔ IsLeapYear year := by
  simp only [Calendar.isLeap, IsLeapYear, Bool.and_eq_true, Bool.or_eq_true, decide_eq_true_eq]
  omega

theorem daysInMonth_eq (year : Int) {month : Nat} (h1 : 1 ≤ month) (h12 : month ≤ 12) :
    Calendar.daysInMonth year month = monthLength year month := by
  simp only [Calendar.daysInMonth, monthLength, Calendar.monthLengths, isLeap_iff]
  interval_cases month <;> rfl

/-- A month has at most 31 days. -/
theorem monthLength_le (year : Int) (month : Nat) : monthLength year month ≤ 31 := by
  unfold monthLength
  split
  · split <;> decide
  · split <;> decide

/-! ## Days -/

/-- The days from the start of 1970 to a date. Years start with March here, and the days of
a year before a month follow from the regular lengths 31, 30, 31, 30, 31. -/
def civilDays (year : Int) (month day : Nat) : Int :=
  let marchYear := if month ≤ 2 then year - 1 else year
  let marchMonth : Nat := (month + 9) % 12
  let yearOfEra := marchYear % 400
  let dayOfYear : Int := (153 * marchMonth + 2) / 5 + (day - 1)
  marchYear / 400 * 146097 + (yearOfEra * 365 + yearOfEra / 4 - yearOfEra / 100) + dayOfYear
    - 719468

/-- The days of whole eras of 400 years and of the years of the last, from March to March, are
those to the next January, but for the ten months between. -/
theorem daysOfEra (year : Int) :
    year / 400 * 146097 + (year % 400 * 365 + year % 400 / 4 - year % 400 / 100) =
      Calendar.daysBeforeYear (year + 1) - 366 := by
  unfold Calendar.daysBeforeYear
  omega

/-- The days to a date are those of the formula. -/
theorem Date.toDays_eq_civilDays (d : Date) : d.toDays = civilDays d.year d.month d.day := by
  obtain ⟨year, month, day, h1, h12, hday, -⟩ := d
  have hsucc := Calendar.daysBeforeYear_succ year
  simp only [toDays, civilDays, daysOfEra, Calendar.epochDays, Calendar.daysBeforeMonth,
    Calendar.monthLengths]
  by_cases hleap : Calendar.isLeap year
  · simp only [hleap, if_true] at hsucc ⊢
    interval_cases month <;> simp <;> omega
  · simp only [hleap, Bool.false_eq_true, if_false] at hsucc ⊢
    interval_cases month <;> simp <;> omega

/-- **The dates there are, and the days to them.** -/
theorem Date.map_toDays_ofParts? (year : Int) (month day : Nat) :
    (Date.ofParts? year month day).map Date.toDays =
      if IsCivilDate year month day then some (civilDays year month day) else none := by
  by_cases h : IsCivilDate year month day
  · obtain ⟨⟨h1, h12⟩, hday1, hday⟩ := id h
    rw [← daysInMonth_eq year h1 h12] at hday
    rw [if_pos h, Date.ofParts?, dif_pos ⟨h1, h12, hday1, hday⟩, Option.map_some,
      Date.toDays_eq_civilDays]
  · have hparts : ¬(1 ≤ month ∧ month ≤ 12 ∧ 1 ≤ day ∧ day ≤ Calendar.daysInMonth year month) := by
      rintro ⟨h1, h12, hday1, hday⟩
      rw [daysInMonth_eq year h1 h12] at hday
      exact h ⟨⟨h1, h12⟩, hday1, hday⟩
    rw [if_neg h, Date.ofParts?, dif_neg hparts, Option.map_none]

example : civilDays 1970 1 1 = 0 ∧ civilDays 2000 3 1 = 11017 := by decide

/-! ## Cycles of the calendar -/

theorem isLeapYear_add_cycles (year cycles : Int) :
    IsLeapYear (year + 400 * cycles) ↔ IsLeapYear year := by
  unfold IsLeapYear
  omega

theorem isCivilDate_add_cycles (year cycles : Int) (month day : Nat) :
    IsCivilDate (year + 400 * cycles) month day ↔ IsCivilDate year month day := by
  simp only [IsCivilDate, monthLength, isLeapYear_add_cycles]

/-- **The calendar repeats every 400 years**, which have 146097 days. -/
theorem civilDays_add_cycles (year cycles : Int) (month day : Nat) :
    civilDays (year + 400 * cycles) month day = civilDays year month day + 146097 * cycles := by
  unfold civilDays
  dsimp only
  split <;> omega

/-- Dates of the years from 0 to 9999 are within about eight thousand years of 1970. -/
theorem civilDays_bounds {year : Int} {month day : Nat} (hlow : 0 ≤ year) (hhigh : year ≤ 9999)
    (h : IsCivilDate year month day) :
    -1000000 ≤ civilDays year month day ∧ civilDays year month day ≤ 3000000 := by
  have hday := h.2.2.trans (monthLength_le year month)
  obtain ⟨⟨h1, h12⟩, hday1, -⟩ := h
  unfold civilDays
  dsimp only
  split <;> omega

end Conform
