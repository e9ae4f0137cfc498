import Conform.Proofs.ExtendedYears
import Conform.Proofs.Spellings
import Mathlib.Data.Rat.Floor
import Mathlib.Tactic.FieldSimp

/-!
# Times as they are written

The instants that the standard spellings of dates and times mean, as exact numbers of
milliseconds, and the times that are read.

- `AfterYear.exactMillis`: the meaning, by the calendar and rational arithmetic;
- `nanosOfDigits_div`, `floor_exactMillis`: fractions of any length, rounded down;
- `instant?_written`: the instant of a year of four digits and what follows it;
- `written_time_exact`: **the time of a text is its meaning**, rounded down to milliseconds, if
  there is such a date and the result is in range; no millisecond is lost on the way.
-/

namespace Conform

namespace DateText

open Text

/-! ## Meaning -/

/-- The fraction that digits behind a point denote. -/
def fractionValue : List (Fin 10) → ℚ
  | [] => 0
  | d :: ds => (d.val + fractionValue ds) / 10

namespace TimeOfDay

/-- The seconds from the start of the day in Universal Time, without the fraction. -/
def wholeSeconds (τ : TimeOfDay) : Int :=
  τ.hour.val * 3600 + τ.minute.val * 60 + τ.second.val - τ.zone.minutesAhead * 60

/-- The milliseconds from the start of the day in Universal Time. -/
def exactMillis (τ : TimeOfDay) : ℚ :=
  (τ.wholeSeconds + fractionValue τ.fraction) * 1000

end TimeOfDay

namespace AfterYear

/-- There is the date that is written. -/
def IsDateOf (r : AfterYear) (year : Int) : Prop :=
  IsCivilDate year r.monthNumber r.dayNumber

/-- The milliseconds from the start of 1970 to what is written. -/
def exactMillis (r : AfterYear) (year : Int) : ℚ :=
  civilDays year r.monthNumber r.dayNumber * 86400000 + r.timeOfDay.exactMillis

instance (r : AfterYear) (year : Int) : Decidable (r.IsDateOf year) :=
  inferInstanceAs (Decidable (IsCivilDate _ _ _))

end AfterYear

/-! ## Fractions -/

theorem length_fractionDigits (fraction : List (Fin 10)) :
    (fractionDigits fraction).length = fraction.length :=
  List.length_map _

/-- A fraction is the number of its digits, divided by a power of ten. -/
theorem fractionValue_eq (fraction : List (Fin 10)) :
    fractionValue fraction =
      (natOfDigits (fractionDigits fraction) : ℚ) / (10 ^ fraction.length : Nat) := by
  induction fraction with
  | nil => simp [fractionValue, fractionDigits, natOfDigits]
  | cons d ds ih =>
    have hdigit : natOfDigits [d.val.digitChar] = d.val := by
      change 10 * 0 + (d.val.digitChar.toNat - '0'.toNat) = d.val
      rw [Nat.toNat_digitChar_of_lt_ten d.isLt, Nat.mul_zero, Nat.zero_add]
      exact Nat.add_sub_cancel_left 48 d.val
    have hcons : natOfDigits (fractionDigits (d :: ds)) =
        10 ^ ds.length * d.val + natOfDigits (fractionDigits ds) := by
      rw [← length_fractionDigits ds, ← hdigit]
      exact natOfDigits_append [d.val.digitChar] (fractionDigits ds)
    rw [fractionValue, ih, hcons, List.length_cons]
    push_cast
    field_simp
    ring

/-- The whole milliseconds of a fraction's nanoseconds are those of the fraction, however many
digits it has. -/
theorem nanosOfDigits_div {ds : List Char} (hds : ∀ d ∈ ds, d.isDigit) :
    nanosOfDigits ds / 10 ^ 6 = natOfDigits ds * 10 ^ 3 / 10 ^ ds.length := by
  rcases (Nat.lt_or_ge 9 ds.length).symm with hlen | hlen
  · -- nanoseconds are exact
    have hnanos : nanosOfDigits ds = natOfDigits ds * 10 ^ (9 - ds.length) := by
      rw [nanosOfDigits, List.take_of_length_le hlen, Nat.pow_eq]
    have hpow : 10 ^ 6 * 10 ^ 3 = 10 ^ ds.length * 10 ^ (9 - ds.length) := by
      rw [← Nat.pow_add, ← Nat.pow_add, Nat.add_sub_cancel' hlen]
    calc nanosOfDigits ds / 10 ^ 6
        = natOfDigits ds * 10 ^ (9 - ds.length) * 10 ^ 3 / (10 ^ 6 * 10 ^ 3) := by
          rw [hnanos, Nat.mul_div_mul_right _ _ (by decide)]
      _ = natOfDigits ds * 10 ^ 3 * 10 ^ (9 - ds.length) /
            (10 ^ ds.length * 10 ^ (9 - ds.length)) := by
          rw [hpow, Nat.mul_right_comm]
      _ = natOfDigits ds * 10 ^ 3 / 10 ^ ds.length :=
          Nat.mul_div_mul_right _ _ (Nat.pow_pos (by decide))
  · -- the digits from the tenth on are less than a nanosecond
    have hsplit : natOfDigits ds =
        10 ^ (ds.length - 9) * natOfDigits (ds.take 9) + natOfDigits (ds.drop 9) := by
      rw [← List.length_drop, ← natOfDigits_append, List.take_append_drop]
    have hrest : natOfDigits (ds.drop 9) < 10 ^ (ds.length - 9) := by
      rw [← List.length_drop]
      exact natOfDigits_lt fun d hd => hds d (List.mem_of_mem_drop hd)
    have hnanos : nanosOfDigits ds = natOfDigits ds / 10 ^ (ds.length - 9) := by
      rw [hsplit, Nat.mul_add_div (Nat.pow_pos (by decide)), Nat.div_eq_of_lt hrest, nanosOfDigits,
        List.length_take_of_le hlen.le]
      exact Nat.mul_one _
    have hpow : 10 ^ (ds.length - 9) * 10 ^ 6 * 10 ^ 3 = 10 ^ ds.length := by
      rw [← Nat.pow_add, ← Nat.pow_add]
      congr 1
      omega
    rw [hnanos, Nat.div_div_eq_div_mul, ← Nat.mul_div_mul_right _ _ (Nat.pow_pos (n := 3)
      (by decide : 0 < 10)), hpow]

theorem nanosOfDigits_lt {ds : List Char} (hds : ∀ d ∈ ds, d.isDigit) :
    nanosOfDigits ds < 10 ^ 9 := by
  have hlen : (ds.take 9).length ≤ 9 := List.length_take_le 9 ds
  have hlt : natOfDigits (ds.take 9) < 10 ^ (ds.take 9).length :=
    natOfDigits_lt fun d hd => hds d (List.mem_of_mem_take hd)
  calc nanosOfDigits ds
      < 10 ^ (ds.take 9).length * 10 ^ (9 - (ds.take 9).length) :=
        Nat.mul_lt_mul_of_pos_right hlt (Nat.pow_pos (by decide))
    _ = 10 ^ 9 := by rw [← Nat.pow_add, Nat.add_sub_cancel' hlen]

/-- The meaning rounded down, in whole numbers. -/
theorem floor_exactMillis (r : AfterYear) (year : Int) :
    ⌊r.exactMillis year⌋ =
      (civilDays year r.monthNumber r.dayNumber * 86400 + r.timeOfDay.wholeSeconds) * 1000 +
        (nanosOfDigits (fractionDigits r.timeOfDay.fraction) / 10 ^ 6 : Nat) := by
  have hfraction : ⌊fractionValue r.timeOfDay.fraction * 1000⌋ =
      (nanosOfDigits (fractionDigits r.timeOfDay.fraction) / 10 ^ 6 : Nat) := by
    rw [nanosOfDigits_div fun _ => isDigit_of_mem_fractionDigits, length_fractionDigits,
      Int.natCast_div, ← Rat.floor_natCast_div_natCast, fractionValue_eq]
    congr 1
    push_cast
    ring
  have hsum : r.exactMillis year =
      ((civilDays year r.monthNumber r.dayNumber * 86400 + r.timeOfDay.wholeSeconds) * 1000 : Int) +
        fractionValue r.timeOfDay.fraction * 1000 := by
    unfold AfterYear.exactMillis TimeOfDay.exactMillis
    push_cast
    ring
  rw [hsum, Int.floor_intCast_add, hfraction]

/-- Whole cycles of the calendar shift the meaning by their milliseconds. -/
theorem floor_exactMillis_add_cycles (r : AfterYear) (year cycles : Int) :
    ⌊r.exactMillis (year + 400 * cycles)⌋ = ⌊r.exactMillis year⌋ + cycles * cycleMillis := by
  rw [floor_exactMillis, floor_exactMillis, civilDays_add_cycles, cycleMillis]
  ring

/-- Zones are less than a day ahead or behind. -/
theorem Zone.natAbs_minutesAhead_lt (z : Zone) : z.minutesAhead.natAbs < 1440 := by
  cases z with
  | universal => decide
  | offset behind hours minutes =>
    have hhours := hours.isLt
    have hminutes := minutes.isLt
    unfold minutesAhead
    dsimp only
    split <;> omega

namespace AfterYear

variable (r : AfterYear) (year : Int)

theorem timeInRange_stamp : (r.stamp year).timeInRange :=
  Stamp.timeInRange_iff.mpr ⟨r.timeOfDay.hour.isLt, r.timeOfDay.minute.isLt,
    r.timeOfDay.second.isLt.le.trans (by decide), r.timeOfDay.zone.natAbs_minutesAhead_lt⟩

/-- No second that is written is a leap second. -/
theorem totalNanos_stamp :
    (r.stamp year).totalNanos = nanosOfDigits (fractionDigits r.timeOfDay.fraction) := by
  have hsecond : r.timeOfDay.second.val ≠ 60 := r.timeOfDay.second.isLt.ne
  exact congrArg (_ + ·) (if_neg hsecond)

/-- The seconds of a stamp in Universal Time are those that are written. -/
theorem seconds_stamp :
    (r.stamp year).localSeconds - (r.stamp year).offset * 60 =
      civilDays year r.monthNumber r.dayNumber * 86400 + r.timeOfDay.wholeSeconds := by
  have hsecond := r.timeOfDay.second.isLt
  simp only [Stamp.localSeconds, Stamp.secondOfDay, stamp, TimeOfDay.wholeSeconds]
  omega

end AfterYear

/-- **The instant of a year of four digits and what follows it** is the meaning, rounded down to
milliseconds. -/
theorem instant?_written {year : Nat} (hyear : year < 10000) (r : AfterYear) :
    (instant? (padded 4 year ++ r.text)).map Instant.millis =
      if r.IsDateOf year then some ⌊r.exactMillis year⌋ else none := by
  rw [instant?_eq_bind, stamp?_written hyear, Option.bind_some]
  by_cases hdate : r.IsDateOf year
  · have hnanos : (r.stamp year).totalNanos < 10 ^ 9 := by
      rw [r.totalNanos_stamp]
      exact nanosOfDigits_lt fun _ => isDigit_of_mem_fractionDigits
    -- in years of four digits nothing but the date can be missing
    obtain ⟨hlocal, huniversal⟩ := Stamp.inRange_of_four_digits (s := r.stamp year)
      (Int.natCast_nonneg year) (Int.le_of_lt_add_one (Int.ofNat_lt.mpr hyear)) hdate
      (r.timeInRange_stamp year) (hnanos.trans (by decide))
      fun hleap => absurd hnanos (Nat.not_lt.mpr hleap)
    obtain ⟨t, ht⟩ := Instant.exists_ofSeconds?_iff.mpr huniversal
    obtain ⟨hseconds, hnanos'⟩ := Instant.ofSeconds?_eq_some_iff.mp ht
    have hinstant : (r.stamp year).instant? = some t :=
      Stamp.instant?_eq_some_iff.mpr
        ⟨hdate, rfl, r.timeInRange_stamp year, hlocal, hseconds, hnanos'⟩
    rw [if_pos hdate, hinstant, Option.map_some, floor_exactMillis, Instant.millis, hseconds,
      hnanos', r.seconds_stamp, r.totalNanos_stamp]
    rfl
  · have hnone : (r.stamp year).instant? = none := by
      by_contra hsome
      obtain ⟨t, ht⟩ := Option.ne_none_iff_exists'.mp hsome
      exact hdate (Stamp.instant?_eq_some_iff.mp ht).1
    rw [if_neg hdate, hnone, Option.map_none]

/-! ## Times -/

/-- Times are at most so many milliseconds away from the start of 1970. -/
def InTimeRange (ms : Int) : Prop :=
  -8640000000000000 ≤ ms ∧ ms ≤ 8640000000000000

instance (ms : Int) : Decidable (InTimeRange ms) :=
  inferInstanceAs (Decidable (_ ∧ _))

theorem inTimeRange_iff {ms : Int} : InTimeRange ms ↔ ms.natAbs ≤ maxMillis := by
  unfold InTimeRange maxMillis
  omega

/-- The time of what is written for a year. -/
def AfterYear.time? (r : AfterYear) (year : Int) : Option Binary64 :=
  if r.IsDateOf year ∧ InTimeRange ⌊r.exactMillis year⌋ then
    some (.ofInt ⌊r.exactMillis year⌋)
  else none

/-- The range of times is decided by the milliseconds of the date, if there is one. -/
theorem AfterYear.time?_eq_bind (r : AfterYear) (year : Int) :
    r.time? year = (if r.IsDateOf year then some ⌊r.exactMillis year⌋ else none).bind fun ms =>
      epochMillis (.ofInt ms) := by
  unfold time?
  by_cases hdate : r.IsDateOf year
  · rw [if_pos hdate, Option.bind_some, epochMillis_ofInt]
    exact if_congr ((and_iff_right hdate).trans inTimeRange_iff) rfl rfl
  · rw [if_neg hdate, if_neg fun h => hdate h.1, Option.bind_none]

/-- Whole cycles of the calendar shift times by their milliseconds, wherever the range of times
allows. -/
theorem AfterYear.time?_add_cycles (r : AfterYear) (year cycles : Int) :
    r.time? (year + 400 * cycles) =
      (if r.IsDateOf year then some ⌊r.exactMillis year⌋ else none).bind fun ms =>
        epochMillis (.ofInt (ms + cycles * cycleMillis)) := by
  have hdate : r.IsDateOf (year + 400 * cycles) ↔ r.IsDateOf year :=
    isCivilDate_add_cycles year cycles _ _
  rw [time?_eq_bind, floor_exactMillis_add_cycles]
  by_cases h : r.IsDateOf year
  · rw [if_pos h, if_pos (hdate.mpr h), Option.bind_some, Option.bind_some]
  · rw [if_neg h, if_neg (hdate.not.mpr h), Option.bind_none, Option.bind_none]

/-- A text that starts with a digit has no extended year. -/
theorem extendedMillis?_of_isDigit {c : Char} (hc : c.isDigit) (cs : List Char) :
    extendedMillis? (c :: cs) = none := by
  have hyear : extendedYear? (c :: cs) = none := by
    unfold extendedYear?
    split
    · next heq => rw [(List.cons.inj heq).1] at hc; cases hc
    · next heq => rw [(List.cons.inj heq).1] at hc; cases hc
    · rfl
  rw [extendedMillis?, hyear]
  rfl

theorem bind_map_millis {α : Type} (t : Option Instant) (f : Int → Option α) :
    (t.map Instant.millis).bind f = t.bind fun t => f t.millis := by
  cases t <;> rfl

/-- With a year of four digits, the time of the instant is the time. -/
theorem millis?_four {year : Nat} (hyear : year < 10000) (r : AfterYear) :
    millis? (padded 4 year ++ r.text) = r.time? year := by
  have hrule : extendedMillis? (padded 4 year ++ r.text) = none := by
    have hlen := length_padded (by decide : 0 < 4) hyear
    cases hdigits : padded 4 year with
    | nil => rw [hdigits] at hlen; cases hlen
    | cons c cs =>
      have hmem : c ∈ padded 4 year := by
        rw [hdigits]
        exact List.mem_cons_self
      exact extendedMillis?_of_isDigit (isDigit_of_mem_padded hmem) _
  rw [AfterYear.time?_eq_bind, ← instant?_written hyear, bind_map_millis, millis?, hrule]

/-- With a year of a sign and six digits, the year is moved and the milliseconds are moved back,
which comes to the same. -/
theorem millis?_six {x : ExtendedText} {r : AfterYear} (hrest : x.rest = r.text)
    (hzero : ¬ x.IsMinusZero) : millis? x.text = r.time? x.year := by
  have hcycle := x.cycleYear_eq
  have hbounds := x.cycleYear_bounds
  have hyear : x.year = x.cycleYear + 400 * cyclesTo x.year := by omega
  rw [hyear, AfterYear.time?_add_cycles, ← instant?_written (by omega), bind_map_millis,
    x.millis?_of_not_isMinusZero hzero, x.extendedMillis?_eq hzero, ExtendedText.shifted, hrest]

-- the last time there is, and a millisecond later
example : millis? "+275760-09-13T00:00:00.000Z".toList = some (.ofInt 8640000000000000) ∧
    millis? "+275760-09-13T00:00:00.001Z".toList = none := by decide +kernel

/-- The extended year in front of what follows it. -/
def extendedText (negative : Bool) (year : Fin 1000000) (r : AfterYear) : ExtendedText where
  negative := negative
  digits := padded 6 year
  rest := r.text
  isDigit _ := isDigit_of_mem_padded
  length_digits := length_padded (by decide) year.isLt
  rest_starts := by
    cases r with
    | nothing => exact .inl rfl
    | month m => exact .inr rfl
    | day m d => exact .inr rfl
    | time m d τ => exact .inr rfl

/-- **The time of a text in a standard spelling is its exact meaning**, rounded down to
milliseconds, if there is the date that is written and the result is in range; and then the
result is exactly that whole number. -/
theorem written_time_exact (y : YearText) (r : AfterYear) :
    millis? (y.text ++ r.text) = r.time? y.year ∧
      ∀ ms, InTimeRange ms → (Binary64.ofInt ms).IsWhole ms := by
  refine ⟨?_, fun ms hms => ?_⟩
  · cases y with
    | four year => exact millis?_four year.isLt r
    | six negative year ne =>
      have hvalue : natOfDigits (padded 6 year) = year := natOfDigits_padded 6 year
      have hzero : ¬ (extendedText negative year r).IsMinusZero := by
        rintro ⟨hnegative, hdigits⟩
        exact ne ⟨hnegative, hvalue.symm.trans hdigits⟩
      have hyear : (extendedText negative year r).year = YearText.year (.six negative year ne) := by
        simp only [ExtendedText.year, extendedText, YearText.year, hvalue]
      have htext : YearText.text (.six negative year ne) ++ r.text =
          (extendedText negative year r).text := by
        rw [YearText.text, List.cons_append]
        rfl
      rw [← hyear, htext]
      exact millis?_six rfl hzero
  · refine Binary64.isWhole_ofInt (Binary64.exact_of_lt ?_)
    exact Nat.lt_of_le_of_lt (inTimeRange_iff.mp hms) maxMillis_lt

end DateText

end Conform
