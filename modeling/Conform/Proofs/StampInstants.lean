import Conform.DateText.Reading
import Conform.Proofs.CivilDates
import Conform.Proofs.LayoutReading
import Mathlib.Data.Option.Basic

/-!
# The instants of stamps

When a stamp denotes an instant, and which.

- `Stamp.instant?_eq_some_iff`: **a stamp denotes an instant** if there is its date, its time of
  day is in range and it lies in the years of instants, both in local and in Universal Time;
- `Stamp.instant?_add_cycles`: years may be changed by whole cycles, as long as they have four
  digits then;
- `Instant.natAbs_millis_le`: instants are times.
-/

namespace Conform

/-! ## Instants in seconds -/

namespace Instant

/-- There is an instant so many seconds and nanoseconds from the start of 1970. -/
def InRange (seconds : Int) (nanos : Nat) : Prop :=
  minSeconds ≤ seconds ∧ seconds ≤ maxSeconds ∧ nanos < 2000000000 ∧
    (1000000000 ≤ nanos → seconds % 60 = 59)

theorem ofSeconds?_eq_some_iff {seconds : Int} {nanos : Nat} {t : Instant} :
    ofSeconds? seconds nanos = some t ↔ t.seconds = seconds ∧ t.nanos = nanos := by
  constructor
  · intro h
    unfold ofSeconds? at h
    split at h
    · obtain rfl := Option.some.inj h
      exact ⟨rfl, rfl⟩
    · cases h
  · rintro ⟨rfl, rfl⟩
    exact dif_pos ⟨t.min_le, t.le_max, t.nanos_lt, t.leap⟩

theorem exists_ofSeconds?_iff {seconds : Int} {nanos : Nat} :
    (∃ t, ofSeconds? seconds nanos = some t) ↔ InRange seconds nanos := by
  constructor
  · rintro ⟨t, ht⟩
    obtain ⟨rfl, rfl⟩ := ofSeconds?_eq_some_iff.mp ht
    exact ⟨t.min_le, t.le_max, t.nanos_lt, t.leap⟩
  · intro h
    exact ⟨_, dif_pos h⟩

/-- Instants are not too far away to be times. -/
theorem natAbs_millis_le (t : Instant) : t.millis.natAbs ≤ DateText.maxMillis := by
  have hlow := t.min_le
  have hhigh := t.le_max
  have hnanos := t.nanos_lt
  unfold millis DateText.maxMillis
  unfold minSeconds at hlow
  unfold maxSeconds at hhigh
  omega

end Instant

namespace DateText

namespace Stamp

variable {s : Stamp} {t : Instant}

/-- The seconds from the start of 1970 to a stamp in local time. -/
def localSeconds (s : Stamp) : Int :=
  civilDays s.year s.month s.day * 86400 + s.secondOfDay

/-- The day of the week is that of the date, if there is one. -/
def WeekdayMatches (s : Stamp) : Prop :=
  s.weekday.all (· == ((civilDays s.year s.month s.day + 3) % 7).toNat)

/-- The instant of a stamp whose date is so many days from the start of 1970. -/
def instantOn? (s : Stamp) (days : Int) : Option Instant := do
  guard (s.weekday.all (· == ((days + 3) % 7).toNat))
  guard s.timeInRange
  let _ ← Instant.ofSeconds? (days * 86400 + s.secondOfDay) s.totalNanos
  Instant.ofSeconds? (days * 86400 + s.secondOfDay - s.offset * 60) s.totalNanos

/-- Nothing of the date matters but its days. -/
theorem instant?_eq_bind_days (s : Stamp) :
    s.instant? =
      ((Date.ofParts? s.year s.month s.day).map Date.toDays).bind s.instantOn? := by
  rw [Option.bind_map]
  rfl

theorem instantOn?_eq_some_iff {days : Int} :
    s.instantOn? days = some t ↔
      s.weekday.all (· == ((days + 3) % 7).toNat) ∧ s.timeInRange ∧
        Instant.InRange (days * 86400 + s.secondOfDay) s.totalNanos ∧
        t.seconds = days * 86400 + s.secondOfDay - s.offset * 60 ∧ t.nanos = s.totalNanos := by
  simp only [instantOn?, Option.bind_eq_bind, Option.bind_eq_some_iff, Option.guard_eq_some',
    exists_const, exists_and_right]
  rw [Instant.exists_ofSeconds?_iff, Instant.ofSeconds?_eq_some_iff]

/-- **When a stamp denotes an instant, and which.** -/
theorem instant?_eq_some_iff :
    s.instant? = some t ↔
      IsCivilDate s.year s.month s.day ∧ s.WeekdayMatches ∧ s.timeInRange ∧
        Instant.InRange s.localSeconds s.totalNanos ∧
        t.seconds = s.localSeconds - s.offset * 60 ∧ t.nanos = s.totalNanos := by
  rw [instant?_eq_bind_days, Date.map_toDays_ofParts?]
  by_cases hdate : IsCivilDate s.year s.month s.day
  · rw [if_pos hdate, Option.bind_some, instantOn?_eq_some_iff]
    exact (and_iff_right hdate).symm
  · rw [if_neg hdate, Option.bind_none]
    exact iff_of_false nofun fun h => hdate h.1

/-! ## Cycles of the calendar -/

theorem timeInRange_iff :
    s.timeInRange ↔ s.hour < 24 ∧ s.minute < 60 ∧ s.second ≤ 60 ∧ s.offset.natAbs < 1440 := by
  simp only [timeInRange, Bool.and_eq_true, decide_eq_true_eq, and_assoc]

/-- A day has less than 86400 seconds, because leap seconds are the ones before. -/
theorem secondOfDay_lt (h : s.timeInRange) : s.secondOfDay < 86400 := by
  have hfields := timeInRange_iff.mp h
  unfold secondOfDay
  omega

/-- In the years from 0 to 9999 all times of day are instants, with any offset. -/
theorem inRange_of_four_digits (hlow : 0 ≤ s.year) (hhigh : s.year ≤ 9999)
    (hdate : IsCivilDate s.year s.month s.day) (htime : s.timeInRange)
    (hnanos : s.totalNanos < 2000000000)
    (hleap : 1000000000 ≤ s.totalNanos → s.localSeconds % 60 = 59) :
    Instant.InRange s.localSeconds s.totalNanos ∧
      Instant.InRange (s.localSeconds - s.offset * 60) s.totalNanos := by
  have hdays := civilDays_bounds hlow hhigh hdate
  have hsecond := secondOfDay_lt htime
  have hoffset := (timeInRange_iff.mp htime).2.2.2
  unfold Instant.InRange Instant.minSeconds Instant.maxSeconds localSeconds at *
  omega

/-- A year so many cycles later has the same days, so many days later. -/
theorem localSeconds_add_cycles (s : Stamp) (cycles : Int) :
    (s.withYear (s.year + 400 * cycles)).localSeconds =
      s.localSeconds + cycles * (146097 * 86400) := by
  have hdays := civilDays_add_cycles s.year cycles s.month s.day
  change civilDays (s.year + 400 * cycles) s.month s.day * 86400 + s.secondOfDay = _
  unfold localSeconds
  omega

/-- The days of the week repeat with the calendar. -/
theorem weekdayMatches_add_cycles (s : Stamp) (cycles : Int) :
    (s.withYear (s.year + 400 * cycles)).WeekdayMatches ↔ s.WeekdayMatches := by
  have hdays := civilDays_add_cycles s.year cycles s.month s.day
  have hweekday : (civilDays (s.year + 400 * cycles) s.month s.day + 3) % 7 =
      (civilDays s.year s.month s.day + 3) % 7 := by omega
  change s.weekday.all (· == ((civilDays (s.year + 400 * cycles) s.month s.day + 3) % 7).toNat) ↔ _
  rw [hweekday]
  rfl

/-- **Another year of the same place in the cycle denotes another instant**, as long as it has
at most four digits: it differs by the milliseconds of the cycles. -/
theorem instant?_add_cycles (h : s.instant? = some t) (cycles : Int)
    (hlow : 0 ≤ s.year + 400 * cycles) (hhigh : s.year + 400 * cycles ≤ 9999) :
    ∃ t', (s.withYear (s.year + 400 * cycles)).instant? = some t' ∧
      t'.millis = t.millis + cycles * cycleMillis := by
  obtain ⟨hdate, hweekday, htime, hlocal, hseconds, hnanos⟩ := instant?_eq_some_iff.mp h
  have hlocal' := localSeconds_add_cycles s cycles
  have hdate' := (isCivilDate_add_cycles s.year cycles s.month s.day).mpr hdate
  obtain ⟨hrange, hrange'⟩ :=
    inRange_of_four_digits (s := s.withYear (s.year + 400 * cycles)) hlow hhigh hdate' htime
      hlocal.2.2.1 (fun hleap => by have := hlocal.2.2.2 hleap; omega)
  obtain ⟨t', ht'⟩ := Instant.exists_ofSeconds?_iff.mpr hrange'
  obtain ⟨hseconds', hnanos'⟩ := Instant.ofSeconds?_eq_some_iff.mp ht'
  refine ⟨t', instant?_eq_some_iff.mpr ⟨hdate', (weekdayMatches_add_cycles s cycles).mpr hweekday,
    htime, hrange, hseconds', hnanos'⟩, ?_⟩
  have hsame : t'.nanos = t.nanos := hnanos'.trans hnanos.symm
  change t'.seconds = (s.withYear _).localSeconds - s.offset * 60 at hseconds'
  unfold Instant.millis cycleMillis
  omega

end Stamp

end DateText

end Conform
