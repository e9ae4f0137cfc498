import Conform.Calendar

/-!
# Instants

Points in time, in seconds and nanoseconds from the start of 1970, Universal
Time. Instants lie in the years -262143 to 262142. A leap second is the second
before it with a billion or more nanoseconds; it can only follow a second that
ends a minute.
-/

namespace Conform

namespace Instant

/-- The first second of the first year in which there are instants. -/
def minSeconds : Int := -8334601228800

example : minSeconds = (Calendar.daysBeforeYear (-262143) - Calendar.epochDays) * 86400 := by
  decide

/-- The last second of the last year in which there are instants. -/
def maxSeconds : Int := 8210266876799

example : maxSeconds = (Calendar.daysBeforeYear 262143 - Calendar.epochDays) * 86400 - 1 := by
  decide

end Instant

/-- A point in time. -/
structure Instant where
  seconds : Int
  nanos : Nat
  min_le : Instant.minSeconds ≤ seconds
  le_max : seconds ≤ Instant.maxSeconds
  nanos_lt : nanos < 2000000000
  leap : 1000000000 ≤ nanos → seconds % 60 = 59
deriving DecidableEq

namespace Instant

/-- The instant so many seconds and nanoseconds from the start of 1970, if there
is one. -/
def ofSeconds? (seconds : Int) (nanos : Nat) : Option Instant :=
  if h : minSeconds ≤ seconds ∧ seconds ≤ maxSeconds ∧ nanos < 2000000000 ∧
      (1000000000 ≤ nanos → seconds % 60 = 59) then
    some ⟨seconds, nanos, h.1, h.2.1, h.2.2.1, h.2.2.2⟩
  else none

/-- Whole milliseconds from the start of 1970; a fraction is dropped toward the
past. -/
def millis (t : Instant) : Int :=
  t.seconds * 1000 + t.nanos / 1000000

end Instant

end Conform
