import Conform.Instant

/-!
# Stamps

A stamp is what the text of a date and time says, field by field, before it is
known whether there is such a time. `Stamp.instant?` checks the fields and finds
the instant: a second of 60 is a leap second, kept as the second before it with
a thousand milliseconds more, and an offset is the distance of local time from
Universal Time.
-/

namespace Conform

namespace DateText

/-- A numeric field of a date and time. -/
inductive Field where
  | month
  | day
  | hour
  | minute
  | second
deriving DecidableEq

/-- The fields of a date and time as they were read. What a text leaves out has
its least value. -/
structure Stamp where
  year : Int := 0
  month : Nat := 1
  day : Nat := 1
  hour : Nat := 0
  minute : Nat := 0
  second : Nat := 0
  nanos : Nat := 0
  /-- minutes by which local time is ahead of Universal Time -/
  offset : Int := 0
  /-- the day of the week, Monday being 0, if the text names it -/
  weekday : Option Nat := none
deriving DecidableEq

namespace Stamp

/-- The stamp with one field changed. -/
def set (s : Stamp) (n : Nat) : Field → Stamp
  | .month => { s with month := n }
  | .day => { s with day := n }
  | .hour => { s with hour := n }
  | .minute => { s with minute := n }
  | .second => { s with second := n }

/-- The seconds from the start of the day, a leap second being the last second
of its minute. -/
def secondOfDay (s : Stamp) : Nat :=
  s.hour * 3600 + s.minute * 60 + min s.second 59

/-- The nanoseconds, with the billion by which a leap second exceeds the second
before it. -/
def totalNanos (s : Stamp) : Nat :=
  s.nanos + if s.second = 60 then 1000000000 else 0

/-- Whether the fields of the time of day and the offset are in range. -/
def timeInRange (s : Stamp) : Bool :=
  s.hour < 24 && s.minute < 60 && s.second ≤ 60 && s.offset.natAbs < 1440

/-- The instant that a stamp denotes. Both local time and Universal Time have to
lie in the years in which there are instants. -/
def instant? (s : Stamp) : Option Instant := do
  let date ← Date.ofParts? s.year s.month s.day
  guard (s.weekday.all (· == date.weekday))
  guard s.timeInRange
  let localSeconds : Int := date.toDays * 86400 + s.secondOfDay
  let _ ← Instant.ofSeconds? localSeconds s.totalNanos
  Instant.ofSeconds? (localSeconds - s.offset * 60) s.totalNanos

end Stamp

end DateText

end Conform
