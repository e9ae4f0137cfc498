import Conform.Binary64.Arithmetic
import Conform.DateText.CalendarDate
import Conform.DateText.MessageDate
import Conform.Value

/-!
# Reading dates

The default reading of a value as a date, in milliseconds from the start of
1970. Times are doubles without a fraction, at most 8.64e15 away from zero; what
lies beyond is no date.

A text can be a date in several layouts, which are tried in a fixed order. Years
of a sign and six digits reach further than instants do: such a year is moved
into the years 2000 to 2399 by whole cycles of 400 years, and the milliseconds
are moved back by as many cycles.
-/

namespace Conform

namespace DateText

open Text

/-! ## Milliseconds -/

/-- How far from the start of 1970 a time may lie, in milliseconds. -/
def maxMillis : Nat := 8640000000000000

/-- A number of milliseconds as a time: without its fraction, and only if it is
not too far away. -/
def epochMillis (x : Binary64) : Option Binary64 :=
  if x.within maxMillis then some x.trunc else none

/-- The milliseconds in 400 years. -/
def cycleMillis : Int := 146097 * 86400000

/-! ## Texts -/

/-- The ways in which a text can be a date, in the order in which they are tried. -/
def alternatives : List (List Char → Option Stamp) :=
  Layout.internet.stamp? :: Layout.withOffset.map Layout.stamp? ++
    Layout.withoutOffset.map Layout.stamp? ++ [calendarDate?, messageDate?]

/-- The instant that a text denotes if it is read in one way. -/
def instantBy? (read : List Char → Option Stamp) (cs : List Char) : Option Instant :=
  (read cs).bind Stamp.instant?

/-- The instant that a text denotes. -/
def instant? (cs : List Char) : Option Instant :=
  alternatives.findSome? (instantBy? · cs)

/-- A sign and six digits, followed by a hyphen or by nothing: a year, and the
text behind it. There is no year minus zero. -/
def extendedYear? (cs : List Char) : Option (Int × List Char) :=
  match cs with
  | '+' :: cs => (sixDigits? cs).map fun r => ((r.1 : Int), r.2)
  | '-' :: cs =>
    (sixDigits? cs).bind fun r => if r.1 = 0 then none else some (-(r.1 : Int), r.2)
  | _ => none
where
  /-- Six digits, followed by a hyphen or by nothing. -/
  sixDigits? (cs : List Char) : Option (Nat × List Char) := do
    let (n, rest) ← number? 6 6 cs
    guard (rest.isEmpty || rest.head? == some '-')
    return (n, rest)

/-- The cycles of 400 years from the years 2000 to 2399 to a year. -/
def cyclesTo (year : Int) : Int :=
  (year - 2000) / 400

/-- The time of a text that starts with an extended year. -/
def extendedMillis? (cs : List Char) : Option Binary64 := do
  let (year, rest) ← extendedYear? cs
  let cycles := cyclesTo year
  let shifted := year - 400 * cycles
  let t ← instant? (Nat.toDigits 10 shifted.toNat ++ rest)
  epochMillis ((Binary64.ofInt t.millis).add ((Binary64.ofInt cycles).mul (.ofInt cycleMillis)))

/-- The time that a text denotes. -/
def millis? (cs : List Char) : Option Binary64 :=
  match extendedMillis? cs with
  | some ms => some ms
  | none => (instant? cs).bind fun t => epochMillis (.ofInt t.millis)

end DateText

/-- The time that a value denotes: a date its own, a number that many
milliseconds, a text what it says between blanks. Null and the booleans count as
the numbers 0 and 1. -/
def Value.millis? : Value → Option Binary64
  | date t => some (.ofInt t.millis)
  | number x => DateText.epochMillis x
  | string s => DateText.millis? (Text.trim s.toList)
  | null => some (.ofInt 0)
  | bool b => some (.ofInt (if b then 1 else 0))
  | array _ => none
  | object _ => none

end Conform
