import Conform.DateText.Stamp
import Conform.Text.Digits

/-!
# Calendar dates without a time

A year of four digits, a year and a month, or a full date, with hyphens and
nothing else. What is left out is the first: the text denotes the start of the
year, of the month or of the day.
-/

namespace Conform

namespace DateText

open Text

/-- The number that a text of exactly `width` digits denotes. -/
def exactNumber? (width : Nat) (cs : List Char) : Option Nat :=
  if cs.length = width ∧ cs.all Char.isDigit then some (natOfDigits cs) else none

/-- The parts of a text between hyphens. -/
def splitHyphens (cs : List Char) : List (List Char) :=
  cs.splitOn '-'

/-- The stamp of a calendar date. -/
def calendarDate? (cs : List Char) : Option Stamp :=
  match splitHyphens cs with
  | [y] => do
    let year ← exactNumber? 4 y
    return { year := year }
  | [y, m] => do
    let year ← exactNumber? 4 y
    let month ← exactNumber? 2 m
    return { year := year, month := month }
  | [y, m, d] => do
    let year ← exactNumber? 4 y
    let month ← exactNumber? 2 m
    let day ← exactNumber? 2 d
    return { year := year, month := month, day := day }
  | _ => none

end DateText

end Conform
