import Conform.DateText.Stamp
import Conform.Text.Blank
import Conform.Text.Digits

/-!
# Layouts of dates and times

A layout is a list of items that are read one after the other, up to the end of
the text. Two families are defined: the internet standard layout with fixed
widths, and the lenient layouts, whose numbers may be short and have blanks
before them.
-/

namespace Conform

namespace DateText

open Text

/-- One item of a layout. -/
inductive Item where
  /-- the year, exactly four digits -/
  | fixedYear
  /-- a field, exactly two digits -/
  | fixed (f : Field)
  /-- blanks, and the year: up to four digits, or a sign and any number of digits -/
  | looseYear
  /-- blanks, and a field of one or two digits -/
  | loose (f : Field)
  /-- one of these characters -/
  | oneOf (cs : List Char)
  /-- any number of blanks -/
  | blanks
  /-- a point and the digits of a fraction of a second, or nothing -/
  | fraction
  /-- `Z`, or hours, a colon and minutes with a sign -/
  | fixedOffset
  /-- blanks, and hours and minutes with a sign, between them colons and blanks -/
  | looseOffset
deriving DecidableEq

/-! ## Scanners -/

/-- The sign of an offset, and whether it is a minus sign. -/
def sign? : List Char → Option (Bool × List Char)
  | '+' :: cs => some (false, cs)
  | '-' :: cs => some (true, cs)
  | '\u2212' :: cs => some (true, cs)
  | _ => none

/-- Two digits. -/
def twoDigits? (cs : List Char) : Option (Nat × List Char) :=
  number? 2 2 cs

/-- An offset in minutes, its hours and minutes separated by what `separator`
skips. -/
def offset? (separator : List Char → Option (List Char)) (cs : List Char) :
    Option (Int × List Char) := do
  let (negative, cs) ← sign? cs
  let (hours, cs) ← twoDigits? cs
  let cs ← separator cs
  let (minutes, cs) ← twoDigits? cs
  guard (minutes < 60)
  let total : Int := hours * 60 + minutes
  return (if negative then -total else total, cs)

/-- Skip one colon. -/
def colon? : List Char → Option (List Char)
  | ':' :: cs => some cs
  | _ => none

/-- Skip colons and blanks. -/
def colonsAndBlanks (cs : List Char) : List Char :=
  cs.dropWhile fun c => c == ':' || isBlank c

/-- The nanoseconds that the digits of a fraction denote; those beyond the ninth
do not count. -/
def nanosOfDigits (ds : List Char) : Nat :=
  natOfDigits (ds.take 9) * Nat.pow 10 (9 - (ds.take 9).length)

/-- A year without blanks before it: up to four digits, or a sign and any number
of digits. -/
def year? : List Char → Option (Int × List Char)
  | '+' :: cs => (anyNumber? cs).map fun r => ((r.1 : Int), r.2)
  | '-' :: cs => (anyNumber? cs).map fun r => (-(r.1 : Int), r.2)
  | cs => (number? 1 4 cs).map fun r => ((r.1 : Int), r.2)

/-- Read one item. -/
def Item.read (s : Stamp) (cs : List Char) : Item → Option (Stamp × List Char)
  | fixedYear => (number? 4 4 cs).map fun r => ({ s with year := r.1 }, r.2)
  | fixed f => (twoDigits? cs).map fun r => (s.set r.1 f, r.2)
  | looseYear => (year? (skipBlanks cs)).map fun r => ({ s with year := r.1 }, r.2)
  | loose f => (number? 1 2 (skipBlanks cs)).map fun r => (s.set r.1 f, r.2)
  | oneOf allowed =>
    match cs with
    | c :: rest => if c ∈ allowed then some (s, rest) else none
    | [] => none
  | blanks => some (s, skipBlanks cs)
  | fraction =>
    match cs with
    | '.' :: rest =>
      let (ds, rest) := spanDigits rest
      if ds.isEmpty then none else some ({ s with nanos := nanosOfDigits ds }, rest)
    | _ => some (s, cs)
  | fixedOffset =>
    match cs with
    | 'Z' :: rest => some (s, rest)
    | 'z' :: rest => some (s, rest)
    | _ => (offset? colon? cs).map fun r => ({ s with offset := r.1 }, r.2)
  | looseOffset =>
    (offset? (fun cs => some (colonsAndBlanks cs)) (skipBlanks cs)).map fun r =>
      ({ s with offset := r.1 }, r.2)

/-- A layout: the items of a date and time, in order. -/
abbrev Layout : Type := List Item

namespace Layout

/-- Read a text by a layout, up to its end. -/
def read : Layout → Stamp → List Char → Option Stamp
  | [], s, [] => some s
  | [], _, _ :: _ => none
  | item :: items, s, cs => do
    let (s, cs) ← item.read s cs
    read items s cs

/-- The stamp of a text in a layout. -/
def stamp? (layout : Layout) (cs : List Char) : Option Stamp :=
  layout.read {} cs

/-- One fixed character. -/
def char (c : Char) : Item :=
  .oneOf [c]

/-! ## The layouts -/

/-- The internet standard layout: date, one of `T`, `t` and space, time to the
second with an optional fraction, offset; all numbers of fixed width. -/
def internet : Layout :=
  [.fixedYear, char '-', .fixed .month, char '-', .fixed .day, .oneOf ['T', 't', ' '],
    .fixed .hour, char ':', .fixed .minute, char ':', .fixed .second, .fraction, .fixedOffset]

/-- Year, month and day with hyphens. -/
def looseDate : Layout :=
  [.looseYear, char '-', .loose .month, char '-', .loose .day]

/-- Hour and minute. -/
def toMinute : Layout :=
  [.loose .hour, char ':', .loose .minute]

/-- Hour, minute and second with an optional fraction. -/
def toSecond : Layout :=
  toMinute ++ [char ':', .loose .second, .fraction]

/-- The lenient layouts with an offset, in the order in which they are tried. -/
def withOffset : List Layout :=
  [looseDate ++ [char 'T'] ++ toSecond ++ [.looseOffset],
    looseDate ++ [char 'T'] ++ toMinute ++ [.looseOffset],
    looseDate ++ [.blanks] ++ toSecond ++ [.looseOffset],
    looseDate ++ [.blanks] ++ toMinute ++ [.looseOffset]]

/-- The lenient layouts of Universal Time, in the order in which they are tried. -/
def withoutOffset : List Layout :=
  [looseDate ++ [char 'T'] ++ toSecond,
    looseDate ++ [char 'T'] ++ toMinute,
    looseDate ++ [char 'T'] ++ toMinute ++ [char 'Z'],
    looseDate ++ [.blanks] ++ toSecond,
    looseDate ++ [.blanks] ++ toMinute]

end Layout

end DateText

end Conform
