import Conform.DateText.Layout

/-!
# Dates of mail messages

Dates as mail headers write them: `Fri, 21 Nov 1997 09:55:06 -0600 (comment)`.
The weekday may be missing, but has to be right if it is given; years of two and
three digits are read as years of the twentieth and twenty-first century; the
zone may be a name; comments in parentheses may follow.
-/

namespace Conform

namespace DateText

open Text

/-! ## Names -/

/-- The first letters of the days of the week, Monday first. -/
def weekdayNames : List String :=
  ["mon", "tue", "wed", "thu", "fri", "sat", "sun"]

/-- The first letters of the months, January first. -/
def monthNames : List String :=
  ["jan", "feb", "mar", "apr", "may", "jun", "jul", "aug", "sep", "oct", "nov", "dec"]

/-- The place of a name of three letters, of either case, at the start of a text. -/
def nameIndex? (names : List String) : List Char → Option (Nat × List Char)
  | a :: b :: c :: rest =>
    (names.idxOf? (String.ofList [a.toLower, b.toLower, c.toLower])).map (·, rest)
  | _ => none

/-- Hours by which a named zone is ahead of Universal Time. Letters by themselves
are military zones; they are all read as Universal Time, but there is no `J`. -/
def zoneHours? (name : String) : Option Int :=
  if name ∈ ["gmt", "ut", "z"] then some 0
  else if name = "edt" then some (-4)
  else if name ∈ ["est", "cdt"] then some (-5)
  else if name ∈ ["cst", "mdt"] then some (-6)
  else if name ∈ ["mst", "pdt"] then some (-7)
  else if name = "pst" then some (-8)
  else if name.length = 1 ∧ name ≠ "j" then some 0
  else none

/-! ## Scanners -/

/-- Skip blanks, of which there has to be at least one. -/
def someBlanks? : List Char → Option (List Char)
  | c :: cs => if isBlank c then some (skipBlanks cs) else none
  | [] => none

/-- The weekday and its comma, if the text starts with the name of a weekday. -/
def weekday? (cs : List Char) : Option (Option Nat × List Char) :=
  match nameIndex? weekdayNames cs with
  | some (day, ',' :: rest) => some (some day, rest)
  | some _ => none
  | none => some (none, cs)

/-- The year that digits denote: two of them lie in the years 1950 to 2049, three
count from 1900. -/
def centuryYear (ds : List Char) : Nat :=
  let n := natOfDigits ds
  if ds.length = 2 then if n < 50 then n + 2000 else n + 1900
  else if ds.length = 3 then n + 1900
  else n

/-- The year, at least two digits. -/
def messageYear? (cs : List Char) : Option (Nat × List Char) :=
  let (ds, rest) := spanDigits cs
  if ds.length < 2 then none else some (centuryYear ds, rest)

/-- A colon and the second, perhaps with blanks before the colon. -/
def messageSecond? (cs : List Char) : Option (Nat × List Char) :=
  match skipBlanks cs with
  | ':' :: rest => twoDigits? rest
  | _ => some (0, cs)

/-- The zone, as an offset in minutes: a name, or a sign and four digits. -/
def zone? (cs : List Char) : Option (Int × List Char) :=
  let name := cs.takeWhile Char.isAlpha
  if name.isEmpty then
    match cs with
    | '\u2212' :: _ => none
    | _ => offset? some cs
  else
    (zoneHours? (String.ofList (name.map Char.toLower))).map
      fun hours => (hours * 60, cs.dropWhile Char.isAlpha)

/-- Whether a text holds nothing but comments, each perhaps with blanks before
it. Comments nest; a backslash in a comment takes the next character's meaning
away. The text starts inside `depth` parentheses; outside of all, `pending` says
that the blanks before still want a comment. -/
def onlyComments (depth : Nat) (pending : Bool) : List Char → Bool
  | [] => depth == 0 && !pending
  | '\\' :: [] => false
  | '\\' :: _ :: cs => depth != 0 && onlyComments depth pending cs
  | c :: cs =>
    if depth = 0 then
      if c = '(' then onlyComments 1 false cs else isBlank c && onlyComments 0 true cs
    else if c = '(' then onlyComments (depth + 1) pending cs
    else if c = ')' then onlyComments (depth - 1) pending cs
    else onlyComments depth pending cs

/-! ## The date -/

/-- The stamp of a mail message's date. -/
def messageDate? (cs : List Char) : Option Stamp := do
  let (weekday, cs) ← weekday? (skipBlanks cs)
  let (day, cs) ← number? 1 2 (skipBlanks cs)
  let cs ← someBlanks? cs
  let (month, cs) ← nameIndex? monthNames cs
  let cs ← someBlanks? cs
  let (year, cs) ← messageYear? cs
  let cs ← someBlanks? cs
  let (hour, cs) ← twoDigits? cs
  let cs ← colon? (skipBlanks cs)
  let (minute, cs) ← twoDigits? (skipBlanks cs)
  let (second, cs) ← messageSecond? cs
  let cs ← someBlanks? cs
  let (offset, cs) ← zone? cs
  guard (onlyComments 0 false cs)
  return { year := year, month := month + 1, day, hour, minute, second, offset, weekday }

end DateText

end Conform
