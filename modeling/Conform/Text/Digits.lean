/-!
# Runs of decimal digits

Scanning of ASCII digits and the numbers they denote. A scanner is given a
character list and returns what it read together with the rest.
-/

namespace Conform

namespace Text

/-- The value of a decimal digit. -/
def digitValue (c : Char) : Nat :=
  c.toNat - '0'.toNat

/-- The number that a run of digits denotes. -/
def natOfDigits (ds : List Char) : Nat :=
  ds.foldl (fun n d => 10 * n + digitValue d) 0

/-- The digits at the start of a text, and the rest. -/
def spanDigits (cs : List Char) : List Char × List Char :=
  (cs.takeWhile Char.isDigit, cs.dropWhile Char.isDigit)

/-- Nothing is lost between the digits and the rest. -/
theorem spanDigits_append (cs : List Char) : (spanDigits cs).1 ++ (spanDigits cs).2 = cs :=
  List.takeWhile_append_dropWhile

theorem spanDigits_length (cs : List Char) :
    (spanDigits cs).1.length + (spanDigits cs).2.length = cs.length := by
  rw [← List.length_append, spanDigits_append]

/-- A number of at least `least` and at most `most` digits at the start of a
text. Of a longer run only the first `most` digits are read. -/
def number? (least most : Nat) (cs : List Char) : Option (Nat × List Char) :=
  let ds := (cs.take most).takeWhile Char.isDigit
  if ds.length < least then none else some (natOfDigits ds, cs.drop ds.length)

/-- A number of any length, at least one digit long. -/
def anyNumber? (cs : List Char) : Option (Nat × List Char) :=
  number? 1 cs.length cs

end Text

end Conform
