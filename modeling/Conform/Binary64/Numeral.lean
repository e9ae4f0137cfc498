import Conform.Binary64.Rounding
import Conform.Text.Digits

/-!
# Doubles from decimal text

The double nearest to the number that a decimal text denotes. A text is an
optional sign and then digits with an optional point among or around them and
an optional exponent, or one of the words for "not a number" and infinity.
-/

namespace Conform

namespace Binary64

open Text

/-- The exponent after the letter `e`. -/
def exponent? (cs : List Char) : Option Int :=
  match cs with
  | '-' :: ds => unsigned ds |>.map (fun n => -(n : Int))
  | '+' :: ds => unsigned ds |>.map Int.ofNat
  | ds => unsigned ds |>.map Int.ofNat
where
  /-- A whole text of digits, at least one. -/
  unsigned (ds : List Char) : Option Nat :=
    match anyNumber? ds with
    | some (n, []) => some n
    | _ => none

/-- The number that an unsigned decimal text denotes, with the given sign. -/
def unsigned? (negative : Bool) (cs : List Char) : Option Binary64 :=
  let (whole, rest) := spanDigits cs
  let (fraction, rest) :=
    match rest with
    | '.' :: rest => spanDigits rest
    | rest => ([], rest)
  if whole.isEmpty && fraction.isEmpty then none
  else
    let digits := natOfDigits (whole ++ fraction)
    match rest with
    | [] => some (ofDecimal negative digits (-fraction.length))
    | c :: rest =>
      if c.toLower = 'e' then
        (exponent? rest).map fun e => ofDecimal negative digits (e - fraction.length)
      else none

/-- The number that a decimal text denotes. -/
def ofText? (s : String) : Option Binary64 :=
  match s.toList with
  | '-' :: cs => signed true cs
  | '+' :: cs => signed false cs
  | cs => signed false cs
where
  /-- What follows the sign. -/
  signed (negative : Bool) (cs : List Char) : Option Binary64 :=
    let word := String.ofList (cs.map Char.toLower)
    if word = "nan" then some nan
    else if word = "inf" || word = "infinity" then some (infinite negative)
    else unsigned? negative cs

end Binary64

end Conform
