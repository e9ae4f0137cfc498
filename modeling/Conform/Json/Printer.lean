import Conform.Binary64.Shortest
import Conform.Json.Basic
import Conform.Text.Quoted

/-!
# JSON text of a value

Compact text: no spaces, members in order. Whole numbers are written with all
their digits, doubles with the fewest digits that read back, positionally for
decimal exponents from -5 to 15 and always with a fraction, otherwise with an
exponent that always has a sign.
-/

namespace Conform

/-- How a decimal is written. -/
structure DecimalLayout where
  /-- the least decimal exponent that is written positionally -/
  leastPositional : Int
  /-- the least decimal exponent above those that are written positionally -/
  leastScientific : Int

namespace DecimalLayout

/-- The layout of doubles in JSON text. -/
def json : DecimalLayout :=
  ⟨-5, 16⟩

/-- Positional text of the number `0.ds * 10 ^ point`; the fraction has at least one
digit, and so has the whole part. -/
def positional (ds : List Char) (point : Int) : String :=
  let whole := ds.take point.toNat
  let fraction := ds.drop point.toNat
  let leading := List.replicate (-point).toNat '0'
  let trailing := List.replicate (point.toNat - ds.length) '0'
  let whole := if whole.isEmpty then ['0'] else whole ++ trailing
  let fraction := if fraction.isEmpty then ['0'] else leading ++ fraction
  String.ofList (whole ++ '.' :: fraction)

/-- Text with an exponent of the number `d.ds * 10 ^ exponent`, where `d` is the
first of the digits. -/
def scientific (ds : List Char) (exponent : Int) : String :=
  let fraction := ds.drop 1
  let mantissa := ds.take 1 ++ if fraction.isEmpty then [] else '.' :: fraction
  let sign := if exponent < 0 then "e-" else "e+"
  String.ofList mantissa ++ sign ++ toString exponent.natAbs

/-- The text of a decimal. -/
def render (layout : DecimalLayout) (d : Decimal) : String :=
  if d.digits = 0 then "0.0"
  else
    let all := Nat.toDigits 10 d.digits
    let ds := (all.reverse.dropWhile (· == '0')).reverse
    let exponent := d.exponent + all.length - 1
    if layout.leastPositional ≤ exponent ∧ exponent < layout.leastScientific then
      positional ds (exponent + 1)
    else
      scientific ds exponent

end DecimalLayout

namespace Numeral

/-- The JSON text of a number. JSON has no text for infinities and "not a
number"; they are written as null. -/
def render : Numeral → String
  | integer n => toString n
  | real (.finite s r) => (if s then "-" else "") ++ DecimalLayout.json.render (Binary64.shortest r)
  | real _ => "null"

end Numeral

namespace Json

mutual

/-- The JSON text of a value. -/
def render : Json → String
  | null => "null"
  | bool b => if b then "true" else "false"
  | number n => n.render
  | string s => Text.quote s
  | array items => "[" ++ String.intercalate "," (renderItems items) ++ "]"
  | object members => "\x7b" ++ String.intercalate "," (renderMembers members) ++ "\x7d"

/-- The texts of an array's items. -/
def renderItems : List Json → List String
  | [] => []
  | x :: xs => x.render :: renderItems xs

/-- The texts of an object's members. -/
def renderMembers : List (String × Json) → List String
  | [] => []
  | (k, x) :: fs => (Text.quote k ++ ":" ++ x.render) :: renderMembers fs

end

end Json

end Conform
