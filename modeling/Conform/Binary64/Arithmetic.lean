import Conform.Binary64.Rounding

/-!
# Arithmetic on doubles

Sum, product and quotient, each exact and then rounded once, and truncation to
a whole number. Signs of zeros, infinities and "not a number" follow the
floating point standard.
-/

namespace Conform

namespace Binary64

/-- A magnitude in units with its sign. -/
def signedUnits (negative : Bool) (rank : Nat) : Int :=
  if negative then -(units rank) else units rank

/-- The sum of two numbers. An exact zero is minus zero only if both terms are. -/
def add : Binary64 → Binary64 → Binary64
  | nan, _ => nan
  | _, nan => nan
  | infinite s, infinite t => if s = t then infinite s else nan
  | infinite s, _ => infinite s
  | _, infinite t => infinite t
  | finite s r, finite t q =>
    let sum := signedUnits s r + signedUnits t q
    if sum = 0 then zero (s && t) else ofUnits (sum < 0) sum.natAbs 1

/-- The product of two numbers. -/
def mul : Binary64 → Binary64 → Binary64
  | nan, _ => nan
  | _, nan => nan
  | infinite s, infinite t => infinite (s != t)
  | infinite s, finite t q => if q.val = 0 then nan else infinite (s != t)
  | finite s r, infinite t => if r.val = 0 then nan else infinite (s != t)
  | finite s r, finite t q => ofUnits (s != t) (units r * units q) unitsOfOne

/-- The quotient of two numbers. -/
def div : Binary64 → Binary64 → Binary64
  | nan, _ => nan
  | _, nan => nan
  | infinite _, infinite _ => nan
  | infinite s, finite t _ => infinite (s != t)
  | finite s _, infinite t => zero (s != t)
  | finite s r, finite t q =>
    if q.val = 0 then if r.val = 0 then nan else infinite (s != t)
    else ofRatio (s != t) (units r) (units q)

/-- The whole part of a finite number's magnitude. -/
def wholePart (rank : Nat) : Nat :=
  units rank / unitsOfOne

/-- A number without its fraction; the sign stays, also that of a zero. -/
def trunc : Binary64 → Binary64
  | nan => nan
  | infinite s => infinite s
  | finite s r => ofRatio s (wholePart r) 1

/-- Whether a finite number lies at most `limit` away from zero. -/
def within (limit : Nat) : Binary64 → Bool
  | finite _ r => units r ≤ limit * unitsOfOne
  | _ => false

/-- The decimal text of a number's whole part, with the sign that the number
has, also that of a zero; `none` if the number is not finite. -/
def wholeText? : Binary64 → Option String
  | finite s r => some ((if s then "-" else "") ++ toString (wholePart r))
  | _ => none

end Binary64

end Conform
