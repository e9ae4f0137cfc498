import Conform.Binary64.Arithmetic
import Conform.Json.Basic
import Conform.Json.Cursor
import Conform.Text.Digits

/-!
# Numbers in JSON text

A number without fraction and exponent that fits into 64 bits is whole. Of
every other number the leading digits that fit into 64 bits make a significand;
it becomes a double and is then multiplied or divided by a power of ten. Each of
these steps rounds once.
-/

namespace Conform

namespace Json

open Text

/-- Add digits to a significand as long as it fits into 64 bits; the digits
from the first one that does not fit are left over. -/
def absorb (significand : Nat) : List Char → Nat × List Char
  | [] => (significand, [])
  | d :: ds =>
    let next := 10 * significand + digitValue d
    if next < Nat.pow 2 64 then absorb next ds else (significand, d :: ds)

/-- The double nearest to a power of ten. -/
def powerOfTen (n : Nat) : Binary64 :=
  Binary64.ofDecimal false 1 n

/-- A double times a power of ten, unless it is too large. Powers beyond 10^308
are no doubles: a larger factor exceeds the range, and a larger divisor is
applied in steps until nothing is left. -/
def scale (x : Binary64) (exponent : Int) : Option Binary64 :=
  if exponent.natAbs ≤ 308 then
    if 0 ≤ exponent then
      let y := x.mul (powerOfTen exponent.natAbs)
      if y.isFinite then some y else none
    else some (x.div (powerOfTen exponent.natAbs))
  else if x.equal (Binary64.zero false) then some x
  else if 0 ≤ exponent then none
  else scale (x.div (powerOfTen 308)) (exponent + 308)
termination_by (-exponent).toNat

/-- The digits of an exponent as a number of at most 31 bits; otherwise the
position of the first digit that does not fit. -/
def exponentValue (ds : List Char) : Except Nat Nat :=
  go 0 0 ds
where
  /-- The digits after the first `i`, which denote `n`. -/
  go (n i : Nat) : List Char → Except Nat Nat
    | [] => .ok n
    | d :: ds =>
      let next := 10 * n + digitValue d
      if next < Nat.pow 2 31 then go next (i + 1) ds else .error (i + 1)

/-- The parts of a number in JSON text: a significand, a power of ten, and
whether there was nothing but whole digits. -/
structure NumberParts where
  significand : Nat
  exponent : Int
  whole : Bool

/-- The double that the parts of a number denote; its text ends at this cursor. -/
def realAt (negative : Bool) (parts : NumberParts) (c : Cursor) :
    Except Fault (Numeral × Cursor) :=
  match scale (Binary64.ofInt parts.significand) parts.exponent with
  | some x => .ok (.real (if negative then x.neg else x), c)
  | none => .error (c.fault .numberOutOfRange)

/-- The number without exponent whose text ends at this cursor. Minus zero is a
double, and so is what does not fit into 64 bits with its sign. -/
def numeralAt (negative : Bool) (parts : NumberParts) (c : Cursor) :
    Except Fault (Numeral × Cursor) :=
  if parts.whole && !negative then .ok (.integer parts.significand, c)
  else if parts.whole && 0 < parts.significand && parts.significand ≤ Nat.pow 2 63 then
    .ok (.integer (-parts.significand), c)
  else realAt negative parts c

/-- The digits of an exponent, and the number as a whole. -/
def readExponentDigits (negative below : Bool) (parts : NumberParts) (c : Cursor) :
    Except Fault (Numeral × Cursor) :=
  let (ds, rest) := spanDigits c.rest
  if ds.isEmpty then
    if c.rest.isEmpty then .error (c.fault .endInValue)
    else .error ⟨.invalidNumber, c.offset + 1⟩
  else
    let after : Cursor := ⟨rest, c.offset + ds.length⟩
    match exponentValue ds with
    | .ok n =>
      let exponent := if below then parts.exponent - n else parts.exponent + n
      realAt negative { parts with exponent } after
    | .error position =>
      if parts.significand ≠ 0 && !below then
        .error ⟨.numberOutOfRange, c.offset + position⟩
      else .ok (.real (.zero negative), after)

/-- The exponent of a number, behind its letter `e`, and the number as a whole. -/
def readExponent (negative : Bool) (parts : NumberParts) (c : Cursor) :
    Except Fault (Numeral × Cursor) :=
  match c.rest with
  | '+' :: rest => readExponentDigits negative false parts ⟨rest, c.offset + 1⟩
  | '-' :: rest => readExponentDigits negative true parts ⟨rest, c.offset + 1⟩
  | _ => readExponentDigits negative false parts c

/-- What follows the fraction of a number. -/
def afterFraction (negative : Bool) (parts : NumberParts) (c : Cursor) :
    Except Fault (Numeral × Cursor) :=
  match c.rest with
  | 'e' :: rest => readExponent negative parts ⟨rest, c.offset + 1⟩
  | 'E' :: rest => readExponent negative parts ⟨rest, c.offset + 1⟩
  | _ => numeralAt negative parts c

/-- What follows the whole digits of a number. -/
def afterWhole (negative : Bool) (parts : NumberParts) (c : Cursor) :
    Except Fault (Numeral × Cursor) :=
  match c.rest with
  | '.' :: rest =>
    let (ds, rest') := spanDigits rest
    let after : Cursor := ⟨rest', c.offset + 1 + ds.length⟩
    if ds.isEmpty then
      .error (after.faultAhead (if rest.isEmpty then .endInValue else .invalidNumber))
    else
      let (significand, leftOver) := absorb parts.significand ds
      let exponent := parts.exponent - (ds.length - leftOver.length : Nat)
      afterFraction negative ⟨significand, exponent, false⟩ after
  | _ => afterFraction negative parts c

/-- A number, behind its minus sign if it has one. -/
def readNumber (negative : Bool) (c : Cursor) : Except Fault (Numeral × Cursor) :=
  let (ds, rest) := spanDigits c.rest
  if ds.isEmpty then
    if c.rest.isEmpty then .error (c.fault .endInValue)
    else .error ⟨.invalidNumber, c.offset + 1⟩
  else if ds.head? = some '0' ∧ 1 < ds.length then .error ⟨.invalidNumber, c.offset + 2⟩
  else
    let (significand, leftOver) := absorb 0 ds
    afterWhole negative ⟨significand, leftOver.length, leftOver.isEmpty⟩
      ⟨rest, c.offset + ds.length⟩

/-! ## Reading a number moves on -/

theorem realAt_after {negative : Bool} {parts : NumberParts} {c after : Cursor} {n : Numeral}
    (h : realAt negative parts c = .ok (n, after)) : after = c := by
  unfold realAt at h
  grind

theorem numeralAt_after {negative : Bool} {parts : NumberParts} {c after : Cursor} {n : Numeral}
    (h : numeralAt negative parts c = .ok (n, after)) : after = c := by
  unfold numeralAt at h
  grind [→ realAt_after]

theorem readExponentDigits_le {negative below : Bool} {parts : NumberParts} {c after : Cursor}
    {n : Numeral} (h : readExponentDigits negative below parts c = .ok (n, after)) :
    after.rest.length ≤ c.rest.length := by
  unfold readExponentDigits at h
  grind [→ realAt_after, spanDigits_length]

theorem readExponent_le {negative : Bool} {parts : NumberParts} {c after : Cursor} {n : Numeral}
    (h : readExponent negative parts c = .ok (n, after)) : after.rest.length ≤ c.rest.length := by
  unfold readExponent at h
  grind [→ readExponentDigits_le]

theorem afterFraction_le {negative : Bool} {parts : NumberParts} {c after : Cursor} {n : Numeral}
    (h : afterFraction negative parts c = .ok (n, after)) :
    after.rest.length ≤ c.rest.length := by
  unfold afterFraction at h
  grind [→ numeralAt_after, → readExponent_le]

theorem afterWhole_le {negative : Bool} {parts : NumberParts} {c after : Cursor} {n : Numeral}
    (h : afterWhole negative parts c = .ok (n, after)) : after.rest.length ≤ c.rest.length := by
  unfold afterWhole at h
  grind [spanDigits_length, → afterFraction_le]

/-- A number has at least one digit. -/
theorem readNumber_lt {negative : Bool} {c after : Cursor} {n : Numeral}
    (h : readNumber negative c = .ok (n, after)) : after.rest.length < c.rest.length := by
  unfold readNumber at h
  grind [spanDigits_length, → afterWhole_le, List.length_pos_iff, List.isEmpty_iff]

end Json

end Conform
