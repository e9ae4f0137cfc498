import Conform.Binary64.Rounding
import Conform.Fields

/-!
# JSON values

The document type of the JSON format. Numbers come in two sorts: whole numbers
that fit into 64 bits, with or without a sign, are kept exactly; every other
number is a double. The two sorts are never equal, not even `1` and `1.0`.

Objects keep their members in order, but `Json.equal` compares them without
regard to it.
-/

namespace Conform

/-- A JSON number. -/
inductive Numeral where
  | integer (n : Int)
  | real (x : Binary64)
deriving DecidableEq

namespace Numeral

/-- The double nearest to a number. -/
def toBinary64 : Numeral → Binary64
  | integer n => Binary64.ofInt n
  | real x => x

/-- Equality of numbers of the same sort. -/
def equal : Numeral → Numeral → Bool
  | integer m, integer n => m == n
  | real x, real y => x.equal y
  | _, _ => false

end Numeral

/-- A JSON value. -/
inductive Json where
  | null
  | bool (b : Bool)
  | number (n : Numeral)
  | string (s : String)
  | array (items : List Json)
  | object (members : List (String × Json))

namespace Json

mutual

/-- Equality of JSON values; the order of an object's members does not count. -/
def equal : Json → Json → Bool
  | null, null => true
  | bool a, bool b => a == b
  | number m, number n => m.equal n
  | string s, string t => s == t
  | array xs, array ys => equalItems xs ys
  | object fs, object gs => fs.length == gs.length && equalMembers fs gs
  | _, _ => false

/-- Equality of two lists of values, in order. -/
def equalItems : List Json → List Json → Bool
  | [], [] => true
  | x :: xs, y :: ys => x.equal y && equalItems xs ys
  | _, _ => false

/-- Whether each of the first members has an equal one among the second. -/
def equalMembers : List (String × Json) → List (String × Json) → Bool
  | [], _ => true
  | (k, x) :: fs, gs =>
    (match gs.lookup k with
      | some y => x.equal y
      | none => false) && equalMembers fs gs

end

end Json

end Conform
