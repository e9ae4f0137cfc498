import Conform.Binary64.Basic
import Conform.Instant
import Conform.Json.Basic
import Conform.Kind

/-!
# Values

What schemas are checked against: JSON values, all of whose numbers are doubles,
and beside them dates. There is no value for absence; where a value may be
missing, an optional value stands.

Objects keep their fields in order, but `Value.equal` compares them without
regard to it. Only objects have fields: arrays and dates count as objects where
a schema asks for one, but every field of theirs is missing.
-/

namespace Conform

/-- A value. -/
inductive Value where
  | null
  | bool (b : Bool)
  | number (x : Binary64)
  | string (s : String)
  | array (items : List Value)
  | object (fields : List (String × Value))
  | date (t : Instant)

namespace Value

/-! ## Parts and properties -/

/-- Whether a value is null. -/
def isNull : Value → Bool
  | null => true
  | _ => false

/-- Whether a value is a number, NaN and the infinities included. -/
def isNumber : Value → Bool
  | number _ => true
  | _ => false

/-- Whether a value is text. -/
def isString : Value → Bool
  | string _ => true
  | _ => false

/-- Whether a value is a truth value. -/
def isBoolean : Value → Bool
  | bool _ => true
  | _ => false

/-- Whether a value is an array. -/
def isArray : Value → Bool
  | array _ => true
  | _ => false

/-- Whether a value is a date; text that could be read as one is not. -/
def isDate : Value → Bool
  | date _ => true
  | _ => false

/-- Whether a value counts as an object: objects, arrays and dates do. -/
def isObjectLike : Value → Bool
  | object _ => true
  | array _ => true
  | date _ => true
  | _ => false

/-- The elements of an array. -/
def items? : Value → Option (List Value)
  | array items => some items
  | _ => none

/-- The fields of an object. -/
def fields? : Value → Option (List (String × Value))
  | object fields => some fields
  | _ => none

/-- The field `key` of an object. -/
def get? (v : Value) (key : String) : Option Value :=
  v.fields?.bind (·.lookup key)

/-- The name of a value's own kind. -/
def kindName : Value → String
  | null => "null"
  | bool _ => "boolean"
  | number _ => "number"
  | string _ => "string"
  | array _ => "array"
  | object _ => "object"
  | date _ => "date"

/-- Whether a value is of a kind. A date is what is a date already; text that
could be read as a date is none. -/
def hasKind (v : Value) : Kind → Bool
  | .number => v.isNumber
  | .string => v.isString
  | .boolean => v.isBoolean
  | .array => v.isArray
  | .object => v.isObjectLike
  | .date => v.isDate

/-- The object with these fields; a repeated key keeps its first place and its
last value. -/
def ofPairs (fields : List (String × Value)) : Value :=
  object (Fields.ofPairs fields)

/-! ## Values of JSON documents -/

mutual

/-- The value of a JSON document. -/
def ofJson : Json → Value
  | .null => null
  | .bool b => bool b
  | .number n => number n.toBinary64
  | .string s => string s
  | .array items => array (ofJsonItems items)
  | .object members => object (ofJsonMembers members)

/-- The values of an array's items. -/
def ofJsonItems : List Json → List Value
  | [] => []
  | j :: items => ofJson j :: ofJsonItems items

/-- The values of an object's members. -/
def ofJsonMembers : List (String × Json) → List (String × Value)
  | [] => []
  | (k, j) :: members => (k, ofJson j) :: ofJsonMembers members

end

/-! ## Equality up to the order of fields -/

mutual

/-- Equality of values: numbers compare as numbers, and the order of fields does
not count. -/
def equal : Value → Value → Bool
  | null, null => true
  | bool a, bool b => a == b
  | number x, number y => x.equal y
  | string s, string t => s == t
  | array xs, array ys => equalItems xs ys
  | object fs, object gs => fs.length == gs.length && equalFields fs gs
  | date s, date t => s == t
  | _, _ => false

/-- Equality of two lists of values, in order. -/
def equalItems : List Value → List Value → Bool
  | [], [] => true
  | x :: xs, y :: ys => x.equal y && equalItems xs ys
  | _, _ => false

/-- Whether each of the first fields has an equal one among the second. -/
def equalFields : List (String × Value) → List (String × Value) → Bool
  | [], _ => true
  | (k, x) :: fs, gs =>
    (match gs.lookup k with
      | some y => x.equal y
      | none => false) && equalFields fs gs

end

end Value

end Conform
