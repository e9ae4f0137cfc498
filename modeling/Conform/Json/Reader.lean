import Conform.Json.NumeralReader
import Conform.Json.StringReader

/-!
# Reading JSON text

Strict JSON: one value, spaces around it, and nothing else. Arrays and objects
may be nested up to 127 deep. A key that occurs twice in an object keeps its
first place and its last value.
-/

namespace Conform

namespace Json

/-- The rest of a word, letter by letter. -/
def readLetters (start : Cursor) (value : Json) : (letters : List Char) → (c : Cursor) →
    c.rest.length < start.rest.length → Except Fault (Read Json start)
  | [], c, h => .ok ⟨value, c, h⟩
  | letter :: letters, c, h =>
    match hc : c.rest with
    | [] => .error (c.fault .endInValue)
    | d :: rest =>
      if d = letter then
        readLetters start value letters ⟨rest, c.offset + 1⟩
          (length_lt_of_eq_cons hc (Nat.le_of_lt h))
      else .error ⟨.expectedWord, c.offset + 1⟩

/-- A number, behind its minus sign if it has one. -/
def readNumeral (negative : Bool) (c : Cursor) : Except Fault (Read Json c) :=
  match h : readNumber negative c with
  | .ok (n, after) => .ok ⟨.number n, after, readNumber_lt h⟩
  | .error fault => .error fault

/-- How the value of a nested element or member is read. -/
abbrev ValueReader : Type := (c : Cursor) → Except Fault (Read Json c)

/-! ## Arrays -/

/-- The elements of an array, the next of which starts here; those before it are
given in reverse. -/
def readElements (readValue : ValueReader) (before : List Json) (c : Cursor) :
    Except Fault (Read (List Json) c) := do
  let item ← readValue c
  let next := item.after.skipSpace
  have hnext : next.rest.length < c.rest.length :=
    Nat.lt_of_le_of_lt (Cursor.skipSpace_length_le _) item.shorter
  match hr : next.rest with
  | [] => throw (next.faultAhead .endInArray)
  | ']' :: rest =>
    return ⟨(item.value :: before).reverse, ⟨rest, next.offset + 1⟩,
      length_lt_of_eq_cons hr (Nat.le_of_lt hnext)⟩
  | ',' :: rest =>
    let comma : Cursor := ⟨rest, next.offset + 1⟩
    let start := comma.skipSpace
    have hstart : start.rest.length < c.rest.length :=
      Nat.lt_of_le_of_lt (Cursor.skipSpace_length_le comma)
        (length_lt_of_eq_cons hr (Nat.le_of_lt hnext))
    match start.rest with
    | [] => throw (start.faultAhead .endInValue)
    | ']' :: _ => throw (start.faultAhead .trailingComma)
    | _ =>
      let items ← readElements readValue (item.value :: before) start
      return items.startingAt c (Nat.le_of_lt hstart)
  | _ => throw (next.faultAhead .expectedArrayCommaOrEnd)
termination_by c.rest.length

/-- An array, behind its opening bracket. -/
def readArray (readValue : ValueReader) (c : Cursor) : Except Fault (Read Json c) := do
  let start := c.skipSpace
  have hstart : start.rest.length ≤ c.rest.length := Cursor.skipSpace_length_le c
  match hr : start.rest with
  | [] => throw (start.faultAhead .endInArray)
  | ']' :: rest =>
    return ⟨.array [], ⟨rest, start.offset + 1⟩, length_lt_of_eq_cons hr hstart⟩
  | _ =>
    let items ← readElements readValue [] start
    return (items.withValue (.array items.value)).startingAt c hstart

/-! ## Objects -/

/-- The members of an object, the key of the next of which starts here, behind
its quote; those before it are given in reverse. -/
def readMembers (readValue : ValueReader) (before : List (String × Json)) (c : Cursor) :
    Except Fault (Read (List (String × Json)) c) := do
  let key ← readString [] c
  let colon := key.after.skipSpace
  have hcolon : colon.rest.length < c.rest.length :=
    Nat.lt_of_le_of_lt (Cursor.skipSpace_length_le _) key.shorter
  match hk : colon.rest with
  | [] => throw (colon.faultAhead .endInObject)
  | ':' :: afterColon =>
    let value ← readValue ⟨afterColon, colon.offset + 1⟩
    let next := value.after.skipSpace
    have hnext : next.rest.length < c.rest.length :=
      calc next.rest.length
          ≤ value.after.rest.length := Cursor.skipSpace_length_le _
        _ < afterColon.length := value.shorter
        _ < c.rest.length := length_lt_of_eq_cons hk (Nat.le_of_lt hcolon)
    match hr : next.rest with
    | [] => throw (next.faultAhead .endInObject)
    | '}' :: rest =>
      return ⟨((key.value, value.value) :: before).reverse, ⟨rest, next.offset + 1⟩,
        length_lt_of_eq_cons hr (Nat.le_of_lt hnext)⟩
    | ',' :: rest =>
      let comma : Cursor := ⟨rest, next.offset + 1⟩
      let start := comma.skipSpace
      have hstart : start.rest.length < c.rest.length :=
        Nat.lt_of_le_of_lt (Cursor.skipSpace_length_le comma)
          (length_lt_of_eq_cons hr (Nat.le_of_lt hnext))
      match hs : start.rest with
      | [] => throw (start.faultAhead .endInValue)
      | '}' :: _ => throw (start.faultAhead .trailingComma)
      | '"' :: rest' =>
        have hrest : rest'.length < c.rest.length :=
          length_lt_of_eq_cons hs (Nat.le_of_lt hstart)
        let members ← readMembers readValue ((key.value, value.value) :: before)
          ⟨rest', start.offset + 1⟩
        return members.startingAt c (Nat.le_of_lt hrest)
      | _ => throw (start.faultAhead .keyNotString)
    | _ => throw (next.faultAhead .expectedObjectCommaOrEnd)
  | _ => throw (colon.faultAhead .expectedColon)
termination_by c.rest.length

/-- An object, behind its opening brace. -/
def readObject (readValue : ValueReader) (c : Cursor) : Except Fault (Read Json c) := do
  let start := c.skipSpace
  have hstart : start.rest.length ≤ c.rest.length := Cursor.skipSpace_length_le c
  match hr : start.rest with
  | [] => throw (start.faultAhead .endInObject)
  | '}' :: rest =>
    return ⟨.object [], ⟨rest, start.offset + 1⟩, length_lt_of_eq_cons hr hstart⟩
  | '"' :: rest =>
    let members ← readMembers readValue [] ⟨rest, start.offset + 1⟩
    return (members.withValue (.object (Fields.ofPairs members.value))).startingAt c
      (Nat.le_of_lt (length_lt_of_eq_cons hr hstart))
  | _ => throw (start.faultAhead .keyNotString)

/-! ## Values -/

/-- A value after spaces; what is nested in it is read by `inner`, which is
missing where nothing more may be nested. -/
def readValueWith (inner : Option ValueReader) : ValueReader := fun c => do
  let start := c.skipSpace
  have hstart : start.rest.length ≤ c.rest.length := Cursor.skipSpace_length_le c
  match hr : start.rest with
  | [] => throw (start.faultAhead .endInValue)
  | first :: rest =>
    let behind : Cursor := ⟨rest, start.offset + 1⟩
    have hlt : behind.rest.length < c.rest.length := length_lt_of_eq_cons hr hstart
    have hle : behind.rest.length ≤ c.rest.length := Nat.le_of_lt hlt
    match first with
    | 'n' => readLetters c .null ['u', 'l', 'l'] behind hlt
    | 't' => readLetters c (.bool true) ['r', 'u', 'e'] behind hlt
    | 'f' => readLetters c (.bool false) ['a', 'l', 's', 'e'] behind hlt
    | '"' =>
      let s ← readString [] behind
      return (s.withValue (.string s.value)).startingAt c hle
    | '-' =>
      let n ← readNumeral true behind
      return n.startingAt c hle
    | '[' =>
      match inner with
      | none => throw (start.faultAhead .tooDeep)
      | some readValue =>
        let items ← readArray readValue behind
        return items.startingAt c hle
    | '{' =>
      match inner with
      | none => throw (start.faultAhead .tooDeep)
      | some readValue =>
        let members ← readObject readValue behind
        return members.startingAt c hle
    | _ =>
      if first.isDigit then
        let n ← readNumeral false start
        return n.startingAt c hstart
      else throw (start.faultAhead .expectedValue)

/-- A value in which arrays and objects are nested at most `depth` deep. -/
def readValue : (depth : Nat) → ValueReader
  | 0 => readValueWith none
  | depth + 1 => readValueWith (some (readValue depth))

/-- How deep arrays and objects may be nested. -/
def maxDepth : Nat := 127

/-- The value that a JSON text denotes. -/
def ofText (text : String) : Except Fault Json := do
  let value ← readValue maxDepth ⟨text.toList, 0⟩
  let last := value.after.skipSpace
  if last.rest.isEmpty then return value.value
  else throw (last.faultAhead .trailingCharacters)

end Json

end Conform
