/-!
# Faults in JSON text

What can be wrong with a JSON text, and where. A fault is placed at a byte
offset; its message gives the line, counted from one, and the column, the
distance in bytes from the start of that line.
-/

namespace Conform

namespace Json

/-- What is wrong with a JSON text. -/
inductive Problem where
  | endInValue
  | endInArray
  | endInObject
  | endInString
  | expectedColon
  | expectedArrayCommaOrEnd
  | expectedObjectCommaOrEnd
  | expectedWord
  | expectedValue
  | invalidEscape
  | invalidNumber
  | numberOutOfRange
  | controlCharacter
  | keyNotString
  | loneSurrogate
  | unexpectedEndOfHexEscape
  | trailingComma
  | trailingCharacters
  | tooDeep
deriving DecidableEq

/-- The wording of a problem. -/
def Problem.text : Problem → String
  | endInValue => "EOF while parsing a value"
  | endInArray => "EOF while parsing a list"
  | endInObject => "EOF while parsing an object"
  | endInString => "EOF while parsing a string"
  | expectedColon => "expected `:`"
  | expectedArrayCommaOrEnd => "expected `,` or `]`"
  | expectedObjectCommaOrEnd => "expected `,` or `\x7d`"
  | expectedWord => "expected ident"
  | expectedValue => "expected value"
  | invalidEscape => "invalid escape"
  | invalidNumber => "invalid number"
  | numberOutOfRange => "number out of range"
  | controlCharacter => "control character (\\u0000-\\u001F) found while parsing a string"
  | keyNotString => "key must be a string"
  | loneSurrogate => "lone leading surrogate in hex escape"
  | unexpectedEndOfHexEscape => "unexpected end of hex escape"
  | trailingComma => "trailing comma"
  | trailingCharacters => "trailing characters"
  | tooDeep => "recursion limit exceeded"

/-- A problem and the byte offset at which it was noticed. -/
structure Fault where
  problem : Problem
  offset : Nat
deriving DecidableEq

/-- A place in a text: line and column. -/
structure Place where
  line : Nat := 1
  column : Nat := 0
deriving DecidableEq

/-- The place that lies `bytes` bytes further on. A line break within these
bytes starts a new line; a character counts as many columns as it has bytes. -/
def Place.advance (p : Place) : List Char → Nat → Place
  | _, 0 => p
  | [], bytes => { p with column := p.column + bytes }
  | c :: cs, bytes + 1 =>
    if c = '\n' then Place.advance ⟨p.line + 1, 0⟩ cs bytes
    else if bytes + 1 < c.utf8Size then { p with column := p.column + (bytes + 1) }
    else Place.advance { p with column := p.column + c.utf8Size } cs (bytes + 1 - c.utf8Size)

/-- The message of a fault in the given text. -/
def Fault.message (f : Fault) (text : String) : String :=
  let p := Place.advance {} text.toList f.offset
  f.problem.text ++ " at line " ++ toString p.line ++ " column " ++ toString p.column

end Json

end Conform
