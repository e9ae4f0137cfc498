import Conform.Json.Fault

/-!
# Reading positions in JSON text

A cursor is the part of a text that is still to be read and the number of bytes
before it. Readers of the JSON grammar return a `Read`: what they read and a
cursor with strictly less text, which is why the loops over array elements and
object members come to an end.
-/

namespace Conform

namespace Json

/-- What is left of a text, and how many bytes come before it. -/
structure Cursor where
  rest : List Char
  offset : Nat

/-- Something read, and the cursor after it. -/
structure Read (α : Type) (start : Cursor) where
  value : α
  after : Cursor
  shorter : after.rest.length < start.rest.length

/-- What follows the first character of a text is shorter than any bound that the
text keeps to. -/
theorem length_lt_of_eq_cons {cs rest : List Char} {first : Char} {n : Nat}
    (h : cs = first :: rest) (hn : cs.length ≤ n) : rest.length < n := by
  subst h
  exact hn

/-- The same reading with another value. -/
def Read.withValue {α β : Type} {start : Cursor} (r : Read α start) (b : β) : Read β start :=
  ⟨b, r.after, r.shorter⟩

/-- The same reading, seen from a cursor with at least as much text. -/
def Read.startingAt {α : Type} {c : Cursor} (r : Read α c) (start : Cursor)
    (h : c.rest.length ≤ start.rest.length) : Read α start :=
  ⟨r.value, r.after, Nat.lt_of_lt_of_le r.shorter h⟩

namespace Cursor

/-- A problem with what has been read up to the cursor. -/
def fault (c : Cursor) (problem : Problem) : Fault :=
  ⟨problem, c.offset⟩

/-- A problem with the next byte, or with the end of the text. -/
def faultAhead (c : Cursor) (problem : Problem) : Fault :=
  ⟨problem, if c.rest.isEmpty then c.offset else c.offset + 1⟩

/-- Whether JSON allows a character between the parts of a document. -/
def isSpace (c : Char) : Bool :=
  c == ' ' || c == '\n' || c == '\t' || c == '\r'

/-- The cursor behind the spaces at this position. -/
def skipSpace (c : Cursor) : Cursor :=
  ⟨c.rest.dropWhile isSpace, c.offset + (c.rest.takeWhile isSpace).length⟩

/-- Skipping spaces adds no text. -/
theorem skipSpace_length_le (c : Cursor) : c.skipSpace.rest.length ≤ c.rest.length :=
  (List.dropWhile_sublist isSpace).length_le

/-- The number of bytes that are left. -/
def bytesLeft (c : Cursor) : Nat :=
  c.rest.foldr (fun char n => char.utf8Size + n) 0

end Cursor

end Json

end Conform
