import Conform.Json.Cursor

/-!
# Strings in JSON text

The part of a string behind its opening quote. Escapes with four hexadecimal
digits denote UTF-16 units, so a character beyond U+FFFF takes two of them, a
leading and a trailing surrogate; neither may stand alone.
-/

namespace Conform

namespace Json

/-- The value of a hexadecimal digit of either case. -/
def hexValue? (c : Char) : Option Nat :=
  if '0' ≤ c ∧ c ≤ '9' then some (c.toNat - '0'.toNat)
  else if 'a' ≤ c ∧ c ≤ 'f' then some (c.toNat - 'a'.toNat + 10)
  else if 'A' ≤ c ∧ c ≤ 'F' then some (c.toNat - 'A'.toNat + 10)
  else none

/-- The value of four hexadecimal digits. -/
def hexValue4? (a b c d : Char) : Option Nat := do
  let a ← hexValue? a
  let b ← hexValue? b
  let c ← hexValue? c
  let d ← hexValue? d
  return ((a * 16 + b) * 16 + c) * 16 + d

/-- The fault where four hexadecimal digits should stand. -/
def hexFault (c : Cursor) : Fault :=
  if c.bytesLeft < 4 then ⟨.endInString, c.offset + c.bytesLeft⟩
  else ⟨.invalidEscape, c.offset + 4⟩

/-- The four hexadecimal digits of an escape. -/
def readHex (c : Cursor) : Except Fault (Read Nat c) :=
  match h : c.rest with
  | d₁ :: d₂ :: d₃ :: d₄ :: rest =>
    match hexValue4? d₁ d₂ d₃ d₄ with
    | some n => .ok ⟨n, ⟨rest, c.offset + 4⟩, by simp [h]; omega⟩
    | none => .error (hexFault c)
  | _ => .error (hexFault c)

/-- Whether a UTF-16 unit is the first of a pair. -/
def isLeadingSurrogate (n : Nat) : Bool :=
  0xd800 ≤ n && n ≤ 0xdbff

/-- Whether a UTF-16 unit is the second of a pair. -/
def isTrailingSurrogate (n : Nat) : Bool :=
  0xdc00 ≤ n && n ≤ 0xdfff

/-- The character that a pair of UTF-16 units denotes. -/
def ofSurrogates (leading trailing : Nat) : Char :=
  Char.ofNat ((leading - 0xd800) * 0x400 + (trailing - 0xdc00) + 0x10000)

/-- The second unit of a pair, which has to be an escape as well. -/
def readTrailing (leading : Nat) (c : Cursor) : Except Fault (Read Char c) :=
  match h : c.rest with
  | [] => .error (c.fault .endInString)
  | '\\' :: [] => .error ⟨.endInString, c.offset + 1⟩
  | '\\' :: 'u' :: rest => do
    let unit ← readHex ⟨rest, c.offset + 2⟩
    if isTrailingSurrogate unit.value then
      return (unit.withValue (ofSurrogates leading unit.value)).startingAt c (by simp [h]; omega)
    else
      throw (unit.after.fault .loneSurrogate)
  | '\\' :: _ => .error ⟨.unexpectedEndOfHexEscape, c.offset + 2⟩
  | _ :: _ => .error ⟨.unexpectedEndOfHexEscape, c.offset + 1⟩

/-- The character of an escape by number, behind its letter `u`. -/
def readUnicode (c : Cursor) : Except Fault (Read Char c) := do
  let unit ← readHex c
  if isTrailingSurrogate unit.value then
    throw (unit.after.fault .loneSurrogate)
  else if isLeadingSurrogate unit.value then
    let char ← readTrailing unit.value unit.after
    return char.startingAt c (Nat.le_of_lt unit.shorter)
  else
    return unit.withValue (Char.ofNat unit.value)

/-- The character that an escape letter stands for. -/
def escapedChar? : Char → Option Char
  | '"' => some '"'
  | '\\' => some '\\'
  | '/' => some '/'
  | 'b' => some '\x08'
  | 'f' => some '\x0c'
  | 'n' => some '\n'
  | 'r' => some '\r'
  | 't' => some '\t'
  | _ => none

/-- The character of an escape, behind its backslash. -/
def readEscape (c : Cursor) : Except Fault (Read Char c) :=
  match h : c.rest with
  | [] => .error (c.fault .endInString)
  | 'u' :: rest => do
    let char ← readUnicode ⟨rest, c.offset + 1⟩
    return char.startingAt c (by simp [h])
  | letter :: rest =>
    match escapedChar? letter with
    | some char => .ok ⟨char, ⟨rest, c.offset + 1⟩, by simp [h]⟩
    | none => .error ⟨.invalidEscape, c.offset + 1⟩

/-- The rest of a string up to its closing quote; the characters before it are
given in reverse. -/
def readString (before : List Char) (c : Cursor) : Except Fault (Read String c) :=
  match h : c.rest with
  | [] => .error (c.fault .endInString)
  | '"' :: rest => .ok ⟨String.ofList before.reverse, ⟨rest, c.offset + 1⟩, by simp [h]⟩
  | '\\' :: rest => do
    let char ← readEscape ⟨rest, c.offset + 1⟩
    have hlt : char.after.rest.length < c.rest.length :=
      Nat.lt_trans char.shorter (length_lt_of_eq_cons h (Nat.le_refl _))
    let s ← readString (char.value :: before) char.after
    return s.startingAt c (Nat.le_of_lt hlt)
  | char :: rest =>
    if char.toNat < 0x20 then .error ⟨.controlCharacter, c.offset + 1⟩
    else do
      have hlt : rest.length < c.rest.length := length_lt_of_eq_cons h (Nat.le_refl _)
      let s ← readString (char :: before) ⟨rest, c.offset + char.utf8Size⟩
      return s.startingAt c (Nat.le_of_lt hlt)
termination_by c.rest.length

end Json

end Conform
