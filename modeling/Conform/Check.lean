import Conform.Mismatch
import Conform.Node.Basic
import Conform.Value

/-!
# Checking a value against a schema

`Node.check` walks a schema and a value side by side, the value perhaps being
absent. It does two things that its surroundings may answer: it asks for the
reading of a value as a date, and it reports mismatches. What happens then is up
to `Options`, in a monad of the caller's choice: a monad with errors can stop at
a mismatch, one with a state can collect mismatches and go on.

A value is tested before its parts: of an array or object that is none, only
that is reported, and its elements or fields are not looked at. Fields are
checked in the order in which the schema declares them, elements in their own.
-/

namespace Conform

/-- How a check reads dates, and what it does about a mismatch. -/
structure Options (m : Type → Type) where
  /-- the time that a value denotes, in milliseconds; `none` if it is no date -/
  readDate : Value → m (Option Binary64)
  /-- called at every mismatch; the check goes on where this returns -/
  report : Mismatch → m Unit

variable {m : Type → Type} [Monad m]

/-- Check a value that should be of the kind `k`. A date may also be anything
that reads as one. -/
def Options.checkKind (o : Options m) (p : Path) (k : Kind) (x : Option Value) : m Unit :=
  match x with
  | none => o.report (.ofKind p k)
  | some v =>
    if v.hasKind k then pure ()
    else if k = .date then do
      match ← o.readDate v with
      | some _ => pure ()
      | none => o.report (.ofKind p k)
    else o.report (.ofKind p k)

namespace Node

mutual

/-- Check a possibly absent value that stands at the position `p`. -/
def check (o : Options m) (p : Path) : Node → Option Value → m Unit
  | kind k, x => o.checkKind p k x
  | any, _ => pure ()
  | optional inner, x =>
    match x with
    | none => pure ()
    | some .null => pure ()
    | some v => inner.check o p (some v)
  | arrayOf element, x =>
    match x.bind Value.items? with
    | some items => items.forM fun v => element.check o p.each (some v)
    | none => o.report (.ofKind p .array)
  | shape fields, x =>
    match x.filter Value.isObjectLike with
    | some v => checkFields o p v fields
    | none => o.report (.ofKind p .object)
  | ref root, x => root.check o p x

/-- Check the declared fields of an object, one after the other. -/
def checkFields (o : Options m) (p : Path) (v : Value) : List (String × Node) → m Unit
  | [] => pure ()
  | (k, n) :: fields => do
    n.check o (p.key k) (v.get? k)
    checkFields o p v fields

end

end Node

end Conform
