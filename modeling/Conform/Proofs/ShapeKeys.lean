import Conform.Node.Basic

/-!
# What holds of the keys of every shape

A node is a tree of plain data, and nothing in its type restricts the keys of its shapes.
`Node.KeysHold` says of a schema what its theorems assume of them: that a property holds of
the keys of every shape, at any depth and behind references.
-/

namespace Conform

namespace Node

mutual

/-- Whether `P` holds of the keys of every shape in a schema. -/
def KeysHold (P : List String → Prop) : Node → Prop
  | kind _ => True
  | any => True
  | optional inner => inner.KeysHold P
  | arrayOf element => element.KeysHold P
  | shape fields => P (Fields.keys fields) ∧ FieldKeysHold P fields
  | ref root => root.KeysHold P

/-- Whether `P` holds of the keys of every shape in one of the fields. -/
def FieldKeysHold (P : List String → Prop) : List (String × Node) → Prop
  | [] => True
  | (_, n) :: fields => n.KeysHold P ∧ FieldKeysHold P fields

end

/-- What holds in all fields holds in each of them. -/
theorem fieldKeysHold_iff {P : List String → Prop} {fields : List (String × Node)} :
    FieldKeysHold P fields ↔ ∀ e ∈ fields, e.2.KeysHold P := by
  induction fields with
  | nil => simp [FieldKeysHold]
  | cons e fields ih =>
    obtain ⟨k, n⟩ := e
    simp [FieldKeysHold, ih]

/-- A shape has its own keys, and those of its fields. -/
theorem keysHold_shape_iff {P : List String → Prop} {fields : List (String × Node)} :
    (shape fields).KeysHold P ↔
      P (Fields.keys fields) ∧ ∀ e ∈ fields, e.2.KeysHold P := by
  rw [KeysHold, fieldKeysHold_iff]

end Node

end Conform
