import Conform.Fields
import Conform.Kind

/-!
# Schema nodes

A schema is a tree of nodes. A node either tests a value by itself (`kind`,
`arrayOf`, `shape`), or says more about the node below it (`optional`, `ref`),
or accepts everything (`any`).

A `ref` embeds a schema that was compiled before. It is kept apart in the tree
but has no meaning of its own: `erase` removes all references, and `resolved`
those at the top.

`Node.induct` is the induction principle over all of a shape's fields; it is the
default one for `induction`.
-/

namespace Conform

/-- A schema. -/
inductive Node where
  /-- a value of a primitive kind -/
  | kind (k : Kind)
  /-- any value, also none -/
  | any
  /-- no value, null, or what `inner` accepts -/
  | optional (inner : Node)
  /-- an array whose elements `element` accepts -/
  | arrayOf (element : Node)
  /-- an object with these fields, and perhaps others -/
  | shape (fields : List (String × Node))
  /-- an embedded schema -/
  | ref (root : Node)

namespace Node

/-- Induction on nodes: for a shape the statement may be assumed of every field. -/
@[elab_as_elim, induction_eliminator]
theorem induct {motive : Node → Prop}
    (kind : ∀ k, motive (kind k))
    (any : motive any)
    (optional : ∀ inner, motive inner → motive (optional inner))
    (arrayOf : ∀ element, motive element → motive (arrayOf element))
    (shape : ∀ fields : List (String × Node), (∀ e ∈ fields, motive e.2) → motive (shape fields))
    (ref : ∀ root, motive root → motive (ref root))
    (n : Node) : motive n :=
  @Node.rec motive (fun fields => ∀ e ∈ fields, motive e.2) (fun e => motive e.2)
    kind any optional arrayOf shape ref
    (fun _ h => absurd h List.not_mem_nil)
    (fun _ _ hhead htail e he => by
      rcases List.mem_cons.mp he with h | h
      · exact h ▸ hhead
      · exact htail e h)
    (fun _ _ h => h) n

/-- The shape with these fields; a repeated key keeps its first place and its
last node. -/
def object (fields : List (String × Node)) : Node :=
  shape (Fields.ofPairs fields)

/-! ## References -/

/-- The node below the references at the top. -/
def resolved : Node → Node
  | ref root => root.resolved
  | n => n

/-- A resolved node is no reference. -/
theorem resolved_ne_ref (n root : Node) : n.resolved ≠ ref root := by
  induction n with
  | ref _ ih => simpa [resolved] using ih
  | _ => simp [resolved]

/-- Whether a schema is optional, perhaps behind references. -/
def isOptional (n : Node) : Bool :=
  match n.resolved with
  | optional _ => true
  | _ => false

@[simp] theorem isOptional_ref (root : Node) : (ref root).isOptional = root.isOptional := by
  simp [isOptional, resolved]

mutual

/-- A schema without its references: each is replaced by what it embeds. -/
def erase : Node → Node
  | kind k => kind k
  | any => any
  | optional inner => optional inner.erase
  | arrayOf element => arrayOf element.erase
  | shape fields => shape (eraseFields fields)
  | ref root => root.erase

/-- Fields without references. -/
def eraseFields : List (String × Node) → List (String × Node)
  | [] => []
  | (k, n) :: fields => (k, n.erase) :: eraseFields fields

end

/-- References are erased field by field. -/
theorem eraseFields_eq_map (fields : List (String × Node)) :
    eraseFields fields = fields.map fun e => (e.1, e.2.erase) := by
  induction fields with
  | nil => rfl
  | cons e fields ih => simp [eraseFields, ih]

/-! ## Equality up to the order of fields -/

mutual

/-- Equality of schemas: the order of a shape's fields does not count, and a
reference equals only references. -/
def equal : Node → Node → Bool
  | kind j, kind k => j == k
  | any, any => true
  | optional m, optional n => m.equal n
  | arrayOf m, arrayOf n => m.equal n
  | shape fs, shape gs => fs.length == gs.length && equalFields fs gs
  | ref m, ref n => m.equal n
  | _, _ => false

/-- Whether each of the first fields has an equal one among the second. -/
def equalFields : List (String × Node) → List (String × Node) → Bool
  | [], _ => true
  | (k, m) :: fs, gs =>
    (match gs.lookup k with
      | some n => m.equal n
      | none => false) && equalFields fs gs

end

end Node

end Conform
