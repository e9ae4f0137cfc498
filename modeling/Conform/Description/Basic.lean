import Conform.Json.Basic
import Conform.Node.Basic

/-!
# Schema descriptions

Schemas as users write them: kinds, shorthand text such as `?string` and
`number[]`, one-element lists, maps from keys to descriptions, and schemas that
were compiled before. A description can also hold what is no schema at all (a
number, a list of two elements); turning it into a node is what finds that out.

Descriptions can be written as JSON; `ofJson` says how the document is read.

`Description.induct` is the induction principle over all items of a list and all
fields of a shape; it is the default one for `induction`.
-/

namespace Conform

/-- A schema as users write it. -/
inductive Description where
  /-- a primitive kind, as a value -/
  | marker (k : Kind)
  /-- the wildcard, as a value -/
  | any
  /-- shorthand text -/
  | text (s : String)
  /-- a description made optional -/
  | optional (inner : Description)
  /-- a list; only a list of one element describes arrays -/
  | list (items : List Description)
  /-- an object shape -/
  | shape (fields : List (String × Description))
  /-- the root of a compiled schema -/
  | schema (root : Node)
  /-- any other JSON value, which describes no schema -/
  | other (value : Json)

namespace Description

/-- Induction on descriptions: for a list the statement may be assumed of every item,
for a shape of every field. -/
@[elab_as_elim, induction_eliminator]
theorem induct {motive : Description → Prop}
    (marker : ∀ k, motive (marker k))
    (any : motive any)
    (text : ∀ s, motive (text s))
    (optional : ∀ inner, motive inner → motive (optional inner))
    (list : ∀ items : List Description, (∀ d ∈ items, motive d) → motive (list items))
    (shape : ∀ fields : List (String × Description), (∀ e ∈ fields, motive e.2) →
      motive (shape fields))
    (schema : ∀ root, motive (schema root))
    (other : ∀ value, motive (other value))
    (d : Description) : motive d :=
  @Description.rec motive (fun items => ∀ d ∈ items, motive d)
    (fun fields => ∀ e ∈ fields, motive e.2) (fun e => motive e.2)
    marker any text optional list shape schema other
    (fun _ h => absurd h List.not_mem_nil)
    (fun _ _ hhead htail d hd => by
      rcases List.mem_cons.mp hd with h | h
      · exact h ▸ hhead
      · exact htail d h)
    (fun _ h => absurd h List.not_mem_nil)
    (fun _ _ hhead htail e he => by
      rcases List.mem_cons.mp he with h | h
      · exact h ▸ hhead
      · exact htail e h)
    (fun _ _ h => h) d

/-- An array of what `element` describes. -/
def arrayOf (element : Description) : Description :=
  list [element]

/-- The shape with these fields; a repeated key keeps its first place and its
last description. -/
def object (fields : List (String × Description)) : Description :=
  shape (Fields.ofPairs fields)

/-! ## Descriptions in JSON -/

mutual

/-- The description that a JSON document spells: strings are shorthand text,
arrays lists, objects shapes. -/
def ofJson : Json → Description
  | .string s => text s
  | .array items => list (ofJsonItems items)
  | .object members => shape (ofJsonMembers members)
  | .null => other .null
  | .bool b => other (.bool b)
  | .number n => other (.number n)

/-- The descriptions of an array's items. -/
def ofJsonItems : List Json → List Description
  | [] => []
  | j :: items => ofJson j :: ofJsonItems items

/-- The descriptions of an object's members. -/
def ofJsonMembers : List (String × Json) → List (String × Description)
  | [] => []
  | (k, j) :: members => (k, ofJson j) :: ofJsonMembers members

end

/-! ## Equality up to the order of fields -/

mutual

/-- Equality of descriptions; the order of fields does not count. -/
def equal : Description → Description → Bool
  | marker j, marker k => j == k
  | any, any => true
  | text s, text t => s == t
  | optional d, optional e => d.equal e
  | list ds, list es => equalItems ds es
  | shape fs, shape gs => fs.length == gs.length && equalFields fs gs
  | schema m, schema n => m.equal n
  | other j, other k => j.equal k
  | _, _ => false

/-- Equality of two lists of descriptions, in order. -/
def equalItems : List Description → List Description → Bool
  | [], [] => true
  | d :: ds, e :: es => d.equal e && equalItems ds es
  | _, _ => false

/-- Whether each of the first fields has an equal one among the second. -/
def equalFields : List (String × Description) → List (String × Description) → Bool
  | [], _ => true
  | (k, d) :: fs, gs =>
    (match gs.lookup k with
      | some e => d.equal e
      | none => false) && equalFields fs gs

end

end Description

end Conform
