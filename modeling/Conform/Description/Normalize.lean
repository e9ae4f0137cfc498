import Conform.SchemaError

/-!
# From descriptions to nodes

`Description.normalize` decides what every token means. Shorthand text is read
from the outside: a known name stands for itself; otherwise a leading `?` makes
what follows optional; otherwise a trailing `[]` makes an array of what precedes
it. Everything else is unknown, and the first unknown token ends the reading.
-/

namespace Conform

namespace Description

/-! ## Shorthand -/

/-- The node that a name stands for: a kind, or the wildcard. -/
def leaf? (name : String) : Option Node :=
  match Kind.ofName? name with
  | some k => some (.kind k)
  | none => if name = "any" then some .any else none

/-- What precedes a trailing pair of brackets. -/
def stripBrackets? (cs : List Char) : Option (List Char) :=
  match cs.reverse with
  | ']' :: '[' :: rest => some rest.reverse
  | _ => none

/-- Brackets are stripped exactly from texts that end with them. -/
theorem stripBrackets?_eq_some_iff {cs rest : List Char} :
    stripBrackets? cs = some rest ↔ cs = rest ++ ['[', ']'] := by
  constructor
  · intro h
    unfold stripBrackets? at h
    split at h
    · next r hr =>
      have hcs : cs = (']' :: '[' :: r).reverse := by rw [← hr, List.reverse_reverse]
      have hrest : r.reverse = rest := by simpa using h
      rw [hcs, ← hrest]
      simp
    · simp at h
  · rintro rfl
    simp [stripBrackets?]

/-- The node that a shorthand text stands for, read at the position `p`. -/
def ofShorthand (p : Path) (cs : List Char) : Except UnknownToken Node :=
  match leaf? (String.ofList cs) with
  | some n => .ok n
  | none =>
    match cs with
    | '?' :: rest => (ofShorthand p rest).map .optional
    | cs =>
      match h : stripBrackets? cs with
      | some rest =>
        have _hlt : rest.length < cs.length := by
          rw [stripBrackets?_eq_some_iff.mp h]
          simp
        (ofShorthand p.each rest).map .arrayOf
      | none => .error ⟨.text (String.ofList cs), p⟩
termination_by cs.length

/-! ## Descriptions -/

mutual

/-- The node that a description stands for, read at the position `p`. -/
def normalize (p : Path) : Description → Except UnknownToken Node
  | marker k => .ok (.kind k)
  | any => .ok .any
  | text s => ofShorthand p s.toList
  | optional inner => (inner.normalize p).map .optional
  | list [element] => (element.normalize p.each).map .arrayOf
  | list items => .error ⟨list items, p⟩
  | shape fields => (normalizeFields p fields).map .shape
  | schema root => .ok (.ref root)
  | other value => .error ⟨other value, p⟩

/-- The nodes of a shape's fields, in order. -/
def normalizeFields (p : Path) :
    List (String × Description) → Except UnknownToken (List (String × Node))
  | [] => .ok []
  | (k, d) :: fields => do
    let n ← d.normalize (p.key k)
    let rest ← normalizeFields p fields
    return (k, n) :: rest

end

end Description

end Conform
