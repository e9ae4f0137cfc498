import Conform.Node.Basic

/-!
# The text of a schema

Schemas are written in the shorthand that descriptions use: `number`,
`?string`, `date[]`, `{ id: number, tags: string[] }`. Since `?x[]` is an
optional array, an array of optional elements takes brackets: `[?x]`.
References do not show.
-/

namespace Conform

namespace Node

mutual

/-- The text of a schema. -/
def render : Node → String
  | kind k => k.name
  | any => "any"
  | optional inner => "?" ++ inner.render
  | arrayOf element =>
    if element.isOptional then "[" ++ element.render ++ "]" else element.render ++ "[]"
  | shape [] => "\x7b\x7d"
  | shape (e :: fields) => "\x7b " ++ renderFields (e :: fields) ++ " \x7d"
  | ref root => root.render

/-- The texts of fields, separated by commas. -/
def renderFields : List (String × Node) → String
  | [] => ""
  | [(k, n)] => k ++ ": " ++ n.render
  | (k, n) :: e :: fields => k ++ ": " ++ n.render ++ ", " ++ renderFields (e :: fields)

end

instance : ToString Node := ⟨render⟩

/-- The text of a list of fields is the texts of the fields, joined. -/
theorem renderFields_eq_intercalate (fields : List (String × Node)) :
    renderFields fields =
      String.intercalate ", " (fields.map fun e => e.1 ++ ": " ++ e.2.render) := by
  induction fields with
  | nil => rfl
  | cons e fields ih =>
    cases fields with
    | nil => simp [renderFields]
    | cons d fields => simp [renderFields, ih, String.append_assoc]

end Node

end Conform
