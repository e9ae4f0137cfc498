import Conform.Description.Basic
import Conform.Json.Printer
import Conform.Node.Render

/-!
# The text of a description

How a description is quoted in an error: markers in brackets, shorthand text in
single quotes, embedded schemas by their own text, anything else as JSON.
-/

namespace Conform

namespace Description

mutual

/-- The text of a description. -/
def render : Description → String
  | marker k => "[" ++ k.title ++ "]"
  | any => "[Any]"
  | text s => "'" ++ s ++ "'"
  | optional inner => "Optional(" ++ inner.render ++ ")"
  | list items => "[" ++ String.intercalate ", " (renderItems items) ++ "]"
  | shape fields => "\x7b " ++ String.intercalate ", " (renderFields fields) ++ " \x7d"
  | schema root => "Schema(" ++ root.render ++ ")"
  | other value => value.render

/-- The texts of a list's items. -/
def renderItems : List Description → List String
  | [] => []
  | d :: items => d.render :: renderItems items

/-- The texts of a shape's fields. -/
def renderFields : List (String × Description) → List String
  | [] => []
  | (k, d) :: fields => (k ++ ": " ++ d.render) :: renderFields fields

end

end Description

end Conform
