import Conform.Description.Render
import Conform.Json.Fault
import Conform.Path

/-!
# Why no schema could be built

A description fails as a whole if it holds one token that describes no schema;
the error names that token and its position. A description given as JSON text
can also fail because the text is no JSON.
-/

namespace Conform

/-- A token that describes no schema, and where it stands. -/
structure UnknownToken where
  token : Description
  position : Path

/-- The message about an unknown token. -/
def UnknownToken.message (e : UnknownToken) : String :=
  "Unknown schema type " ++ e.token.render ++ " for " ++ e.position.render

/-- Why a schema could not be built. -/
inductive SchemaError where
  | unknown (e : UnknownToken)
  | invalidJson (fault : Json.Fault) (text : String)

namespace SchemaError

/-- The message of an error. -/
def message : SchemaError → String
  | unknown e => e.message
  | invalidJson fault text => "Invalid schema JSON: " ++ fault.message text

/-- The position of the offending token, if there is one. -/
def position? : SchemaError → Option Path
  | unknown e => some e.position
  | invalidJson _ _ => none

end SchemaError

end Conform
