import Conform.Check
import Conform.DateText.Reading
import Conform.Description.Normalize
import Conform.Json.Reader
import Conform.Node.Render

/-!
# Compiled schemas

A schema that is ready to check values: the root of a tree of nodes and the
options it was compiled with. Two options are predefined: `Options.raise` stops
at the first mismatch, `Options.collect` gathers all of them.
-/

namespace Conform

namespace Options

/-- Stop at the first mismatch. -/
def raise : Options (Except Mismatch) where
  readDate v := .ok v.millis?
  report e := .error e

/-- Gather all mismatches, in the order in which they are found. -/
def collect : Options (StateM (List Mismatch)) where
  readDate v := pure v.millis?
  report e := modify (· ++ [e])

end Options

/-- What a schema can be compiled from. -/
inductive Source where
  /-- a description -/
  | description (d : Description)
  /-- a description as JSON text -/
  | text (s : String)
  /-- a node, which needs no reading -/
  | node (n : Node)

/-- The root of the schema that a source spells, positions being counted from
`p`. -/
def Source.rootAt (p : Path) : Source → Except SchemaError Node
  | description d => (d.normalize p).mapError .unknown
  | text s =>
    match Json.ofText s with
    | .ok j => ((Description.ofJson j).normalize p).mapError .unknown
    | .error fault => .error (.invalidJson fault s)
  | node n => .ok n

/-- The root of the schema that a source spells. -/
def Source.root (s : Source) : Except SchemaError Node :=
  s.rootAt Path.root

/-- A compiled schema. -/
structure Schema (m : Type → Type) where
  root : Node
  options : Options m

namespace Schema

variable {m : Type → Type} [Monad m]

/-- Compile a description. -/
def compile (d : Description) (o : Options m) : Except SchemaError (Schema m) :=
  (Source.description d).root.map fun root => ⟨root, o⟩

/-- Check a possibly absent value. -/
def validateMaybe (s : Schema m) (x : Option Value) : m Unit :=
  s.root.check s.options Path.root x

/-- Check a value. -/
def validate (s : Schema m) (v : Value) : m Unit :=
  s.validateMaybe (some v)

/-- Check a JSON document. -/
def validateJson (s : Schema m) (j : Json) : m Unit :=
  s.validate (.ofJson j)

/-- The description that embeds a schema. Its options are left behind: an
embedded schema is checked with those of the schema around it. -/
def toDescription (s : Schema m) : Description :=
  .schema s.root

end Schema

/-- The summary of the schema with the given root. -/
def Node.summary (root : Node) : String :=
  "CompiledSchema(" ++ root.render ++ ")"

end Conform
