import Conform.Kind
import Conform.Path

/-!
# Mismatches

What a check reports about a value that does not fit its schema: the position,
as the text of a path, and the kind that was expected there.
-/

namespace Conform

/-- A value that does not fit. -/
structure Mismatch where
  field : String
  expected : String
deriving DecidableEq

namespace Mismatch

/-- The mismatch of a value at the position `p` with the kind `k`. -/
def ofKind (p : Path) (k : Kind) : Mismatch :=
  ⟨p.render, k.title⟩

/-- The message of a mismatch. -/
def message (m : Mismatch) : String :=
  m.field ++ " is not a " ++ m.expected ++ "."

instance : ToString Mismatch := ⟨message⟩

end Mismatch

end Conform
