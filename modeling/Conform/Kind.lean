/-!
# Kinds

The six primitive kinds that a schema can ask for. A kind has two texts: its
`name`, which descriptions and rendered schemas use, and its `title`, which a
mismatch reports. They differ for the three structured kinds, whose titles are
capitalised.
-/

namespace Conform

/-- The primitive kinds of values. -/
inductive Kind where
  | number
  | string
  | boolean
  | array
  | object
  | date
deriving DecidableEq

namespace Kind

/-- All kinds, in their fixed order. -/
def all : List Kind :=
  [.number, .string, .boolean, .array, .object, .date]

/-- Every kind is listed. -/
theorem mem_all (k : Kind) : k ∈ all := by
  cases k <;> decide

/-- The lowercase name by which a description asks for a kind. -/
def name : Kind → String
  | number => "number"
  | string => "string"
  | boolean => "boolean"
  | array => "array"
  | object => "object"
  | date => "date"

/-- The title under which a mismatch reports the kind that was expected. -/
def title : Kind → String
  | number => "number"
  | string => "string"
  | boolean => "boolean"
  | array => "Array"
  | object => "Object"
  | date => "Date"

instance : ToString Kind := ⟨name⟩

/-- The kind with this name. -/
def ofName? (name : String) : Option Kind :=
  all.find? (·.name == name)

/-- A kind is found under its name. -/
@[simp] theorem ofName?_name (k : Kind) : ofName? k.name = some k := by
  cases k <;> rfl

/-- A text names a kind exactly if it is that kind's name. -/
theorem ofName?_eq_some_iff {name : String} {k : Kind} :
    ofName? name = some k ↔ name = k.name := by
  constructor
  · intro h
    have := List.find?_some h
    exact (by simpa using this : k.name = name).symm
  · rintro rfl
    exact ofName?_name k

/-- The place of a kind in the fixed order. -/
def index (k : Kind) : Nat :=
  all.findIdx (· == k)

end Kind

end Conform
