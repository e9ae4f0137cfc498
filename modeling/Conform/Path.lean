/-!
# Paths

A path names a position in a schema: a label for the value as a whole, then one
step for every field or array on the way. All elements of an array share the
step `each`, so a path points at a place in the schema and never at one element
of an instance. Its text joins label and steps with points:
`value.comments.$.author.id`.
-/

namespace Conform

/-- One step down in a schema. -/
inductive Step where
  /-- to the field of this name -/
  | key (name : String)
  /-- to every element of an array -/
  | each
deriving DecidableEq

/-- The text of a step: the field's name, or `$` for the elements. -/
def Step.text : Step → String
  | key name => name
  | each => "$"

/-- A label for the starting point and the steps taken from it. -/
structure Path where
  label : String := "value"
  steps : List Step := []
deriving DecidableEq

namespace Path

/-- The path of the value that is validated. -/
def root : Path := {}

/-- One step further. -/
def push (p : Path) (s : Step) : Path :=
  { p with steps := p.steps ++ [s] }

/-- The path of the field `name` below this one. -/
def key (p : Path) (name : String) : Path :=
  p.push (.key name)

/-- The path of the elements of the array at this position. -/
def each (p : Path) : Path :=
  p.push .each

/-- The text of steps that are appended to a path. -/
def suffix (steps : List Step) : String :=
  steps.foldr (fun s rest => "." ++ s.text ++ rest) ""

/-- The text of a path. -/
def render (p : Path) : String :=
  p.label ++ suffix p.steps

instance : ToString Path := ⟨render⟩

@[simp] theorem suffix_nil : suffix [] = "" := rfl

@[simp] theorem suffix_cons (s : Step) (steps : List Step) :
    suffix (s :: steps) = "." ++ s.text ++ suffix steps := rfl

/-- The text of two runs of steps is one after the other. -/
theorem suffix_append (xs ys : List Step) : suffix (xs ++ ys) = suffix xs ++ suffix ys := by
  induction xs with
  | nil => simp
  | cons s xs ih => simp [ih, String.append_assoc]

/-- A step adds a point and its own text. -/
theorem render_push (p : Path) (s : Step) : (p.push s).render = p.render ++ "." ++ s.text := by
  simp [render, push, suffix_append, String.append_assoc]

theorem render_key (p : Path) (name : String) : (p.key name).render = p.render ++ "." ++ name :=
  render_push p _

theorem render_each (p : Path) : p.each.render = p.render ++ ".$" := by
  rw [each, render_push, String.append_assoc]
  rfl

end Path

end Conform
