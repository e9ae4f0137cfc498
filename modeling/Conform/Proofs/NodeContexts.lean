import Conform.Check

/-!
# Schemas with a hole

`Node.Context` is a schema with a hole at any depth. A check of the whole does not look
into what fills the hole, it only runs the check that stands there: `check_fill` says that
the check of a filled context is the check of the context, given the check of the filling.
That check always stands at the same path, `Context.holePath`.
-/

namespace Conform

namespace Node

/-- A schema with a hole. -/
inductive Context where
  | hole
  | optional (inner : Context)
  | arrayOf (inner : Context)
  | shape (before : List (String × Node)) (key : String) (inner : Context)
      (after : List (String × Node))
  | ref (inner : Context)

namespace Context

/-- Put a schema into the hole. -/
def fill (n : Node) : Context → Node
  | hole => n
  | optional inner => .optional (inner.fill n)
  | arrayOf inner => .arrayOf (inner.fill n)
  | shape before key inner after => .shape (before ++ (key, inner.fill n) :: after)
  | ref inner => .ref (inner.fill n)

/-- Put a context into the hole. -/
def comp : Context → Context → Context
  | hole, D => D
  | optional inner, D => optional (inner.comp D)
  | arrayOf inner, D => arrayOf (inner.comp D)
  | shape before key inner after, D => shape before key (inner.comp D) after
  | ref inner, D => ref (inner.comp D)

/-- The path of the hole in a schema that stands at `p`. -/
def holePath (p : Path) : Context → Path
  | hole => p
  | optional inner => inner.holePath p
  | arrayOf inner => inner.holePath p.each
  | shape _ key inner _ => inner.holePath (p.key key)
  | ref inner => inner.holePath p

/-- What fills the inner of two contexts fills both. -/
theorem fill_comp (C D : Context) (n : Node) : (C.comp D).fill n = C.fill (D.fill n) := by
  induction C with
  | hole => rfl
  | optional inner ih => rw [comp, fill, fill, ih]
  | arrayOf inner ih => rw [comp, fill, fill, ih]
  | shape before key inner after ih => rw [comp, fill, fill, ih]
  | ref inner ih => rw [comp, fill, fill, ih]

/-- The hole of the inner of two contexts is below that of the outer. -/
theorem holePath_comp (C D : Context) (p : Path) :
    (C.comp D).holePath p = D.holePath (C.holePath p) := by
  induction C generalizing p with
  | hole => rfl
  | optional inner ih => exact ih p
  | arrayOf inner ih => exact ih p.each
  | shape before key inner after ih => exact ih (p.key key)
  | ref inner ih => exact ih p

section

variable {m : Type → Type} [Monad m]

/-- Check a value against a schema with a hole, where `hole` is the check that stands in
it. -/
def check (o : Options m) (p : Path) (hole : Option Value → m Unit) :
    Context → Option Value → m Unit
  | .hole, x => hole x
  | optional inner, x =>
    match x with
    | none => pure ()
    | some .null => pure ()
    | some v => inner.check o p hole (some v)
  | arrayOf inner, x =>
    match x.bind Value.items? with
    | some items => items.forM fun v => inner.check o p.each hole (some v)
    | none => o.report (.ofKind p .array)
  | shape before key inner after, x =>
    match x.filter Value.isObjectLike with
    | some v => do
      checkFields o p v before
      inner.check o (p.key key) hole (v.get? key)
      checkFields o p v after
    | none => o.report (.ofKind p .object)
  | ref inner, x => inner.check o p hole x

variable [LawfulMonad m]

/-- Fields are checked one after the other, also around one of them. -/
theorem checkFields_around (o : Options m) (p : Path) (v : Value)
    (before after : List (String × Node)) (key : String) (n : Node) :
    checkFields o p v (before ++ (key, n) :: after) = (do
      checkFields o p v before
      n.check o (p.key key) (v.get? key)
      checkFields o p v after) := by
  induction before with
  | nil => simp [checkFields]
  | cons e before ih =>
    obtain ⟨k, m⟩ := e
    simp [checkFields, ih]

/-- **A check runs the check that stands in the hole**, and does not look into it. -/
theorem check_fill (o : Options m) (n : Node) (C : Context) (p : Path) (x : Option Value) :
    (C.fill n).check o p x = C.check o p (n.check o (C.holePath p)) x := by
  -- on the way to the hole both the path and the value change
  induction C generalizing p x with
  | hole => rfl
  | optional inner ih =>
    cases x with
    | none => rfl
    | some v =>
      cases v with
      | null => rfl
      | _ => exact ih p _
  | arrayOf inner ih =>
    rw [fill, Node.check, check]
    cases x.bind Value.items? with
    | none => rfl
    | some items => exact congrArg items.forM (funext fun v => ih p.each (some v))
  | shape before key inner after ih =>
    rw [fill, Node.check, check]
    cases x.filter Value.isObjectLike with
    | none => rfl
    | some v =>
      refine (checkFields_around o p v before after key _).trans ?_
      rw [ih (p.key key)]
      rfl
  | ref inner ih => exact ih p x

end

end Context

end Node

end Conform
