import Conform.Node.Render
import Conform.Proofs.Calls
import Conform.Proofs.NodeContexts

/-!
# References have no meaning of their own

`Node.erase` replaces every reference by what it embeds: no reference is left
(`holdsRef_erase`), and it comes to the same to replace one of them first, wherever
it stands (`erase_fill_ref`). Nothing that is done with a schema tells the two
apart: not its text (`render_erase`), not whether it is optional
(`isOptional_erase`), and not the check of a value, in any monad (`check_erase`).
Two schemas that are the same without references are therefore interchangeable.
-/

namespace Conform

namespace Node

/-! ## What is left without references -/

mutual

/-- Whether a schema holds a reference, at any depth. -/
def holdsRef : Node → Bool
  | kind _ => false
  | any => false
  | optional inner => inner.holdsRef
  | arrayOf element => element.holdsRef
  | shape fields => fieldsHoldRef fields
  | ref _ => true

/-- Whether one of the fields holds a reference. -/
def fieldsHoldRef : List (String × Node) → Bool
  | [] => false
  | (_, n) :: fields => n.holdsRef || fieldsHoldRef fields

end

/-- No reference is left, also none that was behind another. -/
theorem holdsRef_erase (n : Node) : n.erase.holdsRef = false := by
  induction n with
  | kind k => rfl
  | any => rfl
  | optional inner ih => exact ih
  | arrayOf element ih => exact ih
  | shape fields ih =>
    show fieldsHoldRef (eraseFields fields) = false
    induction fields with
    | nil => rfl
    | cons e fields ihf =>
      obtain ⟨k, n⟩ := e
      show (n.erase.holdsRef || fieldsHoldRef (eraseFields fields)) = false
      rw [ih (k, n) List.mem_cons_self, ihf fun e he => ih e (List.mem_cons_of_mem _ he)]
      rfl
  | ref root ih => exact ih

/-- Where there is no reference, nothing is erased. -/
theorem erase_eq_self {n : Node} (h : n.holdsRef = false) : n.erase = n := by
  induction n with
  | kind k => rfl
  | any => rfl
  | optional inner ih => exact congrArg optional (ih h)
  | arrayOf element ih => exact congrArg arrayOf (ih h)
  | shape fields ih =>
    refine congrArg shape ?_
    replace h : fieldsHoldRef fields = false := h
    induction fields with
    | nil => rfl
    | cons e fields ihf =>
      obtain ⟨k, n⟩ := e
      obtain ⟨hn, hfields⟩ := Bool.or_eq_false_iff.mp h
      show (k, n.erase) :: eraseFields fields = (k, n) :: fields
      rw [ih (k, n) List.mem_cons_self hn,
        ihf (fun e he => ih e (List.mem_cons_of_mem _ he)) hfields]
  | ref root ih => cases h

/-- What is erased around a hole does not depend on the references that fill it. -/
theorem erase_fill (C : Context) {m n : Node} (h : m.erase = n.erase) :
    (C.fill m).erase = (C.fill n).erase := by
  induction C with
  | hole => exact h
  | optional inner ih => exact congrArg optional ih
  | arrayOf inner ih => exact congrArg arrayOf ih
  | shape before key inner after ih =>
    show shape (eraseFields _) = shape (eraseFields _)
    simp only [eraseFields_eq_map, List.map_append, List.map_cons, ih]
  | ref inner ih => exact ih

/-- A single reference can be replaced by what it embeds beforehand, at any place. -/
theorem erase_fill_ref (C : Context) (root : Node) :
    (C.fill (.ref root)).erase = (C.fill root).erase :=
  erase_fill C rfl

/-! ## The node below references -/

/-- The references at the top are erased like all others. -/
theorem erase_resolved (n : Node) : n.resolved.erase = n.erase := by
  induction n with
  | ref root ih => exact ih
  | _ => rfl

/-- References do not hide that a schema is optional. -/
theorem isOptional_erase (n : Node) : n.erase.isOptional = n.isOptional := by
  induction n with
  | ref root ih => rw [isOptional_ref, ← ih, erase]
  | _ => rfl

/-! ## Text -/

/-- A shape shows its fields, in braces. -/
theorem render_shape (fields : List (String × Node)) :
    (shape fields).render =
      if fields = [] then "\x7b\x7d" else
        "\x7b " ++ String.intercalate ", " (fields.map fun e => e.1 ++ ": " ++ e.2.render) ++
          " \x7d" := by
  cases fields with
  | nil => rfl
  | cons e fields => rw [render, renderFields_eq_intercalate, if_neg (List.cons_ne_nil e fields)]

/-- **References do not show** in the text of a schema. -/
theorem render_erase (n : Node) : n.erase.render = n.render := by
  induction n with
  | kind k => rfl
  | any => rfl
  | optional inner ih => rw [erase, render, render, ih]
  | arrayOf element ih => rw [erase, render, render, ih, isOptional_erase]
  | shape fields ih =>
    have htexts : (fields.map fun e => (e.1, e.2.erase)).map (fun e => e.1 ++ ": " ++ e.2.render) =
        fields.map fun e => e.1 ++ ": " ++ e.2.render := by
      rw [List.map_map]
      refine List.map_congr_left fun e he => ?_
      show e.1 ++ ": " ++ e.2.erase.render = _
      rw [ih e he]
    rw [erase, render_shape, render_shape, eraseFields_eq_map, htexts]
    simp
  | ref root ih => rw [erase, render, ih]

/-! ## Checks -/

section

variable {m : Type → Type} [Monad m]

/-- **References do not matter to a check**: in every monad it does the same without
them. -/
theorem check_erase (o : Options m) (n : Node) (p : Path) (x : Option Value) :
    n.erase.check o p x = n.check o p x := by
  induction n generalizing p x with
  | kind k => rfl
  | any => rfl
  | optional inner ih =>
    cases x with
    | none => rfl
    | some v =>
      cases v with
      | null => rfl
      | _ => exact ih p _
  | arrayOf element ih =>
    rw [erase, check, check]
    cases x.bind Value.items? with
    | none => rfl
    | some items => exact congrArg items.forM (funext fun v => ih p.each (some v))
  | shape fields ih =>
    -- the checks of the fields agree one by one, so their sequence does
    have hfields : ∀ v, checkFields o p v (eraseFields fields) = checkFields o p v fields := by
      intro v
      induction fields with
      | nil => rfl
      | cons e fields ihf =>
        obtain ⟨k, n⟩ := e
        rw [eraseFields, checkFields, checkFields, ih (k, n) List.mem_cons_self,
          ihf fun e he => ih e (List.mem_cons_of_mem _ he)]
    rw [erase, check, check]
    cases x.filter Value.isObjectLike with
    | none => rfl
    | some v => exact hfields v
  | ref root ih => exact ih p x

/-- Schemas that are the same without references check alike. -/
theorem check_congr_erase {n n' : Node} (h : n.erase = n'.erase) (o : Options m) (p : Path)
    (x : Option Value) : n.check o p x = n'.check o p x := by
  rw [← check_erase o n, h, check_erase]

end

/-- Schemas that are the same without references have the same text. -/
theorem render_congr_erase {n n' : Node} (h : n.erase = n'.erase) : n.render = n'.render := by
  rw [← render_erase n, h, render_erase]

/-! ## All together -/

/-- **References are transparent at every depth.** Without them a schema holds none, be they
replaced all at once or one by one; it makes the same calls and returns the same in every monad,
so also where a handler looks at all calls before; and it has the same text and is as optional.
What is below the references at the top is no reference, and the same without references. -/
theorem references_transparent (n : Node) :
    (n.erase.holdsRef = false ∧ (n.holdsRef = false → n.erase = n) ∧
      ∀ (C : Context) (root : Node), n = C.fill (.ref root) → n.erase = (C.fill root).erase) ∧
    (∀ {m : Type → Type} [Monad m] (o : Options m) (p : Path) (x : Option Value),
      n.erase.check o p x = n.check o p x) ∧
    (∀ {ε : Type} (parse : Value → Option Binary64) (h : Handler ε) (p : Path) (x : Option Value),
      n.erase.logged parse h p x = n.logged parse h p x) ∧
    (n.erase.render = n.render ∧ n.erase.isOptional = n.isOptional) ∧
    (∀ root, n.resolved ≠ .ref root) ∧ n.resolved.erase = n.erase := by
  refine ⟨⟨holdsRef_erase n, erase_eq_self, ?_⟩, ?_, ?_, ⟨render_erase n, isOptional_erase n⟩,
    resolved_ne_ref n, erase_resolved n⟩
  · rintro C root rfl
    exact erase_fill_ref C root
  · intro m _ o p x
    exact check_erase o n p x
  · intro ε parse h p x
    rw [logged, logged, check_erase]

end Node

end Conform
