import Conform.Proofs.FieldOrder
import Conform.Proofs.NodeContexts
import Conform.Proofs.Positions
import Conform.Proofs.Reports
import Conform.Proofs.StartPaths

/-!
# What a schema accepts

A schema accepts a possibly absent value if a check of it reports nothing. What a schema made
of others accepts, depends only on what those accept, and grows with it.

- `Node.accepts_optional_iff` and its siblings: acceptance, one lemma for each kind of node that
  has parts;
- `Node.Accepts.fill`: **acceptance is monotone in every part of a schema**, by
  induction on what surrounds the part.

Acceptance does not depend on the path from which the check starts
(`Node.mismatches_eq_nil_iff`), nor on what else would be done about a mismatch
(`Node.accepts_iff_check`).
-/

namespace Conform

namespace Node

/-- A check of the value reports nothing, dates being read by `parse`. -/
def Accepts (parse : Value → Option Binary64) (n : Node) (x : Option Value) : Prop :=
  n.mismatches parse Path.root x = []

variable {parse : Value → Option Binary64} {x : Option Value}

/-- Nothing is reported from one path exactly if nothing is from any other. -/
theorem mismatches_eq_nil_iff (n : Node) (p : Path) :
    n.mismatches parse p x = [] ↔ n.Accepts parse x := by
  have hreports : ∀ q : Path, n.mismatches parse q x = [] ↔
      ∀ c ∈ n.calls parse Path.nowhere x, c.reported? = none := by
    intro q
    rw [mismatches_eq, calls_under, List.filterMap_map, List.filterMap_eq_nil_iff]
    refine forall₂_congr fun c _ => ?_
    cases c with
    | readDate v => exact iff_of_true rfl rfl
    | report e => exact iff_of_false nofun nofun
  rw [hreports p, Accepts, hreports Path.root]

/-- What is accepted passes a check that stops at the first mismatch, from every path, and
nothing else does. -/
theorem accepts_iff_check (n : Node) (p : Path) :
    n.Accepts parse x ↔ n.check (Options.raiseWith parse) p x = .ok () := by
  rw [check_raiseWith_eq_ok_iff, mismatches_eq_nil_iff]

/-! ## Node by node -/

/-- What is optional may be absent or null, and is otherwise up to the schema below. -/
theorem accepts_optional_iff (inner : Node) :
    (optional inner).Accepts parse x ↔ (Present x → inner.Accepts parse x) := by
  by_cases hx : Present x
  · rw [Accepts, mismatches_optional_of_present _ _ _ hx]
    exact ⟨fun h _ => h, fun h => h hx⟩
  · rw [Accepts, mismatches_optional_of_not_present _ _ _ hx]
    exact iff_of_true rfl fun h => absurd h hx

/-- An array is accepted if all its elements are, and nothing else is. -/
theorem accepts_arrayOf_iff (element : Node) :
    (arrayOf element).Accepts parse x ↔
      ∃ items, x = some (.array items) ∧ ∀ v ∈ items, element.Accepts parse (some v) := by
  rw [Accepts]
  cases hitems : x.bind Value.items? with
  | none =>
    rw [mismatches_no_array _ _ _ hitems]
    refine iff_of_false nofun ?_
    rintro ⟨items, rfl, -⟩
    cases hitems
  | some items =>
    obtain rfl := Value.bind_items?_eq_some_iff.mp hitems
    simp only [mismatches_array, List.flatMap_eq_nil_iff, mismatches_eq_nil_iff]
    constructor
    · intro h
      exact ⟨items, rfl, h⟩
    · rintro ⟨_, ⟨⟩, h⟩
      exact h

/-- What counts as an object is accepted if all its declared fields are. -/
theorem accepts_shape_iff (fields : List (String × Node)) :
    (shape fields).Accepts parse x ↔
      ∃ v, x = some v ∧ v.isObjectLike ∧ ∀ e ∈ fields, e.2.Accepts parse (v.get? e.1) := by
  rw [Accepts]
  cases hobject : x.filter Value.isObjectLike with
  | none =>
    rw [mismatches_no_object _ _ _ hobject]
    refine iff_of_false nofun ?_
    rintro ⟨v, rfl, hv, -⟩
    simp [Option.filter, hv] at hobject
  | some v =>
    obtain ⟨rfl, hv⟩ := Option.filter_eq_some_iff.mp hobject
    simp only [mismatches_object _ _ _ hv, List.flatMap_eq_nil_iff, mismatches_eq_nil_iff]
    constructor
    · intro h
      exact ⟨v, rfl, hv, h⟩
    · rintro ⟨_, ⟨⟩, -, h⟩
      exact h

/-- A reference accepts what it embeds accepts. -/
theorem accepts_ref_iff (root : Node) : (ref root).Accepts parse x ↔ root.Accepts parse x := by
  rw [Accepts, Accepts, mismatches_ref]

/-! ## Parts of schemas -/

/-- **A schema accepts more if a part of it does.** Every constructor of schemas asks its parts
only to accept, never not to. -/
theorem Accepts.fill {a b : Node} (hab : ∀ x, a.Accepts parse x → b.Accepts parse x)
    {C : Context} (h : (C.fill a).Accepts parse x) : (C.fill b).Accepts parse x := by
  -- on the way to the hole the value changes
  induction C generalizing x with
  | hole => exact hab x h
  | optional inner ih =>
    refine (accepts_optional_iff _).mpr fun hx => ?_
    exact ih ((accepts_optional_iff _).mp h hx)
  | arrayOf inner ih =>
    obtain ⟨items, rfl, hitems⟩ := (accepts_arrayOf_iff _).mp h
    exact (accepts_arrayOf_iff _).mpr ⟨items, rfl, fun v hv => ih (hitems v hv)⟩
  | shape before key inner after ih =>
    obtain ⟨v, rfl, hv, hfields⟩ := (accepts_shape_iff _).mp h
    obtain ⟨hbefore, hrest⟩ := List.forall_mem_append.mp hfields
    obtain ⟨hinner, hafter⟩ := List.forall_mem_cons.mp hrest
    refine (accepts_shape_iff _).mpr ⟨v, rfl, hv, ?_⟩
    exact List.forall_mem_append.mpr ⟨hbefore, List.forall_mem_cons.mpr ⟨ih hinner, hafter⟩⟩
  | ref inner ih => exact (accepts_ref_iff _).mpr (ih ((accepts_ref_iff _).mp h))

/-- **Loosening a part never makes the whole stricter.** If a schema accepts all that another
one accepts, then in the place of the other, wherever that is, it makes the whole accept all
that it accepted before; and if they accept the same, so does the whole with either. What is
accepted is what passes a check that stops at the first mismatch, from every path. -/
theorem loosening_accepts_more {a b : Node}
    (hab : ∀ x, a.Accepts parse x → b.Accepts parse x) :
    (∀ (C : Context) (x : Option Value),
      (C.fill a).Accepts parse x → (C.fill b).Accepts parse x) ∧
    ((∀ x, b.Accepts parse x → a.Accepts parse x) → ∀ (C : Context) (x : Option Value),
      (C.fill a).Accepts parse x ↔ (C.fill b).Accepts parse x) ∧
    ∀ (n : Node) (p : Path) (x : Option Value),
      n.Accepts parse x ↔ n.check (Options.raiseWith parse) p x = .ok () := by
  refine ⟨fun C x h => h.fill hab, ?_, fun n p x => accepts_iff_check n p⟩
  intro hba C x
  exact ⟨fun h => h.fill hab, fun h => h.fill hba⟩

/-- Marks of an exam, a list behind a field and a reference: any list of numbers is still
accepted if marks may be missing, and a list with a null is then as well. -/
theorem loosening_accepts_more_marks :
    let C := Context.shape [("id", kind .number)] "marks" (.ref (.arrayOf .hole))
      [("at", optional (kind .date))]
    (∀ x, (kind .number).Accepts Value.millis? x →
      (optional (kind .number)).Accepts Value.millis? x) ∧
    (∀ x, (C.fill (kind .number)).Accepts Value.millis? x →
      (C.fill (optional (kind .number))).Accepts Value.millis? x) ∧
    ∃ x, ¬ (C.fill (kind .number)).Accepts Value.millis? x ∧
      (C.fill (optional (kind .number))).Accepts Value.millis? x := by
  intro C
  have hab : ∀ x, (kind .number).Accepts Value.millis? x →
      (optional (kind .number)).Accepts Value.millis? x :=
    fun x h => (accepts_optional_iff _).mpr fun _ => h
  let marks : Value := .array [.number (.ofInt 2), .null]
  refine ⟨hab, (loosening_accepts_more hab).1 C,
    some (.object [("id", .number (.ofInt 1)), ("marks", marks)]), ?_, ?_⟩
  · rw [Accepts]
    decide
  · rw [Accepts]
    decide

end Node

end Conform
