import Conform.Proofs.Stopping

/-!
# What a check reports, node by node

The mismatches of a check follow the schema: those of an array are those of its elements,
one after the other, and those of an object are those of its declared fields. Where dates
are read by a pure function and nothing else happens when one is read, the mismatches are
all that shows of a check (`check_eq_forM_mismatches`).
-/

namespace Conform

namespace Node

variable (parse : Value → Option Binary64) (p : Path)

/-- The test for a kind reports at most itself. -/
theorem mismatches_kind (k : Kind) (x : Option Value) :
    (kind k).mismatches parse p x = if k.admits parse x then [] else [.ofKind p k] := by
  have hquestions : ((k.question? x).toList.map Call.readDate).filterMap Call.reported? = [] := by
    cases k.question? x with
    | none => rfl
    | some v => rfl
  rw [mismatches_eq, calls, Kind.calls, List.filterMap_append, hquestions]
  cases k.admits parse x with
  | true => rfl
  | false => rfl

/-- Nothing fails to be something. -/
theorem mismatches_any (x : Option Value) : any.mismatches parse p x = [] := by
  rw [mismatches_eq]
  rfl

/-- Where something is there, `optional` makes no difference. -/
theorem mismatches_optional_of_present (inner : Node) {x : Option Value} (hx : Present x) :
    (optional inner).mismatches parse p x = inner.mismatches parse p x := by
  rw [mismatches_eq, mismatches_eq, calls_optional_of_present inner hx]

/-- What is optional may be absent or null. -/
theorem mismatches_optional_of_not_present (inner : Node) {x : Option Value}
    (hx : ¬ Present x) : (optional inner).mismatches parse p x = [] := by
  rw [mismatches_eq, calls_optional_of_not_present inner hx]
  rfl

/-- Of an array, its elements are reported on. -/
theorem mismatches_array (element : Node) (items : List Value) :
    (arrayOf element).mismatches parse p (some (.array items)) =
      items.flatMap fun v => element.mismatches parse p.each (some v) := by
  rw [mismatches_eq]
  refine (List.filterMap_flatMap ..).trans ?_
  exact congrArg items.flatMap (funext fun v => (mismatches_eq parse element p.each _).symm)

/-- Of what is no array, that is reported. -/
theorem mismatches_no_array (element : Node) {x : Option Value}
    (hx : x.bind Value.items? = none) :
    (arrayOf element).mismatches parse p x = [.ofKind p .array] := by
  rw [mismatches_eq, calls, hx]
  rfl

/-- Of what counts as an object, its declared fields are reported on. -/
theorem mismatches_object (fields : List (String × Node)) {v : Value} (hv : v.isObjectLike) :
    (shape fields).mismatches parse p (some v) =
      fields.flatMap fun e => e.2.mismatches parse (p.key e.1) (v.get? e.1) := by
  have hfilter : (some v).filter Value.isObjectLike = some v := by simp [Option.filter, hv]
  rw [mismatches_eq, calls, hfilter]
  show (fieldCalls parse p v fields).filterMap Call.reported? = _
  rw [fieldCalls_eq_flatMap, List.filterMap_flatMap]
  exact congrArg fields.flatMap (funext fun e => (mismatches_eq parse e.2 _ _).symm)

/-- Of what is no object, that is reported. -/
theorem mismatches_no_object (fields : List (String × Node)) {x : Option Value}
    (hx : x.filter Value.isObjectLike = none) :
    (shape fields).mismatches parse p x = [.ofKind p .object] := by
  rw [mismatches_eq, calls, hx]
  rfl

/-- A reference reports what it embeds. -/
theorem mismatches_ref (root : Node) (x : Option Value) :
    (ref root).mismatches parse p x = root.mismatches parse p x := by
  rw [mismatches_eq, mismatches_eq, calls]

variable {parse} {p}

/-- **A check is its mismatches**, reported one after the other, where nothing else happens
when a date is read. -/
theorem check_eq_forM_mismatches {m : Type → Type} [Monad m] [LawfulMonad m] (o : Options m)
    (hread : ∀ v, o.readDate v = pure (parse v)) (n : Node) (x : Option Value) :
    n.check o p x = (n.mismatches parse p x).forM o.report := by
  rw [mismatches_eq, check_eq_forM o (fun _ => pure ()) parse fun v => by simp [hread]]
  induction n.calls parse p x with
  | nil => rfl
  | cons c cs ih =>
    simp only [List.forM_eq_forM] at ih ⊢
    cases c with
    | readDate v => simp [Call.perform, List.filterMap_cons, ih]
    | report e => simp [Call.perform, ih]

end Node

end Conform
