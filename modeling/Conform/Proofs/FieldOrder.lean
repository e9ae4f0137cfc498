import Conform.Proofs.ShapeKeys
import Conform.Proofs.Stopping
import Mathlib.Data.List.Forall2
import Mathlib.Data.List.Perm.Basic

/-!
# The order of declared fields

Schemas are compared without regard to the order of a shape's fields, and checked in that
order. What a comparison finds equal therefore makes the same calls in another order:

- `Node.exists_matching`: the fields of equal shapes can be matched, key by key, after a
  reordering;
- `Node.calls_perm_of_equal`: **equal schemas make the same calls, in some order**, by
  induction on the first; the reorderings of all depths add up;
- `Node.equal_up_to_order`: so they find the same mismatches, ask about the same dates, and accept
  the same values, while the mismatch at which a check stops may differ.

A comparison looks fields up, and is only sound for shapes with one field per key
(`Node.DistinctKeys`), as `Node.object` builds them.
-/

namespace Conform

namespace Node

/-! ## One field per key -/

/-- Every shape in a schema has one field per key. -/
def DistinctKeys : Node → Prop :=
  KeysHold List.Nodup

/-- A shape has distinct keys if its own are, and those of its fields. -/
theorem distinctKeys_shape_iff {fields : List (String × Node)} :
    (shape fields).DistinctKeys ↔
      (Fields.keys fields).Nodup ∧ ∀ e ∈ fields, e.2.DistinctKeys :=
  keysHold_shape_iff

/-- What `object` builds from nodes with distinct keys has distinct keys. -/
theorem distinctKeys_object {fields : List (String × Node)}
    (h : ∀ e ∈ fields, e.2.DistinctKeys) : (object fields).DistinctKeys :=
  distinctKeys_shape_iff.mpr ⟨Fields.nodup_ofPairs fields, fun e he => h e (Fields.mem_ofPairs he)⟩

/-! ## Matching fields -/

/-- Each of some fields has an equal one among others if it is found there by its key. -/
theorem equalFields_iff {fs gs : List (String × Node)} :
    equalFields fs gs = true ↔ ∀ e ∈ fs, ∃ n, gs.lookup e.1 = some n ∧ e.2.equal n = true := by
  induction fs with
  | nil => simp [equalFields]
  | cons e fs ih =>
    obtain ⟨k, m⟩ := e
    rw [equalFields, Bool.and_eq_true, ih, List.forall_mem_cons]
    cases gs.lookup k with
    | none => simp
    | some n => simp

/-- Two fields are alike: they have the same key, and equal nodes. -/
def FieldEqual (e f : String × Node) : Prop :=
  e.1 = f.1 ∧ e.2.equal f.2 = true

/-- The fields of equal shapes are alike after a reordering. The induction is over the first
fields, and takes the field with the same key out of the second ones; since keys do not
repeat, none of the others needs that one. -/
theorem exists_matching {fs gs : List (String × Node)} (hkeys : (Fields.keys fs).Nodup)
    (hlen : fs.length = gs.length) (h : equalFields fs gs = true) :
    ∃ hs, hs.Perm gs ∧ List.Forall₂ FieldEqual fs hs := by
  induction fs generalizing gs with
  | nil =>
    obtain rfl : gs = [] := List.length_eq_zero_iff.mp hlen.symm
    exact ⟨[], .refl _, .nil⟩
  | cons e fs ih =>
    obtain ⟨hnew, hkeys⟩ := List.nodup_cons.mp hkeys
    obtain ⟨⟨n, hn, heq⟩, hrest⟩ := List.forall_mem_cons.mp (equalFields_iff.mp h)
    obtain ⟨before, after, rfl, -⟩ := List.lookup_eq_some_iff.mp hn
    have hothers : equalFields fs (before ++ after) = true := by
      refine equalFields_iff.mpr fun d hd => ?_
      have hne : (d.1 == e.1) = false :=
        beq_eq_false_iff_ne.mpr fun heq => hnew (heq ▸ List.mem_map_of_mem hd)
      obtain ⟨m, hm, hdm⟩ := hrest d hd
      refine ⟨m, ?_, hdm⟩
      rw [List.lookup_append, List.lookup_cons, hne] at hm
      rw [List.lookup_append]
      exact hm
    have hlen : fs.length = (before ++ after).length := by
      simp only [List.length_cons, List.length_append] at hlen ⊢
      omega
    obtain ⟨hs, hperm, hmatch⟩ := ih hkeys hlen hothers
    exact ⟨(e.1, n) :: hs, (hperm.cons _).trans List.perm_middle.symm, .cons ⟨rfl, heq⟩ hmatch⟩

/-! ## The calls of equal schemas -/

variable (parse : Value → Option Binary64)

/-- Where matched fields make the same calls in some order, so do the objects. -/
theorem flatMap_perm_of_matching {fs hs : List (String × Node)} {p : Path} {v : Value}
    (hmatch : List.Forall₂ FieldEqual fs hs)
    (hcalls : ∀ e ∈ fs, ∀ n, e.2.equal n = true → ∀ q x,
      (e.2.calls parse q x).Perm (n.calls parse q x)) :
    (fs.flatMap fun e => e.2.calls parse (p.key e.1) (v.get? e.1)).Perm
      (hs.flatMap fun e => e.2.calls parse (p.key e.1) (v.get? e.1)) := by
  induction hmatch with
  | nil => exact .refl _
  | @cons e f fs hs hef _ ih =>
    obtain ⟨hkey, heq⟩ := hef
    rw [List.flatMap_cons, List.flatMap_cons, ← hkey]
    exact (hcalls e List.mem_cons_self f.2 heq _ _).append
      (ih fun d hd => hcalls d (List.mem_cons_of_mem _ hd))

/-- **Equal schemas make the same calls, in some order.** An array repeats the reordering of
its element at every item, and an object adds that of its own fields. -/
theorem calls_perm_of_equal {a b : Node} (hkeys : a.DistinctKeys) (h : a.equal b = true)
    (p : Path) (x : Option Value) : (a.calls parse p x).Perm (b.calls parse p x) := by
  induction a generalizing b p x with
  | kind j =>
    cases b with
    | kind k =>
      obtain rfl : j = k := by simpa [equal] using h
      exact .refl _
    | _ => simp [equal] at h
  | any =>
    cases b with
    | any => exact .refl _
    | _ => simp [equal] at h
  | optional inner ih =>
    cases b with
    | optional other =>
      rw [equal] at h
      by_cases hx : Present x
      · rw [calls_optional_of_present _ hx, calls_optional_of_present _ hx]
        exact ih hkeys h p x
      · rw [calls_optional_of_not_present _ hx, calls_optional_of_not_present _ hx]
    | _ => simp [equal] at h
  | arrayOf element ih =>
    cases b with
    | arrayOf other =>
      rw [equal] at h
      rw [calls, calls]
      cases x.bind Value.items? with
      | none => exact .refl _
      | some items => exact List.Perm.flatMap_left items fun v _ => ih hkeys h p.each (some v)
    | _ => simp [equal] at h
  | shape fields ih =>
    cases b with
    | shape others =>
      obtain ⟨hlen, hfields⟩ :
          fields.length = others.length ∧ equalFields fields others = true := by
        simpa [equal] using h
      obtain ⟨hnodup, hinside⟩ := distinctKeys_shape_iff.mp hkeys
      obtain ⟨matched, hperm, hmatch⟩ := exists_matching hnodup hlen hfields
      rw [calls, calls]
      cases x.filter Value.isObjectLike with
      | none => exact .refl _
      | some v =>
        show (fieldCalls parse p v fields).Perm (fieldCalls parse p v others)
        rw [fieldCalls_eq_flatMap, fieldCalls_eq_flatMap]
        refine .trans ?_ (hperm.flatMap_right _)
        exact flatMap_perm_of_matching parse hmatch fun e he n heq q y =>
          ih e he (hinside e he) heq q y
    | _ => simp [equal] at h
  | ref root ih =>
    cases b with
    | ref other =>
      rw [equal] at h
      exact ih hkeys h p x
    | _ => simp [equal] at h

end Node

/-! ## What shows of the calls -/

/-- Stop at the first mismatch, dates being read by `parse`; `Options.raise` reads them as
text is read by default. -/
def Options.raiseWith (parse : Value → Option Binary64) : Options (Except Mismatch) where
  readDate v := .ok (parse v)
  report := Options.raise.report

namespace Node

/-- The values that a run asks about as dates if nothing stops it, in order. -/
def questions (parse : Value → Option Binary64) (n : Node) (p : Path) (x : Option Value) :
    List Value :=
  (n.logged parse (Handler.goOn : Handler Empty) p x).2.filterMap Call.asked?

/-- A check that stops at the first mismatch succeeds if there is none. -/
theorem check_raiseWith_eq_ok_iff (parse : Value → Option Binary64) (n : Node) (p : Path)
    (x : Option Value) :
    n.check (Options.raiseWith parse) p x = .ok () ↔ n.mismatches parse p x = [] := by
  rw [mismatches_eq, check_eq_forM (Options.raiseWith parse) (fun _ => .ok ()) parse fun _ => rfl]
  show (n.calls parse p x).forM (Call.perform (fun _ => .ok ()) Options.raise.report) = .ok () ↔ _
  rw [Options.raise_forM]
  cases (n.calls parse p x).filterMap Call.reported? with
  | nil => simp
  | cons e es => simp

/-- **Equal schemas check equally, up to order.** Whatever reads dates, a schema and an
equal one report the same mismatches and ask about the same values, each as often, in some
order; and one of them accepts exactly what the other does. What a check that stops at the
first mismatch returns is not determined by that: it depends on the order of the fields. -/
theorem equal_up_to_order :
    (∀ a b : Node, a.DistinctKeys → a.equal b = true →
      ∀ (parse : Value → Option Binary64) (p : Path) (x : Option Value),
        (a.mismatches parse p x).Perm (b.mismatches parse p x) ∧
        (a.questions parse p x).Perm (b.questions parse p x) ∧
        (a.check (Options.raiseWith parse) p x = .ok () ↔
          b.check (Options.raiseWith parse) p x = .ok ()) ∧
        (Schema.validateMaybe ⟨a, Options.raise⟩ x = .ok () ↔
          Schema.validateMaybe ⟨b, Options.raise⟩ x = .ok ())) ∧
      ∃ (a b : Node) (x : Value) (e d : Mismatch), a.DistinctKeys ∧ a.equal b = true ∧ e ≠ d ∧
        Schema.validate ⟨a, Options.raise⟩ x = .error e ∧
        Schema.validate ⟨b, Options.raise⟩ x = .error d := by
  refine ⟨?_, ?_⟩
  · intro a b hkeys h parse p x
    have hmismatches : ∀ parse p,
        (a.mismatches parse p x).Perm (b.mismatches parse p x) := by
      intro parse p
      rw [mismatches_eq, mismatches_eq]
      exact (calls_perm_of_equal parse hkeys h p x).filterMap _
    have haccept : ∀ parse p, a.check (Options.raiseWith parse) p x = .ok () ↔
        b.check (Options.raiseWith parse) p x = .ok () := by
      intro parse p
      rw [check_raiseWith_eq_ok_iff, check_raiseWith_eq_ok_iff, ← List.perm_nil, ← List.perm_nil]
      exact (hmismatches parse p).congr_left []
    refine ⟨hmismatches parse p, ?_, haccept parse p, haccept Value.millis? Path.root⟩
    rw [questions, questions, logged_goOn, logged_goOn]
    exact (calls_perm_of_equal parse hkeys h p x).filterMap _
  · have hkeys : (object [("id", kind .number), ("name", kind .string)]).DistinctKeys :=
      distinctKeys_object (by simp [DistinctKeys, KeysHold])
    exact ⟨object [("id", kind .number), ("name", kind .string)],
      object [("name", kind .string), ("id", kind .number)], .object [],
      .ofKind (Path.root.key "id") .number, .ofKind (Path.root.key "name") .string,
      hkeys, by decide, by decide, rfl, rfl⟩

/-- Two schemas for lists of events whose fields are in another order, in an event and in
the place that it refers to. -/
theorem equal_up_to_order_events :
    let place := shape [("city", kind .string), ("since", kind .date)]
    let a := arrayOf (shape [("at", kind .date), ("place", ref place)])
    let b := arrayOf (shape
      [("place", ref (shape [("since", kind .date), ("city", kind .string)])), ("at", kind .date)])
    let x := some (Value.array [.object [("place", .object [("since", .string "x")])], .null])
    a.DistinctKeys ∧ a.equal b = true ∧
      a.mismatches Value.millis? Path.root x ≠ b.mismatches Value.millis? Path.root x ∧
      (a.mismatches Value.millis? Path.root x).Perm (b.mismatches Value.millis? Path.root x) := by
  intro place a b x
  have hkeys : a.DistinctKeys := by
    refine distinctKeys_shape_iff.mpr ⟨by decide, ?_⟩
    simp [DistinctKeys, KeysHold, FieldKeysHold, place]
  have heq : a.equal b = true := by decide
  exact ⟨hkeys, heq, by decide, (equal_up_to_order.1 a b hkeys heq _ _ _).1⟩

end Node

end Conform
