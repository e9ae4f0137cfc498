import Conform.Proofs.FieldOrder
import Conform.Proofs.NodeContexts
import Conform.Proofs.PathTexts
import Mathlib.Data.List.Nodup

/-!
# Where failures come from

A mismatch names its place by the text of a path. Here the place itself is noted beside it: the
schema around the test that failed, which is a `Node.Context`.

- `Node.checkIn`: the check with options that know from where they are called;
- `Node.notedRun`: a run that notes all its failures with their places, and otherwise does what
  the run of the check does (`Node.notedIn`), whatever the options do;
- `Node.Context.eq_of_steps_eq`: **two tests of one schema with the same steps are the same**,
  because `optional` and references, which take no step, have no test of their own;
- `Node.field_pinpoints_test`: **a field pinpoints one test of the schema**.
-/

namespace Conform

/-- A mismatch, and the place of the test that reports it: what surrounds it in the schema. -/
structure Failure where
  place : Node.Context
  mismatch : Mismatch

namespace Node

/-! ## Tests and their places -/

/-- The kind for which a node itself tests a value. Those that have no test of their own leave
it to the node below, or have none. -/
def ownTest? : Node → Option Kind
  | kind k => some k
  | arrayOf _ => some .array
  | shape _ => some .object
  | _ => none

namespace Context

/-- The steps from the top of a schema to its hole. -/
def steps : Context → List Step
  | hole => []
  | optional inner => inner.steps
  | arrayOf inner => .each :: inner.steps
  | shape _ key inner _ => .key key :: inner.steps
  | ref inner => inner.steps

/-- The path of the hole goes on with the steps to it. -/
theorem holePath_eq_descend (C : Context) (p : Path) : C.holePath p = p.descend C.steps := by
  induction C generalizing p with
  | hole => exact p.descend_nil.symm
  | optional inner ih => exact ih p
  | arrayOf inner ih => rw [holePath, ih, Path.each, Path.push_descend, steps]
  | shape before key inner after ih => rw [holePath, ih, Path.key, Path.push_descend, steps]
  | ref inner ih => exact ih p

/-! ## Tests with the same steps -/

/-- Of fields with distinct keys, only one has a given key. -/
theorem fields_unique {before before' after after' : List (String × Node)} {k : String}
    {m m' : Node} (hkeys : (Fields.keys (before ++ (k, m) :: after)).Nodup)
    (h : before ++ (k, m) :: after = before' ++ (k, m') :: after') :
    before = before' ∧ m = m' ∧ after = after' := by
  have hother : ∀ e ∈ before ++ after, e.1 ≠ k := by
    rintro e he rfl
    rw [Fields.keys, List.map_append, List.map_cons, List.nodup_middle, List.nodup_cons,
      ← List.map_append] at hkeys
    exact hkeys.1 (List.mem_map.mpr ⟨e, he, rfl⟩)
  have hbefore : (k, m') ∉ before := fun he => hother _ (List.mem_append_left _ he) rfl
  have hafter : (k, m') ∉ after := fun he => hother _ (List.mem_append_right _ he) rfl
  obtain ⟨rfl, heq, rfl⟩ := (List.append_cons_inj_of_notMem hbefore hafter).mp h
  exact ⟨rfl, (Prod.mk.inj heq).2, rfl⟩

/-- **Two tests of one schema with the same steps are the same.** Of two places on different
branches the steps part where the fields do; and of two places on one branch the lower one has
more steps, unless nothing but `optional` and references is between them, of which the upper
one would be the first. -/
theorem eq_of_steps_eq {C D : Context} {m n : Node} (hkeys : (C.fill m).DistinctKeys)
    (hfill : C.fill m = D.fill n) (hm : m.ownTest?.isSome) (hn : n.ownTest?.isSome)
    (hsteps : C.steps = D.steps) : C = D ∧ m = n := by
  induction C generalizing D with
  | hole =>
    cases D with
    | hole => exact ⟨rfl, hfill⟩
    | optional inner =>
      obtain rfl : m = .optional (inner.fill n) := hfill
      cases hm
    | ref inner =>
      obtain rfl : m = .ref (inner.fill n) := hfill
      cases hm
    | arrayOf inner => cases hsteps
    | shape before key inner after => cases hsteps
  | optional inner ih =>
    cases D with
    | hole =>
      obtain rfl : .optional (inner.fill m) = n := hfill
      cases hn
    | optional other =>
      obtain ⟨rfl, rfl⟩ := ih hkeys (Node.optional.inj hfill) hsteps
      exact ⟨rfl, rfl⟩
    | _ => cases hfill
  | arrayOf inner ih =>
    cases D with
    | hole => cases hsteps
    | arrayOf other =>
      obtain ⟨rfl, rfl⟩ := ih hkeys (Node.arrayOf.inj hfill) (List.cons.inj hsteps).2
      exact ⟨rfl, rfl⟩
    | _ => cases hfill
  | shape before key inner after ih =>
    cases D with
    | hole => cases hsteps
    | shape before' key' other after' =>
      obtain ⟨hstep, hrest⟩ := List.cons.inj hsteps
      obtain rfl := Step.key.inj hstep
      obtain ⟨hnodup, hinside⟩ := distinctKeys_shape_iff.mp hkeys
      obtain ⟨rfl, hinner, rfl⟩ := fields_unique hnodup (Node.shape.inj hfill)
      have hnode := hinside (key, inner.fill m) (List.mem_append_right _ List.mem_cons_self)
      obtain ⟨rfl, rfl⟩ := ih hnode hinner hrest
      exact ⟨rfl, rfl⟩
    | _ => cases hfill
  | ref inner ih =>
    cases D with
    | hole =>
      obtain rfl : .ref (inner.fill m) = n := hfill
      cases hn
    | ref other =>
      obtain ⟨rfl, rfl⟩ := ih hkeys (Node.ref.inj hfill) hsteps
      exact ⟨rfl, rfl⟩
    | _ => cases hfill

end Context

/-- Every key in a schema is a segment of paths, and not the one for elements. -/
def SegmentKeys : Node → Prop :=
  KeysHold fun keys => ∀ key ∈ keys, (Step.key key).IsSegment

/-- The steps to a place in such a schema are segments. -/
theorem Context.isSegment_of_mem_steps {C : Context} {m : Node}
    (hkeys : (C.fill m).SegmentKeys) : ∀ s ∈ C.steps, s.IsSegment := by
  induction C with
  | hole => exact nofun
  | optional inner ih => exact ih hkeys
  | arrayOf inner ih => exact List.forall_mem_cons.mpr ⟨trivial, ih hkeys⟩
  | shape before key inner after ih =>
    obtain ⟨hown, hinside⟩ := keysHold_shape_iff.mp hkeys
    have hmem : (key, inner.fill m) ∈ before ++ (key, inner.fill m) :: after :=
      List.mem_append_right _ List.mem_cons_self
    exact List.forall_mem_cons.mpr
      ⟨hown key (List.mem_map_of_mem hmem), ih (hinside _ hmem)⟩
  | ref inner ih => exact ih hkeys

/-- A schema can report this: it has the test at that place, for the expected kind, and the
mismatch is about the path of the place. -/
def CanReport (n : Node) (p : Path) (f : Failure) : Prop :=
  ∃ m k, f.place.fill m = n ∧ m.ownTest? = some k ∧ f.mismatch = .ofKind (f.place.holePath p) k

/-! ## Checks that know their place -/

section

variable {m : Type → Type} [Monad m]

mutual

/-- Check a value against what stands in the hole of `C`, with options for every place. -/
def checkIn (o : Context → Options m) (p : Path) (C : Context) : Node → Option Value → m Unit
  | kind k, x => (o C).checkKind (C.holePath p) k x
  | any, _ => pure ()
  | optional inner, x =>
    match x with
    | none => pure ()
    | some .null => pure ()
    | some v => inner.checkIn o p (C.comp (.optional .hole)) (some v)
  | arrayOf element, x =>
    match x.bind Value.items? with
    | some items => items.forM fun v => element.checkIn o p (C.comp (.arrayOf .hole)) (some v)
    | none => (o C).report (.ofKind (C.holePath p) .array)
  | shape fields, x =>
    match x.filter Value.isObjectLike with
    | some v => checkFieldsIn o p C v [] fields
    | none => (o C).report (.ofKind (C.holePath p) .object)
  | ref root, x => root.checkIn o p (C.comp (.ref .hole)) x

/-- Check the declared fields of an object that follow those in `before`. -/
def checkFieldsIn (o : Context → Options m) (p : Path) (C : Context) (v : Value)
    (before : List (String × Node)) : List (String × Node) → m Unit
  | [] => pure ()
  | (k, n) :: after => do
    n.checkIn o p (C.comp (.shape before k .hole after)) (v.get? k)
    checkFieldsIn o p C v (before ++ [(k, n)]) after

end

end

end Node

/-! ## Noting failures -/

section

variable {σ ε ν α β : Type}

/-- Do something beside a list of notes, which stays as it is. -/
def beside (act : ExceptT ε (StateM σ) α) : ExceptT ε (StateM (σ × List ν)) α :=
  ExceptT.mk fun s =>
    let (result, s') := act.run.run s.1
    (result, s', s.2)

/-- Options that take a note of every mismatch, and then do what `o` does. -/
def Options.noting (o : Options (ExceptT ε (StateM σ))) (note : Mismatch → ν) :
    Options (ExceptT ε (StateM (σ × List ν))) where
  readDate v := beside (o.readDate v)
  report e := do
    modify fun s => (s.1, s.2 ++ [note e])
    beside (o.report e)

/-- Options that note every mismatch with the place `C`. -/
abbrev Options.notingAt (o : Options (ExceptT ε (StateM σ))) (C : Node.Context) :
    Options (ExceptT ε (StateM (σ × List Failure))) :=
  o.noting (Failure.mk C)

/-- `placed` and `noted` do what `act` does; and `placed` notes failures of which `P` holds,
while `noted` notes their mismatches. -/
def Notes (P : Failure → Prop) (placed : ExceptT ε (StateM (σ × List Failure)) α)
    (noted : ExceptT ε (StateM (σ × List Mismatch)) α) (act : ExceptT ε (StateM σ) α) : Prop :=
  ∀ s fs es, ∃ new : List Failure, (∀ f ∈ new, P f) ∧
    placed.run.run (s, fs) = ((act.run.run s).1, (act.run.run s).2, fs ++ new) ∧
    noted.run.run (s, es) =
      ((act.run.run s).1, (act.run.run s).2, es ++ new.map Failure.mismatch)

/-- What follows is run on what the first part leaves, unless that ends with an error. -/
theorem run_bind_eq (act : ExceptT ε (StateM σ) α) (f : α → ExceptT ε (StateM σ) β) (s : σ) :
    (act >>= f).run.run s =
      match act.run.run s with
      | (.ok a, s') => (f a).run.run s'
      | (.error e, s') => (.error e, s') := by
  change (match act.run.run s with | (r, s') => (ExceptT.bindCont f r).run s') = _
  rcases act.run.run s with ⟨_ | _, s'⟩ <;> rfl

namespace Notes

variable {P : Failure → Prop}

/-- What is done beside the notes adds none. -/
theorem beside (act : ExceptT ε (StateM σ) α) : Notes P (beside act) (beside act) act := by
  intro s fs es
  refine ⟨[], nofun, ?_, ?_⟩
  · rw [List.append_nil]
    rfl
  · rw [List.map_nil, List.append_nil]
    rfl

theorem pure (a : α) :
    Notes P (Pure.pure a) (Pure.pure a) (Pure.pure a : ExceptT ε (StateM σ) α) :=
  beside (Pure.pure a)

theorem bind {placed : ExceptT ε (StateM (σ × List Failure)) α}
    {noted : ExceptT ε (StateM (σ × List Mismatch)) α} {act : ExceptT ε (StateM σ) α}
    {placed' : α → ExceptT ε (StateM (σ × List Failure)) β}
    {noted' : α → ExceptT ε (StateM (σ × List Mismatch)) β} {act' : α → ExceptT ε (StateM σ) β}
    (h : Notes P placed noted act) (h' : ∀ a, Notes P (placed' a) (noted' a) (act' a)) :
    Notes P (placed >>= placed') (noted >>= noted') (act >>= act') := by
  intro s fs es
  obtain ⟨new, hnew, hplaced, hnoted⟩ := h s fs es
  rw [run_bind_eq, run_bind_eq, run_bind_eq, hplaced, hnoted]
  rcases act.run.run s with ⟨e | a, s'⟩
  · exact ⟨new, hnew, rfl, rfl⟩
  · obtain ⟨more, hmore, hplaced', hnoted'⟩ := h' a s' (fs ++ new) (es ++ new.map Failure.mismatch)
    refine ⟨new ++ more, List.forall_mem_append.mpr ⟨hnew, hmore⟩, ?_, ?_⟩
    · rw [← List.append_assoc]
      exact hplaced'
    · rw [List.map_append, ← List.append_assoc]
      exact hnoted'

theorem forM {placed : α → ExceptT ε (StateM (σ × List Failure)) Unit}
    {noted : α → ExceptT ε (StateM (σ × List Mismatch)) Unit}
    {act : α → ExceptT ε (StateM σ) Unit} (xs : List α)
    (h : ∀ a ∈ xs, Notes P (placed a) (noted a) (act a)) :
    Notes P (xs.forM placed) (xs.forM noted) (xs.forM act) := by
  induction xs with
  | nil => exact pure ()
  | cons x xs ih =>
    obtain ⟨hx, hxs⟩ := List.forall_mem_cons.mp h
    exact bind hx fun _ => ih hxs

variable {o : Options (ExceptT ε (StateM σ))} {C : Node.Context}

/-- A mismatch is noted before it is reported. -/
theorem report {e : Mismatch} (h : P ⟨C, e⟩) :
    Notes P ((o.notingAt C).report e) ((o.noting id).report e) (o.report e) := by
  intro s fs es
  exact ⟨[⟨C, e⟩], List.forall_mem_singleton.mpr h, rfl, rfl⟩

/-- The test for a kind has one thing to report. -/
theorem checkKind {q : Path} {k : Kind} (h : P ⟨C, .ofKind q k⟩) (x : Option Value) :
    Notes P ((o.notingAt C).checkKind q k x) ((o.noting id).checkKind q k x)
      (o.checkKind q k x) := by
  cases x with
  | none => exact report h
  | some v =>
    simp only [Options.checkKind]
    split
    · exact pure ()
    · split
      · refine bind (beside (o.readDate v)) fun a => ?_
        cases a with
        | none => exact report h
        | some t => exact pure ()
      · exact report h

end Notes

namespace Node

/-- Wherever `n` stands in `root`, its check from there does what the check of `n` does, and
notes only what `root` can report. -/
def NotedIn (o : Options (ExceptT ε (StateM σ))) (root : Node) (p : Path) (n : Node) : Prop :=
  ∀ C : Context, C.fill n = root → ∀ x : Option Value,
    Notes (root.CanReport p) (n.checkIn o.notingAt p C x)
      (n.check (o.noting id) (C.holePath p) x) (n.check o (C.holePath p) x)

variable {o : Options (ExceptT ε (StateM σ))} {root : Node} {p : Path}

/-- The check goes on below its place, from the path there. -/
theorem NotedIn.below {n : Node} (h : NotedIn o root p n) {C D : Context}
    (hroot : C.fill (D.fill n) = root) (x : Option Value) :
    Notes (root.CanReport p) (n.checkIn o.notingAt p (C.comp D) x)
      (n.check (o.noting id) (D.holePath (C.holePath p)) x)
      (n.check o (D.holePath (C.holePath p)) x) := by
  rw [← Context.holePath_comp]
  exact h (C.comp D) (by rw [Context.fill_comp, hroot]) x

/-- The fields of an object are checked from their places. -/
theorem notes_checkFieldsIn {C : Context} {before after : List (String × Node)} {v : Value}
    (hroot : C.fill (shape (before ++ after)) = root)
    (hfields : ∀ e ∈ after, NotedIn o root p e.2) :
    Notes (root.CanReport p) (checkFieldsIn o.notingAt p C v before after)
      (checkFields (o.noting id) (C.holePath p) v after)
      (checkFields o (C.holePath p) v after) := by
  induction after generalizing before with
  | nil => exact Notes.pure ()
  | cons e after ih =>
    obtain ⟨k, n⟩ := e
    obtain ⟨hhead, htail⟩ := List.forall_mem_cons.mp hfields
    have hnode := hhead.below (D := .shape before k .hole after) hroot (v.get? k)
    have hrest : C.fill (shape ((before ++ [(k, n)]) ++ after)) = root := by
      rw [List.append_assoc]
      exact hroot
    exact Notes.bind hnode fun _ => ih hrest htail

/-- **A check that knows its place does what the check does**, and notes only what the schema
can report. -/
theorem notedIn (o : Options (ExceptT ε (StateM σ))) (root : Node) (p : Path) (n : Node) :
    NotedIn o root p n := by
  -- the place grows on the way down, and its hole is filled with the node that is left
  induction n with
  | kind k =>
    intro C hroot x
    exact Notes.checkKind ⟨kind k, k, hroot, rfl, rfl⟩ x
  | any =>
    intro C hroot x
    exact Notes.pure ()
  | optional inner ih =>
    intro C hroot x
    cases x with
    | none => exact Notes.pure ()
    | some v =>
      cases v with
      | null => exact Notes.pure ()
      | _ => exact ih.below (D := .optional .hole) hroot _
  | arrayOf element ih =>
    intro C hroot x
    rw [checkIn, check, check]
    cases x.bind Value.items? with
    | none => exact Notes.report ⟨arrayOf element, .array, hroot, rfl, rfl⟩
    | some items => exact Notes.forM items fun v _ => ih.below (D := .arrayOf .hole) hroot (some v)
  | shape fields ih =>
    intro C hroot x
    rw [checkIn, check, check]
    cases x.filter Value.isObjectLike with
    | none => exact Notes.report ⟨shape fields, .object, hroot, rfl, rfl⟩
    | some v =>
      have hfields : C.fill (shape ([] ++ fields)) = root := hroot
      exact notes_checkFieldsIn hfields ih
  | ref inner ih =>
    intro C hroot x
    exact ih.below (D := .ref .hole) hroot x

/-- A run of the check that notes its failures: what it returns, what the options leave, and the
failures. -/
def notedRun (o : Options (ExceptT ε (StateM σ))) (n : Node) (p : Path) (x : Option Value)
    (s : σ) : Except ε Unit × σ × List Failure :=
  (n.checkIn o.notingAt p .hole x).run.run (s, [])

/-- The failures that a run reports, in order. -/
def failures (o : Options (ExceptT ε (StateM σ))) (n : Node) (p : Path) (x : Option Value)
    (s : σ) : List Failure :=
  (n.notedRun o p x s).2.2

/-- A run that notes its failures is the run of the check otherwise. What it notes is what the
check reports, and what the schema can report. -/
theorem notedRun_eq (o : Options (ExceptT ε (StateM σ))) (n : Node) (p : Path)
    (x : Option Value) (s : σ) :
    n.notedRun o p x s =
        (((n.check o p x).run.run s).1, ((n.check o p x).run.run s).2, n.failures o p x s) ∧
      (n.check (o.noting id) p x).run.run (s, []) =
        (((n.check o p x).run.run s).1, ((n.check o p x).run.run s).2,
          (n.failures o p x s).map Failure.mismatch) ∧
      ∀ f ∈ n.failures o p x s, n.CanReport p f := by
  have hnotes : Notes (n.CanReport p) (n.checkIn o.notingAt p .hole x)
      (n.check (o.noting id) p x) (n.check o p x) := notedIn o n p n .hole rfl x
  obtain ⟨new, hnew, hplaced, hnoted⟩ := hnotes s [] []
  have hfailures : n.failures o p x s = new := by
    rw [failures, notedRun, hplaced, List.nil_append]
  rw [hfailures]
  exact ⟨hplaced, hnoted, hnew⟩

/-- What a schema can report about a field, it reports from one test. -/
theorem CanReport.unique {n : Node} (hdistinct : n.DistinctKeys) (hsegments : n.SegmentKeys)
    {f f' : Failure} (h : n.CanReport p f) (h' : n.CanReport p f')
    (hfield : f.mismatch.field = f'.mismatch.field) :
    f.place = f'.place ∧ f.mismatch.expected = f'.mismatch.expected := by
  obtain ⟨m, k, hfill, hm, hmismatch⟩ := h
  obtain ⟨m', k', hfill', hm', hmismatch'⟩ := h'
  have hpath : (p.descend f.place.steps).render = (p.descend f'.place.steps).render := by
    rw [← Context.holePath_eq_descend, ← Context.holePath_eq_descend]
    rwa [hmismatch, hmismatch'] at hfield
  have hsteps : f.place.steps = f'.place.steps :=
    Path.descend_inj (Context.isSegment_of_mem_steps (hfill ▸ hsegments))
      (Context.isSegment_of_mem_steps (hfill' ▸ hsegments)) hpath
  obtain ⟨hplace, rfl⟩ := Context.eq_of_steps_eq (hfill ▸ hdistinct) (hfill.trans hfill'.symm)
    (Option.isSome_iff_exists.mpr ⟨k, hm⟩) (Option.isSome_iff_exists.mpr ⟨k', hm'⟩) hsteps
  obtain rfl := Option.some.inj (hm.symm.trans hm')
  exact ⟨hplace, by rw [hmismatch, hmismatch']; rfl⟩

/-- **A field pinpoints one test of the schema.** Steps whose keys are segments are told apart by
the text of their path, from every label. So where all keys of a schema are segments, two
failures with the same field come from the same place, and expected the same, in any two runs
from one path: on any values, and with any options, which may stop the run and depend on all
that has happened. A run that notes its failures is the run of the check otherwise; their
mismatches are those that the check reports, and their places are those of tests of the schema,
each with its kind and its path. -/
theorem field_pinpoints_test :
    (∀ (label : String) (xs ys : List Step), (∀ s ∈ xs, s.IsSegment) → (∀ s ∈ ys, s.IsSegment) →
      Path.render ⟨label, xs⟩ = Path.render ⟨label, ys⟩ → xs = ys) ∧
    (∀ (n : Node) (p : Path) {σ ε : Type} (o : Options (ExceptT ε (StateM σ)))
      (x : Option Value) (s : σ),
      n.notedRun o p x s =
          (((n.check o p x).run.run s).1, ((n.check o p x).run.run s).2, n.failures o p x s) ∧
        (n.check (o.noting id) p x).run.run (s, []) =
          (((n.check o p x).run.run s).1, ((n.check o p x).run.run s).2,
            (n.failures o p x s).map Failure.mismatch) ∧
        ∀ f ∈ n.failures o p x s, n.CanReport p f) ∧
    ∀ n : Node, n.DistinctKeys → n.SegmentKeys → ∀ (p : Path) {σ ε σ' ε' : Type}
      (o : Options (ExceptT ε (StateM σ))) (o' : Options (ExceptT ε' (StateM σ')))
      (x x' : Option Value) (s : σ) (s' : σ'),
      ∀ f ∈ n.failures o p x s, ∀ f' ∈ n.failures o' p x' s',
        f.mismatch.field = f'.mismatch.field →
          f.place = f'.place ∧ f.mismatch.expected = f'.mismatch.expected := by
  refine ⟨fun label xs ys hxs hys h => ?_, fun n p _ _ o x s => notedRun_eq o n p x s, ?_⟩
  · exact Path.descend_inj (p := ⟨label, []⟩) hxs hys h
  · intro n hdistinct hsegments p σ ε σ' ε' o o' x x' s s' f hf f' hf' hfield
    have hf := (notedRun_eq o n p x s).2.2 f hf
    have hf' := (notedRun_eq o' n p x' s').2.2 f' hf'
    exact hf.unique hdistinct hsegments hf' hfield

/-- An optional list of embedded names, and an unnamed date: a run that reads no dates and goes
on, and one that stops, both report a name, and it is the same test. -/
theorem field_pinpoints_test_names :
    let n := shape [("names", optional (arrayOf (ref (kind .string)))), ("", kind .date)]
    let o := Options.logged (fun _ => none) (Handler.goOn : Handler Empty)
    let o' := Options.logged Value.millis? fun _ e => .error e
    let x := some (.object [("names", .array [.string "a", .null])])
    let x' := some (.object [("names", .array [.bool true]), ("", .null)])
    n.DistinctKeys ∧ n.SegmentKeys ∧
      ∃ f ∈ n.failures o Path.root x [], ∃ f' ∈ n.failures o' Path.root x' [],
        f.mismatch = ⟨"value.names.$", "string"⟩ ∧ f.place = f'.place ∧
          f.mismatch.expected = f'.mismatch.expected := by
  intro n o o' x x'
  have hdistinct : n.DistinctKeys := by
    refine distinctKeys_shape_iff.mpr ⟨by decide, ?_⟩
    simp [DistinctKeys, KeysHold]
  have hsegments : n.SegmentKeys := by
    refine keysHold_shape_iff.mpr ⟨?_, by simp [KeysHold]⟩
    simp [Fields.keys, Step.IsSegment]
  let place : Context := .shape [] "names" (.optional (.arrayOf (.ref .hole))) [("", kind .date)]
  let name : Failure := ⟨place, ⟨"value.names.$", "string"⟩⟩
  have hfailures : n.failures o Path.root x [] =
      [name, ⟨.shape [("names", optional (arrayOf (ref (kind .string))))] "" .hole [],
        ⟨"value.", "Date"⟩⟩] := rfl
  have hfailures' : n.failures o' Path.root x' [] = [name] := rfl
  have hmem : name ∈ n.failures o Path.root x [] := by rw [hfailures]; exact List.mem_cons_self
  have hmem' : name ∈ n.failures o' Path.root x' [] := by rw [hfailures']; exact List.mem_cons_self
  exact ⟨hdistinct, hsegments, name, hmem, name, hmem', rfl,
    field_pinpoints_test.2.2 n hdistinct hsegments Path.root o o' x x' [] [] name hmem name hmem'
      rfl⟩

-- a key with a point can be taken for two
example : (Path.root.key "a.b").render = ((Path.root.key "a").key "b").render := by decide

end Node

end

end Conform
