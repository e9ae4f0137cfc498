import Conform.Schema

/-!
# The calls of a check

All that `Node.check` does in the monad of its options is to call them: it asks
for the reading of a value as a date, and it reports mismatches. Where dates are
read by a pure function, the calls that a check would make if nothing stopped it
can be listed ahead of the run, and the monad no longer matters:

- `Node.calls`: that list, in order;
- `Node.check_eq_forM`: **a check is its calls**, made one after the other, in
  every lawful monad and whatever the options do at a call;
- `Node.logged`: a run that keeps a log of its calls and whose reports go to a
  handler that may stop it, and may look at the whole log to decide;
- `Node.mismatches`: the reports of a logged run that nothing stops.
-/

namespace Conform

/-- A call that a check makes to its options. -/
inductive Call where
  /-- the question what time a value denotes -/
  | readDate (v : Value)
  /-- the report of a mismatch -/
  | report (e : Mismatch)

namespace Call

/-- The value about which a call asks. -/
def asked? : Call → Option Value
  | readDate v => some v
  | report _ => none

/-- The mismatch that a call reports. -/
def reported? : Call → Option Mismatch
  | readDate _ => none
  | report e => some e

@[simp] theorem reported?_readDate (v : Value) : (readDate v).reported? = none := rfl

@[simp] theorem reported?_report (e : Mismatch) : (report e).reported? = some e := rfl

/-- What happens at a call: `note` when a date is asked for, `report` at a mismatch. -/
def perform {m : Type → Type} (note : Value → m Unit) (report : Mismatch → m Unit) :
    Call → m Unit
  | readDate v => note v
  | .report e => report e

end Call

/-! ## The list of calls -/

/-- Whether the test for one kind passes: a value of the kind does, and so does, as a
date, whatever reads as one. -/
def Kind.admits (parse : Value → Option Binary64) (k : Kind) : Option Value → Bool
  | none => false
  | some v => v.hasKind k || k == .date && (parse v).isSome

/-- The question that the test for one kind asks: what time a value denotes, where a
date is wanted and the value is none itself. -/
def Kind.question? (k : Kind) (x : Option Value) : Option Value :=
  x.filter fun v => k == .date && !v.isDate

/-- The calls of the test for one kind. -/
def Kind.calls (parse : Value → Option Binary64) (p : Path) (k : Kind) (x : Option Value) :
    List Call :=
  (k.question? x).toList.map .readDate ++
    if k.admits parse x then [] else [.report (.ofKind p k)]

/-- Whether a value is there, and not null. -/
def Present (x : Option Value) : Prop :=
  ∃ v, x = some v ∧ v.isNull = false

theorem not_present_iff {x : Option Value} : ¬ Present x ↔ x = none ∨ x = some .null := by
  constructor
  · intro h
    cases x with
    | none => exact .inl rfl
    | some v =>
      cases v with
      | null => exact .inr rfl
      | _ => exact absurd ⟨_, rfl, rfl⟩ h
  · rintro (rfl | rfl) ⟨v, hv, hnull⟩
    · cases hv
    · obtain rfl := Option.some.inj hv
      cases hnull

namespace Node

mutual

/-- The calls of a check that nothing stops, dates being read by `parse`. -/
def calls (parse : Value → Option Binary64) (p : Path) : Node → Option Value → List Call
  | kind k, x => k.calls parse p x
  | any, _ => []
  | optional inner, x =>
    match x with
    | none => []
    | some .null => []
    | some v => inner.calls parse p (some v)
  | arrayOf element, x =>
    match x.bind Value.items? with
    | some items => items.flatMap fun v => element.calls parse p.each (some v)
    | none => [.report (.ofKind p .array)]
  | shape fields, x =>
    match x.filter Value.isObjectLike with
    | some v => fieldCalls parse p v fields
    | none => [.report (.ofKind p .object)]
  | ref root, x => root.calls parse p x

/-- The calls of the checks of an object's declared fields. -/
def fieldCalls (parse : Value → Option Binary64) (p : Path) (v : Value) :
    List (String × Node) → List Call
  | [] => []
  | (k, n) :: fields => n.calls parse (p.key k) (v.get? k) ++ fieldCalls parse p v fields

end

/-- The fields of an object are checked one after the other. -/
theorem fieldCalls_eq_flatMap (parse : Value → Option Binary64) (p : Path) (v : Value)
    (fields : List (String × Node)) :
    fieldCalls parse p v fields =
      fields.flatMap fun e => e.2.calls parse (p.key e.1) (v.get? e.1) := by
  induction fields with
  | nil => rfl
  | cons e fields ih =>
    obtain ⟨k, n⟩ := e
    rw [fieldCalls, ih, List.flatMap_cons]

/-- Where something is there, `optional` makes no difference. -/
theorem calls_optional_of_present {parse : Value → Option Binary64} {p : Path} (inner : Node)
    {x : Option Value} (hx : Present x) :
    (optional inner).calls parse p x = inner.calls parse p x := by
  obtain ⟨v, rfl, hv⟩ := hx
  cases v with
  | null => cases hv
  | _ => rfl

/-- What is optional may be absent or null. -/
theorem calls_optional_of_not_present {parse : Value → Option Binary64} {p : Path}
    (inner : Node) {x : Option Value} (hx : ¬ Present x) :
    (optional inner).calls parse p x = [] := by
  rcases not_present_iff.mp hx with rfl | rfl
  · rfl
  · rfl

end Node

/-! ## A check is its calls -/

section

variable {m : Type → Type} [Monad m] [LawfulMonad m]

/-- The calls made for a list of values, one value after the other. -/
theorem forM_flatMap {α : Type} (f : Call → m Unit) (cs : α → List Call) (xs : List α) :
    (xs.flatMap cs).forM f = xs.forM fun x => (cs x).forM f := by
  induction xs with
  | nil => rfl
  | cons x xs ih =>
    rw [List.flatMap_cons]
    simp only [List.forM_eq_forM, List.forM_append, List.forM_cons] at ih ⊢
    rw [ih]

/-- The test for one kind makes its calls. -/
theorem Options.checkKind_eq_forM (o : Options m) (note : Value → m Unit)
    (parse : Value → Option Binary64) (hread : ∀ v, o.readDate v = do note v; pure (parse v))
    (p : Path) (k : Kind) (x : Option Value) :
    o.checkKind p k x = (k.calls parse p x).forM (Call.perform note o.report) := by
  cases x with
  | none => simp [checkKind, Kind.calls, Kind.question?, Kind.admits, Call.perform]
  | some v =>
    by_cases hk : v.hasKind k
    · -- a value of the kind is not asked about
      have hq : k.question? (some v) = none := by
        cases k <;> simp_all [Kind.question?, Value.hasKind]
      simp [checkKind, Kind.calls, Kind.admits, hk, hq]
    · by_cases hd : k = .date
      · subst hd
        have hq : Kind.date.question? (some v) = some v := by
          simp_all [Kind.question?, Value.hasKind]
        cases hp : parse v <;>
          simp [checkKind, Kind.calls, Kind.admits, hk, hq, hread, hp, Call.perform]
      · have hq : k.question? (some v) = none := by simp [Kind.question?, hd]
        simp [checkKind, Kind.calls, Kind.admits, hk, hd, hq, Call.perform]

/-- The checks of an object's fields make their calls one after the other. -/
theorem Node.checkFields_eq_forM {o : Options m} {note : Value → m Unit}
    {parse : Value → Option Binary64} {p : Path} {v : Value} {fields : List (String × Node)}
    (hfields : ∀ e ∈ fields, ∀ q x,
      e.2.check o q x = (e.2.calls parse q x).forM (Call.perform note o.report)) :
    Node.checkFields o p v fields =
      (Node.fieldCalls parse p v fields).forM (Call.perform note o.report) := by
  induction fields with
  | nil => rfl
  | cons e fields ih =>
    obtain ⟨k, n⟩ := e
    have hhead := hfields (k, n) List.mem_cons_self (p.key k) (v.get? k)
    have htail := ih fun e he => hfields e (List.mem_cons_of_mem _ he)
    simp only [List.forM_eq_forM] at hhead htail ⊢
    rw [checkFields, fieldCalls, List.forM_append, hhead, htail]

/-- **A check is its calls**: where dates are read by a pure function, with whatever
else happens when one is read, the check makes its calls one after the other. -/
theorem Node.check_eq_forM (o : Options m) (note : Value → m Unit)
    (parse : Value → Option Binary64) (hread : ∀ v, o.readDate v = do note v; pure (parse v))
    (n : Node) (p : Path) (x : Option Value) :
    n.check o p x = (n.calls parse p x).forM (Call.perform note o.report) := by
  induction n generalizing p x with
  | kind k => exact o.checkKind_eq_forM note parse hread p k x
  | any => rfl
  | optional inner ih =>
    cases x with
    | none => rfl
    | some v =>
      cases v with
      | null => rfl
      | _ => exact ih p _
  | arrayOf element ih =>
    rw [check, calls]
    cases x.bind Value.items? with
    | none => simp [Call.perform]
    | some items =>
      refine Eq.trans ?_ (forM_flatMap _ _ items).symm
      exact congrArg items.forM (funext fun v => ih p.each (some v))
  | shape fields ih =>
    rw [check, calls]
    cases x.filter Value.isObjectLike with
    | none => simp [Call.perform]
    | some v => exact checkFields_eq_forM ih
  | ref root ih => exact ih p x

end

/-! ## Logged runs -/

/-- What is done about a mismatch, given all calls before it: the run goes on, or it
stops with an error. -/
abbrev Handler (ε : Type) := List Call → Mismatch → Except ε Unit

/-- The handler that lets every run go on. -/
def Handler.goOn {ε : Type} : Handler ε := fun _ _ => .ok ()

/-- Options that log every call before it is answered. -/
def Options.logged {ε : Type} (parse : Value → Option Binary64) (h : Handler ε) :
    Options (ExceptT ε (StateM (List Call))) where
  readDate v := do
    modify (· ++ [.readDate v])
    return parse v
  report e := do
    let earlier ← get
    set (earlier ++ [Call.report e])
    ExceptT.mk (pure (h earlier e))

/-- A logged run: what the check returns, and the calls it made. -/
def Node.logged {ε : Type} (parse : Value → Option Binary64) (h : Handler ε) (n : Node)
    (p : Path) (x : Option Value) : Except ε Unit × List Call :=
  (n.check (Options.logged parse h) p x).run.run []

/-- The mismatches that a run reports if nothing stops it, in order. -/
def Node.mismatches (parse : Value → Option Binary64) (n : Node) (p : Path)
    (x : Option Value) : List Mismatch :=
  (n.logged parse (Handler.goOn : Handler Empty) p x).2.filterMap Call.reported?

/-- What a logged run does at a call. -/
abbrev Call.log {ε : Type} (h : Handler ε) : Call → ExceptT ε (StateM (List Call)) Unit :=
  Call.perform (fun v => modify (· ++ [.readDate v])) (Options.logged (fun _ => none) h).report

/-- A logged run makes the calls of the check, as far as the handler lets it. -/
theorem Node.logged_eq_forM {ε : Type} (parse : Value → Option Binary64) (h : Handler ε)
    (n : Node) (p : Path) (x : Option Value) :
    n.logged parse h p x = ((n.calls parse p x).forM (Call.log h)).run.run [] := by
  rw [logged, check_eq_forM (Options.logged parse h) (fun v => modify (· ++ [.readDate v])) parse
    fun _ => rfl]
  rfl

/-! ## Runs that gather mismatches -/

/-- A run that gathers mismatches adds the reports among its calls to what it had. -/
theorem Options.collect_forM (cs : List Call) (found : List Mismatch) :
    ((cs.forM (Call.perform (fun _ => pure ()) collect.report)).run found).2 =
      found ++ cs.filterMap Call.reported? := by
  induction cs generalizing found with
  | nil => exact (List.append_nil found).symm
  | cons c cs ih =>
    cases c with
    | readDate v => exact ih found
    | report e =>
      refine (ih (found ++ [e])).trans ?_
      simp

end Conform
