import Conform.Session
import Mathlib.Logic.Function.Basic

/-!
# What the names of a session stand for

Which storage a name stands for can be told from the commands alone, without a
session: a new collector has the next storage, and whatever is made from a
collector, from options or from a schema has the storage of what it is made
from, or none. The source of a schema says nothing about it, whatever schemas it
embeds.

- `Lineage`: what all names stand for; `Lineage.next` carries it over one command;
- `Session.lineage`: the lineage that the tables of a session hold;
- `Session.lineage_next`: **one command does the same to both**, whether it
  succeeds or fails;
- `Session.lineage_after`: so the tables hold, after any history of commands, what
  the commands say.
-/

namespace Conform

/-- What the names of a session stand for. Storages are numbered in the order of their
making; options and schemas that stop at the first mismatch have none. -/
structure Lineage where
  /-- how many storages were made -/
  made : Nat := 0
  /-- the storage of a collector -/
  collector : String → Option Nat := fun _ => none
  /-- the storage that options came from -/
  options : String → Option (Option Nat) := fun _ => none
  /-- the root of a schema, and the storage that its own options came from -/
  schema : String → Option (Node × Option Nat) := fun _ => none

namespace Lineage

/-- The storage of the options that a choice stands for. -/
def origin? (l : Lineage) : Session.PolicyChoice → Option (Option Nat)
  | .raise => some none
  | .collector name => (l.collector name).map some
  | .sameAs name => (l.schema name).map Prod.snd
  | .kept name => l.options name

/-- What the names stand for after a command. -/
def next (l : Lineage) : Session.Command → Lineage
  | .newCollector name =>
    { l with
      made := l.made + 1
      collector := Function.update l.collector name (some l.made) }
  | .shareCollector name source =>
    match l.collector source with
    | some i => { l with collector := Function.update l.collector name (some i) }
    | none => l
  | .keepOptions name choice =>
    match l.origin? choice with
    | some origin => { l with options := Function.update l.options name (some origin) }
    | none => l
  | .compile name choice source =>
    match l.origin? choice, source.root with
    | some origin, .ok root =>
      { l with schema := Function.update l.schema name (some (root, origin)) }
    | _, _ => l
  | .clone name source =>
    match l.schema source with
    | some e => { l with schema := Function.update l.schema name (some e) }
    | none => l
  | .drop name => { l with schema := Function.update l.schema name none }
  | .validate _ _ => l
  | .take _ => l
  | .length _ => l
  | .equal _ _ => l
  | .summary _ => l

/-- Every storage that a name stands for was made. -/
structure InRange (l : Lineage) : Prop where
  collector : ∀ name i, l.collector name = some i → i < l.made
  options : ∀ name i, l.options name = some (some i) → i < l.made
  schema : ∀ name root i, l.schema name = some (root, some i) → i < l.made

namespace InRange

variable {l : Lineage}

/-- The storage that a choice stands for was made. -/
theorem origin (h : l.InRange) {choice : Session.PolicyChoice} {i : Nat}
    (hi : l.origin? choice = some (some i)) : i < l.made := by
  cases choice with
  | raise => cases hi
  | collector name =>
    obtain ⟨j, hj, heq⟩ := Option.map_eq_some_iff.mp hi
    obtain rfl := Option.some.inj heq
    exact h.collector name j hj
  | sameAs name =>
    obtain ⟨⟨root, o⟩, hroot, rfl⟩ := Option.map_eq_some_iff.mp hi
    exact h.schema name root i hroot
  | kept name => exact h.options name i hi

/-- A name may be given to a storage that was made. -/
theorem update_collector (h : l.InRange) (name : String) {i : Nat} (hi : i < l.made) :
    InRange { l with collector := Function.update l.collector name (some i) } := by
  refine ⟨?_, h.options, h.schema⟩
  refine (Function.forall_update_iff l.collector fun _ e => ∀ j, e = some j → j < l.made).mpr
    ⟨?_, fun other _ => h.collector other⟩
  rintro j ⟨rfl⟩
  exact hi

/-- Options may be kept that have no storage but one that was made. -/
theorem update_options (h : l.InRange) (name : String) {origin : Option Nat}
    (hi : ∀ i, origin = some i → i < l.made) :
    InRange { l with options := Function.update l.options name (some origin) } := by
  refine ⟨h.collector, ?_, h.schema⟩
  refine (Function.forall_update_iff l.options
    fun _ e => ∀ j, e = some (some j) → j < l.made).mpr ⟨?_, fun other _ => h.options other⟩
  intro j hj
  exact hi j (Option.some.inj hj)

/-- A name may be given to a schema, or to none, that has no storage but one that was
made. -/
theorem update_schema (h : l.InRange) (name : String) {e : Option (Node × Option Nat)}
    (hi : ∀ root i, e = some (root, some i) → i < l.made) :
    InRange { l with schema := Function.update l.schema name e } := by
  refine ⟨h.collector, h.options, ?_⟩
  exact (Function.forall_update_iff l.schema
    fun _ e => ∀ root j, e = some (root, some j) → j < l.made).mpr
    ⟨hi, fun other _ => h.schema other⟩

/-- **No command loses the range**: what it names, it made or found. -/
theorem next (h : l.InRange) (c : Session.Command) : (l.next c).InRange := by
  cases c with
  | newCollector name =>
    -- the new storage comes after all that were made
    have hmore : InRange { l with made := l.made + 1 } :=
      ⟨fun n i hi => Nat.lt_succ_of_lt (h.collector n i hi),
        fun n i hi => Nat.lt_succ_of_lt (h.options n i hi),
        fun n root i hi => Nat.lt_succ_of_lt (h.schema n root i hi)⟩
    exact hmore.update_collector name (Nat.lt_succ_self l.made)
  | shareCollector name source =>
    rw [Lineage.next]
    cases hsource : l.collector source with
    | none => exact h
    | some i => exact h.update_collector name (h.collector source i hsource)
  | keepOptions name choice =>
    rw [Lineage.next]
    cases hchoice : l.origin? choice with
    | none => exact h
    | some origin =>
      refine h.update_options name ?_
      rintro i rfl
      exact h.origin hchoice
  | compile name choice source =>
    rw [Lineage.next]
    cases hchoice : l.origin? choice with
    | none => exact h
    | some origin =>
      cases source.root with
      | error e => exact h
      | ok root =>
        refine h.update_schema name ?_
        intro root' i hi
        obtain ⟨-, rfl⟩ := Prod.mk.inj (Option.some.inj hi)
        exact h.origin hchoice
  | clone name source =>
    rw [Lineage.next]
    cases hsource : l.schema source with
    | none => exact h
    | some e =>
      refine h.update_schema name ?_
      rintro root i hi
      exact h.schema source root i (hsource.trans hi)
  | drop name => exact h.update_schema name fun _ _ hi => (nomatch hi)
  | validate name x => exact h
  | take name => exact h
  | length name => exact h
  | equal name other => exact h
  | summary name => exact h

end InRange

end Lineage

/-! ## The tables of a session -/

/-- The storage that a policy gathers in. -/
def Policy.origin? : Policy → Option Nat
  | raise => none
  | collect _ storage => some storage

namespace Session

/-- What the tables of a session say that its names stand for. -/
def lineage (s : Session) : Lineage where
  made := s.storages.length
  collector name := s.collectors.lookup name
  options name := (s.options.lookup name).map Policy.origin?
  schema name := (s.schemas.lookup name).map fun e => (e.root, e.policy.origin?)

/-- The session after a command; one that fails changes nothing. -/
def next (s : Session) (c : Command) : Session :=
  match s.run c with
  | .ok (_, s') => s'
  | .error _ => s

/-- What a collector's name stands for is looked up in the tables. -/
theorem storage?_eq (s : Session) (name : String) :
    s.storage? name = match s.lineage.collector name with
      | some i => .ok i
      | none => .error (.unknownName name) := rfl

/-- So is what a schema's name stands for. -/
theorem lineage_schema (s : Session) (name : String) :
    s.lineage.schema name = (s.schemas.lookup name).map fun e => (e.root, e.policy.origin?) :=
  rfl

/-- What a choice stands for in the tables. -/
theorem origin?_lineage (s : Session) (choice : PolicyChoice) :
    s.lineage.origin? choice = (s.policy? choice).toOption.map Policy.origin? := by
  cases choice with
  | raise => rfl
  | collector name =>
    rw [policy?, storage?]
    show (s.collectors.lookup name).map some = _
    cases s.collectors.lookup name with
    | none => rfl
    | some i => rfl
  | sameAs name =>
    rw [policy?, schema?]
    show ((s.schemas.lookup name).map _).map Prod.snd = _
    cases s.schemas.lookup name with
    | none => rfl
    | some e => rfl
  | kept name =>
    rw [policy?, options?]
    show (s.options.lookup name).map Policy.origin? = _
    cases s.options.lookup name with
    | none => rfl
    | some policy => rfl

/-- The contents of storages do not matter to the lineage. -/
theorem lineage_setContents (s : Session) (i : Nat) (found : List Mismatch) :
    (s.setContents i found).lineage = s.lineage := by
  simp [lineage, setContents]

/-- A name given to a storage. -/
theorem lineage_setCollector (s : Session) (name : String) (i : Nat) :
    (s.setCollector name i).lineage =
      { s.lineage with
        collector := Function.update s.lineage.collector name (some i) } := by
  have hlookup : (fun x => (Fields.insert s.collectors name i).lookup x) =
      Function.update s.lineage.collector name (some i) := by
    funext x
    rw [Fields.lookup_insert, Function.update_apply]
    rfl
  rw [← hlookup]
  rfl

/-- A name given to options. -/
theorem lineage_setOptions (s : Session) (name : String) (policy : Policy) :
    (s.setOptions name policy).lineage =
      { s.lineage with
        options := Function.update s.lineage.options name (some policy.origin?) } := by
  have hlookup : (fun x => ((Fields.insert s.options name policy).lookup x).map Policy.origin?) =
      Function.update s.lineage.options name (some policy.origin?) := by
    funext x
    rw [Fields.lookup_insert, Function.update_apply, apply_ite (Option.map Policy.origin?)]
    rfl
  rw [← hlookup]
  rfl

/-- A name given to a schema. -/
theorem lineage_setSchema (s : Session) (name : String) (e : SessionSchema) :
    (s.setSchema name e).lineage =
      { s.lineage with
        schema := Function.update s.lineage.schema name (some (e.root, e.policy.origin?)) } := by
  have hlookup : (fun x => ((Fields.insert s.schemas name e).lookup x).map
      fun e => (e.root, e.policy.origin?)) =
      Function.update s.lineage.schema name (some (e.root, e.policy.origin?)) := by
    funext x
    rw [Fields.lookup_insert, Function.update_apply, apply_ite (Option.map _)]
    rfl
  rw [← hlookup]
  rfl

/-- A name that no longer stands for a schema. -/
theorem lineage_dropSchema (s : Session) (name : String) :
    lineage { s with schemas := s.schemas.filter (·.1 ≠ name) } =
      { s.lineage with schema := Function.update s.lineage.schema name none } := by
  have hlookup : (fun x => ((s.schemas.filter (·.1 ≠ name)).lookup x).map
      fun e => (e.root, e.policy.origin?)) =
      Function.update s.lineage.schema name none := by
    funext x
    rw [Fields.lookup_filter_ne, Function.update_apply, apply_ite (Option.map _)]
    rfl
  rw [← hlookup]
  rfl

/-- Checking a value changes no table. -/
theorem lineage_validate (s : Session) (e : SessionSchema) (x : Option Value) :
    (s.validate e x).2.lineage = s.lineage := by
  rw [validate]
  cases e.policy with
  | raise =>
    cases Schema.validateMaybe ⟨e.root, Options.raise⟩ x with
    | ok u => rfl
    | error e => rfl
  | collect name i => exact s.lineage_setContents i _

/-- **The tables follow the commands.** -/
theorem lineage_next (s : Session) (c : Command) : (s.next c).lineage = s.lineage.next c := by
  cases c with
  | newCollector name =>
    show ({ s with storages := s.storages ++ [[]] : Session }.setCollector name
      s.storages.length).lineage = _
    rw [lineage_setCollector]
    simp [lineage, Lineage.next]
  | shareCollector name source =>
    rw [next, run, Lineage.next, storage?_eq]
    cases s.lineage.collector source with
    | none => rfl
    | some i => exact s.lineage_setCollector name i
  | keepOptions name choice =>
    rw [next, run, Lineage.next, origin?_lineage]
    cases s.policy? choice with
    | error e => rfl
    | ok policy => exact s.lineage_setOptions name policy
  | compile name choice source =>
    -- the policy is looked up first; without a root the name is left as it was
    rw [next, run, Lineage.next, origin?_lineage]
    cases s.policy? choice with
    | error e => rfl
    | ok policy =>
      cases source.root with
      | error e => rfl
      | ok root => exact s.lineage_setSchema name ⟨root, policy⟩
  | validate name x =>
    rw [next, run, schema?]
    cases s.schemas.lookup name with
    | none => rfl
    | some e => exact s.lineage_validate e x
  | take name =>
    rw [next, run, storage?]
    cases s.collectors.lookup name with
    | none => rfl
    | some i => exact s.lineage_setContents i []
  | length name =>
    rw [next, run, storage?]
    cases s.collectors.lookup name with
    | none => rfl
    | some i => rfl
  | clone name source =>
    rw [next, run, Lineage.next, schema?, lineage_schema]
    cases s.schemas.lookup source with
    | none => rfl
    | some e => exact s.lineage_setSchema name e
  | drop name => exact s.lineage_dropSchema name
  | equal name other =>
    rw [next, run, schema?, schema?]
    cases s.schemas.lookup name with
    | none => rfl
    | some a =>
      cases s.schemas.lookup other with
      | none => rfl
      | some b => rfl
  | summary name =>
    rw [next, run, schema?]
    cases s.schemas.lookup name with
    | none => rfl
    | some e => rfl

end Session

/-! ## Histories -/

namespace Session

/-- The commands given so far to a session that was new, the latest first. -/
abbrev History := List Command

/-- The session that a history leads to. -/
def after : History → Session
  | [] => {}
  | c :: past => (after past).next c

/-- What a history says that names stand for. -/
def lineageAfter : History → Lineage
  | [] => {}
  | c :: past => (lineageAfter past).next c

/-- The tables hold what the history says. -/
theorem lineage_after (past : History) : (after past).lineage = lineageAfter past := by
  induction past with
  | nil => rfl
  | cons c past ih =>
    rw [after, lineage_next, ih]
    rfl

/-- Every storage that a name stands for is there. -/
theorem inRange_after (past : History) : (lineageAfter past).InRange := by
  induction past with
  | nil => exact ⟨fun _ _ h => (nomatch h), fun _ _ h => (nomatch h), fun _ _ _ h => (nomatch h)⟩
  | cons c past ih => exact ih.next c

end Session

end Conform
