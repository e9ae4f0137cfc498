import Conform.Schema

/-!
# Sessions

A session holds named schemas, named collectors and named options. A collector is a
handle on a storage of mismatches; handles can be shared, and options that were made
from a collector keep the storage they got then, as does a schema that was compiled
with it, whatever becomes of the name.

`Session.run` carries out one command. A command that fails changes nothing.
-/

namespace Conform

/-- What a schema of a session, or options kept for one, do about mismatches. -/
inductive Policy where
  /-- stop at the first -/
  | raise
  /-- gather them in a storage, which a collector of this name stood for -/
  | collect (collector : String) (storage : Nat)
deriving DecidableEq

/-- A named schema. -/
structure SessionSchema where
  root : Node
  policy : Policy

/-- The named things of a session, and the storages of its collectors. -/
structure Session where
  storages : List (List Mismatch) := []
  collectors : List (String × Nat) := []
  options : List (String × Policy) := []
  schemas : List (String × SessionSchema) := []

namespace Session

/-- How the policy of a new schema is chosen. -/
inductive PolicyChoice where
  /-- stop at the first mismatch -/
  | raise
  /-- that of a collector -/
  | collector (name : String)
  /-- that of another schema -/
  | sameAs (name : String)
  /-- that of options kept under a name -/
  | kept (name : String)

/-- A command. -/
inductive Command where
  /-- a new collector with a new storage -/
  | newCollector (name : String)
  /-- another handle on a collector's storage -/
  | shareCollector (name source : String)
  /-- keep options under a name -/
  | keepOptions (name : String) (policy : PolicyChoice)
  /-- compile a schema -/
  | compile (name : String) (policy : PolicyChoice) (source : Source)
  /-- check a possibly absent value -/
  | validate (name : String) (x : Option Value)
  /-- empty a collector's storage -/
  | take (name : String)
  /-- count what is in a collector's storage -/
  | length (name : String)
  /-- another name for a copy of a schema -/
  | clone (name source : String)
  /-- forget a schema -/
  | drop (name : String)
  /-- compare two schemas -/
  | equal (name other : String)
  /-- summarise a schema -/
  | summary (name : String)

/-- The answer to a command. -/
inductive Reply where
  | done
  | shared (length : Nat)
  | compiled (root : Node)
  | mismatch (e : Mismatch)
  | collected (length : Nat)
  | taken (mismatches : List Mismatch)
  | length (n : Nat)
  | dropped (existed : Bool)
  | equal (same : Bool)
  | summary (schema options : String)

/-- Why a command failed. -/
inductive Failure where
  /-- a name that stands for nothing -/
  | unknownName (name : String)
  /-- a schema that could not be built -/
  | schema (e : SchemaError)

/-! ## Looking things up -/

/-- The schema of this name. -/
def schema? (s : Session) (name : String) : Except Failure SessionSchema :=
  match s.schemas.lookup name with
  | some schema => .ok schema
  | none => .error (.unknownName name)

/-- The number of the storage behind a collector's name. -/
def storage? (s : Session) (name : String) : Except Failure Nat :=
  match s.collectors.lookup name with
  | some storage => .ok storage
  | none => .error (.unknownName name)

/-- The policy of the options kept under this name. -/
def options? (s : Session) (name : String) : Except Failure Policy :=
  match s.options.lookup name with
  | some policy => .ok policy
  | none => .error (.unknownName name)

/-- What is in a storage. -/
def contents (s : Session) (storage : Nat) : List Mismatch :=
  s.storages[storage]?.getD []

/-- The policy that a choice stands for. -/
def policy? (s : Session) : PolicyChoice → Except Failure Policy
  | .raise => .ok .raise
  | .collector name => (s.storage? name).map (.collect name)
  | .sameAs name => (s.schema? name).map (·.policy)
  | .kept name => s.options? name

/-! ## Changing things -/

/-- The session in which a storage holds these mismatches. -/
def setContents (s : Session) (storage : Nat) (mismatches : List Mismatch) : Session :=
  { s with storages := s.storages.set storage mismatches }

/-- The session in which a name stands for a storage. -/
def setCollector (s : Session) (name : String) (storage : Nat) : Session :=
  { s with collectors := Fields.insert s.collectors name storage }

/-- The session in which a name stands for options. -/
def setOptions (s : Session) (name : String) (policy : Policy) : Session :=
  { s with options := Fields.insert s.options name policy }

/-- The session in which a name stands for a schema. -/
def setSchema (s : Session) (name : String) (schema : SessionSchema) : Session :=
  { s with schemas := Fields.insert s.schemas name schema }

/-- Check a value against a schema of the session. The count in the answer is
that of the collector which now has the name of the schema's own. -/
def validate (s : Session) (schema : SessionSchema) (x : Option Value) : Reply × Session :=
  match schema.policy with
  | .raise =>
    match Schema.validateMaybe ⟨schema.root, Options.raise⟩ x with
    | .ok () => (.done, s)
    | .error e => (.mismatch e, s)
  | .collect name storage =>
    let found := (Schema.validateMaybe ⟨schema.root, Options.collect⟩ x).run (s.contents storage)
    let s := s.setContents storage found.2
    let current := (s.collectors.lookup name).getD storage
    (.collected (s.contents current).length, s)

/-- Carry out a command. -/
def run (s : Session) : Command → Except Failure (Reply × Session)
  | .newCollector name =>
    let fresh := { s with storages := s.storages ++ [[]] }
    .ok (.done, fresh.setCollector name s.storages.length)
  | .shareCollector name source => do
    let storage ← s.storage? source
    return (.shared (s.contents storage).length, s.setCollector name storage)
  | .keepOptions name choice => do
    let policy ← s.policy? choice
    return (.done, s.setOptions name policy)
  | .compile name choice source => do
    let policy ← s.policy? choice
    let root ← source.root.mapError .schema
    return (.compiled root, s.setSchema name ⟨root, policy⟩)
  | .validate name x => do
    let schema ← s.schema? name
    return s.validate schema x
  | .take name => do
    let storage ← s.storage? name
    return (.taken (s.contents storage), s.setContents storage [])
  | .length name => do
    let storage ← s.storage? name
    return (.length (s.contents storage).length, s)
  | .clone name source => do
    let schema ← s.schema? source
    return (.done, s.setSchema name schema)
  | .drop name =>
    let rest := s.schemas.filter (·.1 ≠ name)
    .ok (.dropped (s.schemas.lookup name).isSome, { s with schemas := rest })
  | .equal name other => do
    let a ← s.schema? name
    let b ← s.schema? other
    return (.equal (a.root.equal b.root), s)
  | .summary name => do
    let schema ← s.schema? name
    return (.summary schema.root.summary optionsSummary, s)
where
  /-- Options are functions, of which nothing can be shown. -/
  optionsSummary : String := "Options \x7b .. \x7d"

end Session

end Conform
