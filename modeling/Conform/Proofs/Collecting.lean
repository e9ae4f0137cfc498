import Conform.Proofs.Lineage
import Conform.Proofs.Stopping

/-!
# Collectors lose nothing

A storage is an account: checks through schemas of its lineage pay in what they
find, and `take` pays out all there is. The account balances after any history of
commands, over any number of collectors, shared handles, kept options, clones and
embedded schemas: what was taken from a storage, followed by what is in it, is
what was found for it, in order and without a change.

- `found`: what was found for a storage, told by the commands alone;
- `taken`: what the answers to `take` handed out of it;
- `Session.contents_next`: **one command balances**, where `payIn` is what it
  finds and `payOut` what it hands out;
- `Session.taken_append_contents`: so does every history, by induction over it.
-/

namespace Conform

/-- What a command finds for a storage: all mismatches of a value, if it checks one
through a schema whose own options came from there. -/
def Lineage.payIn (l : Lineage) (i : Nat) : Session.Command → List Mismatch
  | .validate name x =>
    match l.schema name with
    | some (root, origin) =>
      if origin = some i then root.mismatches Value.millis? Path.root x else []
    | none => []
  | _ => []

namespace Session

/-- What the answer to a command hands out of a storage. -/
def payOut (l : Lineage) (i : Nat) : Command → Except Failure (Reply × Session) → List Mismatch
  | .take name, .ok (.taken found, _) => if l.collector name = some i then found else []
  | _, _ => []

/-- All that was found for a storage, in the order of the commands. -/
def found (i : Nat) : History → List Mismatch
  | [] => []
  | c :: past => found i past ++ (lineageAfter past).payIn i c

/-- All that was taken from a storage, in the order of the commands. -/
def taken (i : Nat) : History → List Mismatch
  | [] => []
  | c :: past => taken i past ++ payOut (lineageAfter past) i c ((after past).run c)

/-! ## The contents of storages -/

/-- A storage that was made has the contents it is given, and no other storage changes. -/
theorem contents_setContents {s : Session} {j : Nat} (hj : j < s.storages.length)
    (found : List Mismatch) (i : Nat) :
    (s.setContents j found).contents i = if j = i then found else s.contents i := by
  rw [contents, setContents, List.getElem?_set]
  by_cases hji : j = i
  · subst hji
    simp [hj]
  · simp [hji, contents]

/-- A new storage is empty, as one that was not made. -/
theorem contents_newStorage (s : Session) (i : Nat) :
    contents { s with storages := s.storages ++ [[]] } i = s.contents i := by
  rw [contents, contents, List.getElem?_append]
  by_cases hi : i < s.storages.length
  · rw [if_pos hi]
  · rw [if_neg hi, List.getElem?_eq_none (Nat.le_of_not_lt hi)]
    cases i - s.storages.length with
    | zero => rfl
    | succ k => rfl

/-- A check through a schema pays in what it finds, to the storage of its options. -/
theorem contents_validate {s : Session} {e : SessionSchema}
    (hmade : ∀ j, e.policy.origin? = some j → j < s.storages.length) (x : Option Value)
    (i : Nat) :
    (s.validate e x).2.contents i = s.contents i ++
      if e.policy.origin? = some i then e.root.mismatches Value.millis? Path.root x else [] := by
  obtain ⟨root, policy⟩ := e
  cases policy with
  | raise =>
    rw [validate, Policy.origin?, if_neg (by simp), List.append_nil]
    cases Schema.validateMaybe ⟨root, Options.raise⟩ x with
    | ok u => rfl
    | error e => rfl
  | collect name j =>
    show (s.setContents j ((Schema.validateMaybe ⟨root, Options.collect⟩ x).run
      (s.contents j)).2).contents i = _
    rw [contents_setContents (hmade j rfl), Node.validateMaybe_collect, Policy.origin?]
    by_cases hji : j = i
    · subst hji
      rw [if_pos rfl, if_pos rfl]
    · rw [if_neg hji, if_neg (by simpa using hji), List.append_nil]

/-- Through a schema that gathers mismatches every check goes through. -/
theorem validate_reply {s : Session} {e : SessionSchema} {i : Nat}
    (he : e.policy.origin? = some i) (x : Option Value) :
    ∃ n, (s.validate e x).1 = .collected n := by
  obtain ⟨root, policy⟩ := e
  cases policy with
  | raise => cases he
  | collect name j => exact ⟨_, rfl⟩

/-- **One command balances**: what it hands out of a storage and what it leaves there are
what was there and what it finds. -/
theorem contents_next {s : Session} (hs : s.lineage.InRange) (c : Command) (i : Nat) :
    payOut s.lineage i c (s.run c) ++ (s.next c).contents i =
      s.contents i ++ s.lineage.payIn i c := by
  -- all commands but these three leave the storages alone
  have hquiet : [] ++ s.contents i = s.contents i ++ [] := (List.append_nil _).symm
  cases c with
  | newCollector name =>
    show [] ++ contents { s with storages := s.storages ++ [[]] } i = s.contents i ++ []
    rw [contents_newStorage]
    exact hquiet
  | validate name x =>
    rw [next, run, schema?, Lineage.payIn, lineage_schema]
    cases hname : s.schemas.lookup name with
    | none => exact hquiet
    | some e =>
      refine contents_validate ?_ x i
      intro j hj
      refine hs.schema name e.root j ?_
      rw [lineage_schema, hname, ← hj]
      rfl
  | take name =>
    rw [next, run, storage?]
    cases hname : s.collectors.lookup name with
    | none => exact hquiet
    | some j =>
      show (if s.collectors.lookup name = some i then s.contents j else []) ++
        (s.setContents j []).contents i = s.contents i ++ []
      rw [contents_setContents (hs.collector name j hname), hname, List.append_nil]
      by_cases hji : j = i
      · subst hji
        rw [if_pos rfl, if_pos rfl, List.append_nil]
      · rw [if_neg hji, if_neg (by simpa using hji), List.nil_append]
  | shareCollector name source =>
    rw [next, run, storage?]
    cases s.collectors.lookup source with
    | none => exact hquiet
    | some j => exact hquiet
  | keepOptions name choice =>
    rw [next, run]
    cases s.policy? choice with
    | error e => exact hquiet
    | ok policy => exact hquiet
  | compile name choice source =>
    rw [next, run]
    cases s.policy? choice with
    | error e => exact hquiet
    | ok policy =>
      cases source.root with
      | error e => exact hquiet
      | ok root => exact hquiet
  | length name =>
    rw [next, run, storage?]
    cases s.collectors.lookup name with
    | none => exact hquiet
    | some j => exact hquiet
  | clone name source =>
    rw [next, run, schema?]
    cases s.schemas.lookup source with
    | none => exact hquiet
    | some e => exact hquiet
  | drop name => exact hquiet
  | equal name other =>
    rw [next, run, schema?, schema?]
    cases s.schemas.lookup name with
    | none => exact hquiet
    | some a =>
      cases s.schemas.lookup other with
      | none => exact hquiet
      | some b => exact hquiet
  | summary name =>
    rw [next, run, schema?]
    cases s.schemas.lookup name with
    | none => exact hquiet
    | some e => exact hquiet

/-! ## Whole histories -/

/-- The contents after one more command, in terms of what the history says. -/
theorem contents_after_cons (c : Command) (past : History) (i : Nat) :
    payOut (lineageAfter past) i c ((after past).run c) ++ (after (c :: past)).contents i =
      (after past).contents i ++ (lineageAfter past).payIn i c := by
  have hrange : (after past).lineage.InRange := by
    rw [lineage_after]
    exact inRange_after past
  have hnext := contents_next hrange c i
  rw [lineage_after] at hnext
  exact hnext

/-- **The account balances** after every history. The induction is over the commands;
what the last one pays in stands behind all that was found before it. -/
theorem taken_append_contents (past : History) (i : Nat) :
    taken i past ++ (after past).contents i = found i past := by
  induction past with
  | nil => rfl
  | cons c past ih =>
    rw [taken, found, ← ih, List.append_assoc, List.append_assoc, contents_after_cons]

/-- What a history says about a schema is in the tables. -/
theorem schema?_after {past : History} {name : String} {root : Node} {origin : Option Nat}
    (h : (lineageAfter past).schema name = some (root, origin)) :
    ∃ e, (after past).schema? name = .ok e ∧ e.root = root ∧ e.policy.origin? = origin := by
  rw [← lineage_after, lineage_schema] at h
  obtain ⟨e, he, heq⟩ := Option.map_eq_some_iff.mp h
  obtain ⟨hroot, horigin⟩ := Prod.mk.inj heq
  refine ⟨e, ?_, hroot, horigin⟩
  rw [schema?, he]

/-- What a history says about a collector is in the tables. -/
theorem storage?_after {past : History} {name : String} {i : Nat}
    (h : (lineageAfter past).collector name = some i) : (after past).storage? name = .ok i := by
  rw [storage?_eq, lineage_after, h]

/-- A check through a schema with other options leaves a storage as it is. -/
theorem contents_after_validate_other {past : History} {name : String} {i : Nat}
    (hother : ∀ root, (lineageAfter past).schema name ≠ some (root, some i))
    (x : Option Value) :
    (after (.validate name x :: past)).contents i = (after past).contents i := by
  have hnone : (lineageAfter past).payIn i (.validate name x) = [] := by
    rw [Lineage.payIn]
    cases hschema : (lineageAfter past).schema name with
    | none => rfl
    | some e =>
      obtain ⟨root, origin⟩ := e
      refine if_neg ?_
      rintro rfl
      exact hother root hschema
  have hnext := contents_after_cons (.validate name x) past i
  rw [hnone, List.append_nil] at hnext
  exact hnext

/-- A check through a schema that gathers mismatches goes through. -/
theorem run_validate_collected {past : History} {name : String} {root : Node} {i : Nat}
    (h : (lineageAfter past).schema name = some (root, some i)) (x : Option Value) :
    ∃ n s, (after past).run (.validate name x) = .ok (.collected n, s) := by
  obtain ⟨e, he, -, horigin⟩ := schema?_after h
  obtain ⟨n, hn⟩ := validate_reply (s := after past) horigin x
  refine ⟨n, ((after past).validate e x).2, ?_⟩
  rw [run, he, ← hn]
  rfl

/-- A collector counts what is in its storage. -/
theorem run_length {past : History} {name : String} {i : Nat}
    (h : (lineageAfter past).collector name = some i) :
    (after past).run (.length name) =
      .ok (.length ((after past).contents i).length, after past) := by
  rw [run, storage?_after h]
  rfl

/-- A collector takes away what is in its storage. -/
theorem run_take {past : History} {name : String} {i : Nat}
    (h : (lineageAfter past).collector name = some i) :
    (after past).run (.take name) =
      .ok (.taken ((after past).contents i), (after past).setContents i []) := by
  rw [run, storage?_after h]
  rfl

/-- What a collector takes away is all there is. -/
theorem contents_after_take {past : History} {name : String} {i : Nat}
    (h : (lineageAfter past).collector name = some i) :
    (after (.take name :: past)).contents i = [] := by
  have hmade : i < (after past).storages.length := by
    have hrange := (inRange_after past).collector name i h
    rw [← lineage_after] at hrange
    exact hrange
  rw [after, next, run_take h]
  show ((after past).setContents i []).contents i = []
  rw [contents_setContents hmade, if_pos rfl]

/-- **Collectors lose nothing, duplicate nothing and mix nothing.** For every history of
commands and every storage, all that was taken from it so far and what is in it are
together what the checks through schemas of its own options found, in order; schemas
embedded in these do not matter. A check through any other schema leaves it as it is; a
check through one of its schemas goes through; and each of its collectors counts what is
in it, and takes that away, all of it. -/
theorem storage_accounts (past : History) (i : Nat) :
    taken i past ++ (after past).contents i = found i past ∧
      (∀ name x, (∀ root, (lineageAfter past).schema name ≠ some (root, some i)) →
        (after (.validate name x :: past)).contents i = (after past).contents i) ∧
      (∀ name root x, (lineageAfter past).schema name = some (root, some i) →
        ∃ n s, (after past).run (.validate name x) = .ok (.collected n, s)) ∧
      ∀ name, (lineageAfter past).collector name = some i →
        (after past).run (.length name) =
            .ok (.length ((after past).contents i).length, after past) ∧
          (∃ s, (after past).run (.take name) = .ok (.taken ((after past).contents i), s)) ∧
          (after (.take name :: past)).contents i = [] := by
  refine ⟨taken_append_contents past i, ?_, ?_, ?_⟩
  · intro name x hother
    exact contents_after_validate_other hother x
  · intro name root x hschema
    exact run_validate_collected hschema x
  · intro name hcollector
    exact ⟨run_length hcollector, ⟨_, run_take hcollector⟩, contents_after_take hcollector⟩

/-- A schema compiled with the first of two collectors is embedded in one compiled with
the second: what the latter finds is the second's alone. -/
example :
    let inner : Node := .optional (.kind .number)
    let past : History :=
      [.validate "outer" (some (.object [("n", .bool true)])),
        .compile "outer" (.collector "b") (.description (.shape [("n", .schema inner)])),
        .compile "inner" (.collector "a") (.node inner), .newCollector "b", .newCollector "a"]
    found 0 past = [] ∧ found 1 past = [.ofKind (Path.root.key "n") .number] := by
  decide

end Session

end Conform
