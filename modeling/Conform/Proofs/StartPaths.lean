import Conform.Proofs.Normalization
import Conform.Proofs.Stopping

/-!
# Where a path starts

Positions are counted from the path at which a description is read or a value is checked.
That path only labels what is said: from another one the same is said of the same places
below it.

- `Node.check_descend`: a check from `p` is the check from nowhere, with `p` put in front of
  every field that it reports, in every monad and so whatever the options do;
- `Node.calls_under`: the calls of a check, told by their fields below `p`;
- `start_only_labels`: **the start only labels**, of readings and of checks.

The law for readings, `Description.normalize_descend`, is about paths; here it is about
their texts.
-/

namespace Conform

/-! ## Fields counted from a path -/

namespace Path

/-- The start of paths that only say how to go on. -/
def nowhere : Path := { label := "" }

/-- The text of a longer path goes on from that of the path. -/
theorem render_descend (p : Path) (steps : List Step) :
    (p.descend steps).render = p.render ++ suffix steps := by
  rw [render, render, descend, suffix_append, String.append_assoc]

/-- The text of a path from nowhere is that of its steps. -/
theorem render_nowhere_descend (steps : List Step) :
    (nowhere.descend steps).render = suffix steps := by
  rw [render_descend]
  exact String.empty_append

end Path

/-- A mismatch whose field is counted from `p`, as it is reported. -/
def Mismatch.under (p : Path) (e : Mismatch) : Mismatch :=
  { e with field := p.render ++ e.field }

/-- A call whose field is counted from `p`, as it is made. -/
def Call.under (p : Path) : Call → Call
  | readDate v => readDate v
  | report e => report (e.under p)

/-- Options to which fields are reported that are counted from `p`. -/
def Options.under {m : Type → Type} (p : Path) (o : Options m) : Options m :=
  { o with report := fun e => o.report (e.under p) }

/-- The test for a kind reports the path at which it stands. -/
theorem Mismatch.ofKind_descend (p : Path) (steps : List Step) (k : Kind) :
    ofKind (p.descend steps) k = (ofKind (Path.nowhere.descend steps) k).under p := by
  rw [ofKind, ofKind, under, Path.render_descend, Path.render_nowhere_descend]

/-! ## Checks -/

section

variable {m : Type → Type} [Monad m]

/-- The test for a kind is the same from every path. -/
theorem Options.checkKind_descend (o : Options m) (p : Path) (steps : List Step) (k : Kind)
    (x : Option Value) :
    o.checkKind (p.descend steps) k x =
      (o.under p).checkKind (Path.nowhere.descend steps) k x := by
  cases x with
  | none => exact congrArg o.report (Mismatch.ofKind_descend p steps k)
  | some v =>
    rw [checkKind, checkKind, Mismatch.ofKind_descend p steps k]
    rfl

/-- The declared fields of an object are checked alike from every path, if their nodes are. -/
theorem Node.checkFields_descend {o : Options m} {p : Path} {fields : List (String × Node)}
    (hfields : ∀ e ∈ fields, ∀ (steps : List Step) (x : Option Value),
      e.2.check o (p.descend steps) x = e.2.check (o.under p) (Path.nowhere.descend steps) x)
    (steps : List Step) (v : Value) :
    checkFields o (p.descend steps) v fields =
      checkFields (o.under p) (Path.nowhere.descend steps) v fields := by
  induction fields with
  | nil => rfl
  | cons e fields ih =>
    obtain ⟨k, n⟩ := e
    obtain ⟨hhead, htail⟩ := List.forall_mem_cons.mp hfields
    rw [checkFields, checkFields, Path.key, Path.key, Path.descend_push, Path.descend_push,
      hhead, ih htail]

/-- **A check is the same from every path**, but for what it puts in front of the fields that
it reports. -/
theorem Node.check_descend (o : Options m) (p : Path) (n : Node) (steps : List Step)
    (x : Option Value) :
    n.check o (p.descend steps) x = n.check (o.under p) (Path.nowhere.descend steps) x := by
  -- on the way down the steps grow on both sides
  induction n generalizing steps x with
  | kind k => exact o.checkKind_descend p steps k x
  | any => rfl
  | optional inner ih =>
    cases x with
    | none => rfl
    | some v =>
      cases v with
      | null => rfl
      | _ => exact ih steps _
  | arrayOf element ih =>
    rw [check, check]
    cases x.bind Value.items? with
    | none => exact congrArg o.report (Mismatch.ofKind_descend p steps .array)
    | some items =>
      refine congrArg items.forM (funext fun v => ?_)
      rw [Path.each, Path.each, Path.descend_push, Path.descend_push]
      exact ih _ (some v)
  | shape fields ih =>
    rw [check, check]
    cases x.filter Value.isObjectLike with
    | none => exact congrArg o.report (Mismatch.ofKind_descend p steps .object)
    | some v => exact checkFields_descend ih steps v
  | ref root ih => exact ih steps x

/-- A check from a path is the check from nowhere, with the path put in front. -/
theorem Node.check_under (o : Options m) (p : Path) (n : Node) (x : Option Value) :
    n.check o p x = n.check (o.under p) Path.nowhere x := by
  have h := n.check_descend o p [] x
  rwa [Path.descend_nil, Path.descend_nil] at h

end

/-- A call is made under a path by putting the path in front of its field. -/
theorem Call.perform_under {m : Type → Type} (note : Value → m Unit) (o : Options m) (p : Path)
    (c : Call) : c.perform note (o.under p).report = (c.under p).perform note o.report := by
  cases c <;> rfl

/-- **The calls of a check are the same from every path**, but for what stands in front of
their fields. -/
theorem Node.calls_under (parse : Value → Option Binary64) (p : Path) (n : Node)
    (x : Option Value) :
    n.calls parse p x = (n.calls parse Path.nowhere x).map (Call.under p) := by
  -- both are what a run from `p` logs that nothing stops
  let o := Options.logged parse (Handler.goOn : Handler Empty)
  let note : Value → ExceptT Empty (StateM (List Call)) Unit := fun v => modify (· ++ [.readDate v])
  have hcheck : n.check o p x =
      ((n.calls parse Path.nowhere x).map (Call.under p)).forM (Call.log Handler.goOn) := by
    rw [check_under, check_eq_forM (o.under p) note parse fun _ => rfl]
    simp only [List.forM_eq_forM, List.forM_map]
    exact congrArg _ (funext fun c => c.perform_under note o p)
  have hrun := logged_goOn (ε := Empty) parse n p x
  rw [logged, hcheck, Handler.run_forM_goOn] at hrun
  exact (congrArg Prod.snd hrun).symm

/-! ## Readings and checks -/

/-- **The start of a path only labels.** A description is read from all paths as the same
node, or from none, and then for the same token and at the same place below the path. A check
that nothing stops makes the same calls from all paths, in the same order: it asks about the
same values, and reports the same kinds at the same places below the path. And whatever the
options do at a call, a check from a path is the check from nowhere of whose reports they see
the fields with the path in front. -/
theorem start_only_labels :
    (∀ d : Description, (∃ n, ∀ p, d.normalize p = .ok n) ∨
      ∃ repr below, ∀ p, ∃ e, d.normalize p = .error e ∧
        e.token.render = repr ∧ e.position.render = p.render ++ below) ∧
    (∀ (n : Node) (parse : Value → Option Binary64) (x : Option Value),
      ∃ calls : List Call, ∀ {ε : Type} (p : Path),
        n.logged parse (Handler.goOn : Handler ε) p x = (.ok (), calls.map (Call.under p))) ∧
    ∀ (n : Node) {m : Type → Type} [Monad m] (o : Options m) (x : Option Value) (p : Path),
      n.check o p x = n.check (o.under p) Path.nowhere x := by
  refine ⟨fun d => ?_, fun n parse x => ⟨n.calls parse Path.nowhere x, fun p => ?_⟩,
    fun n m _ o x p => n.check_under o p x⟩
  · have hread : ∀ p, d.normalize p =
        (d.normalize Path.nowhere).mapError (UnknownToken.below p) := by
      intro p
      have h := Description.normalize_descend p "" d []
      rwa [Path.descend_nil] at h
    cases hd : d.normalize Path.nowhere with
    | ok n =>
      refine .inl ⟨n, fun p => ?_⟩
      rw [hread, hd]
      rfl
    | error e =>
      refine .inr ⟨e.token.render, Path.suffix e.position.steps, fun p => ?_⟩
      refine ⟨e.below p, ?_, rfl, p.render_descend e.position.steps⟩
      rw [hread, hd]
      rfl
  · rw [Node.logged_goOn, Node.calls_under]

-- the path from which a value is checked by default
example : Path.root.render = "value" := rfl

end Conform
