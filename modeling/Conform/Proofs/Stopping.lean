import Conform.Proofs.Calls

/-!
# Where a check stops

A handler may stop a run at any mismatch, and its answer may depend on all the
calls before. Whatever it does, the run makes the calls of the unstopped run up
to the first report that the handler refuses, that one included, and none after
it. The case analysis behind this is `Handler.run_forM`, an induction over the
calls; a run with `Options.raise` is the special case of a handler that refuses
everything.
-/

namespace Conform

namespace Handler

variable {ε : Type}

/-- The handler as it goes on after the calls in `log`. -/
def after (h : Handler ε) (log : List Call) : Handler ε :=
  fun earlier => h (log ++ earlier)

/-- Whether a handler lets all reports among these calls pass. -/
def Tolerates (h : Handler ε) (cs : List Call) : Prop :=
  ∀ earlier e later, cs = earlier ++ .report e :: later → h earlier e = .ok ()

/-- No calls, no refusal. -/
theorem tolerates_nil (h : Handler ε) : h.Tolerates [] := by
  intro earlier e later hcs
  exact absurd hcs.symm (by simp)

/-- Calls are tolerated if the first is, and the others after it. -/
theorem Tolerates.cons {h : Handler ε} {c : Call} {cs : List Call}
    (hhead : ∀ e, c = .report e → h [] e = .ok ()) (htail : (h.after [c]).Tolerates cs) :
    h.Tolerates (c :: cs) := by
  intro earlier e later hcs
  cases earlier with
  | nil => exact hhead e (List.cons.inj hcs).1
  | cons d earlier =>
    obtain ⟨rfl, hrest⟩ := List.cons.inj hcs
    exact htail earlier e later hrest

/-- The outcome of a run that makes the calls `cs` after those in `log`: it stops at
the first refusal, if there is one. -/
def Outcome (h : Handler ε) (log cs : List Call) (run : Except ε Unit × List Call) : Prop :=
  (∃ earlier e later err, cs = earlier ++ .report e :: later ∧
      (h.after log).Tolerates earlier ∧ h (log ++ earlier) e = .error err ∧
      run = (.error err, log ++ (earlier ++ [.report e]))) ∨
    ((h.after log).Tolerates cs ∧ run = (.ok (), log ++ cs))

/-- A call that is let pass goes to the log, and the run goes on as before. -/
theorem Outcome.cons {h : Handler ε} {log cs : List Call} {c : Call}
    {run : Except ε Unit × List Call} (hc : ∀ e, c = .report e → h log e = .ok ())
    (ho : h.Outcome (log ++ [c]) cs run) : h.Outcome log (c :: cs) run := by
  have hhead : ∀ e, c = .report e → (h.after log) [] e = .ok () := by
    intro e he
    rw [after, List.append_nil]
    exact hc e he
  have hafter : (h.after log).after [c] = h.after (log ++ [c]) := by
    funext earlier
    simp [after]
  rcases ho with ⟨earlier, e, later, err, rfl, htol, herr, hrun⟩ | ⟨htol, hrun⟩
  · refine .inl ⟨c :: earlier, e, later, err, rfl, .cons hhead (hafter ▸ htol), ?_, ?_⟩
    · rw [← herr]
      simp
    · rw [hrun]
      simp
  · refine .inr ⟨.cons hhead (hafter ▸ htol), ?_⟩
    rw [hrun]
    simp

/-- **A run stops at the first refusal.** The induction is over the calls that are
still to come; the log carries those already made. -/
theorem run_forM (h : Handler ε) (cs log : List Call) :
    h.Outcome log cs ((cs.forM (Call.log h)).run.run log) := by
  induction cs generalizing log with
  | nil =>
    refine .inr ⟨tolerates_nil _, ?_⟩
    rw [List.append_nil]
    rfl
  | cons c cs ih =>
    cases c with
    | readDate v => exact .cons (by simp) (ih (log ++ [.readDate v]))
    | report e =>
      have hrun : ((Call.report e :: cs).forM (Call.log h)).run.run log =
          (ExceptT.bindCont (fun _ => cs.forM (Call.log h)) (h log e)).run
            (log ++ [.report e]) := rfl
      rw [hrun]
      cases he : h log e with
      | error err =>
        -- refused: none of the calls in `cs` is made
        refine .inl ⟨[], e, cs, err, rfl, tolerates_nil _, ?_, rfl⟩
        rw [List.append_nil]
        exact he
      | ok u =>
        -- let pass: the rest is run with this call in the log
        refine .cons ?_ (ih (log ++ [.report e]))
        intro e' he'
        cases he'
        exact he

/-- Calls that nothing stops are all made. -/
theorem run_forM_goOn (cs log : List Call) :
    (cs.forM (Call.log (goOn : Handler ε))).run.run log = (.ok (), log ++ cs) := by
  rcases run_forM (goOn : Handler ε) cs log with ⟨_, _, _, _, _, _, herr, _⟩ | ⟨_, hrun⟩
  · cases herr
  · exact hrun

/-- The handler that stops a run at the first mismatch, and returns it. -/
def refuse : Handler Mismatch := fun _ e => .error e

/-- A handler that refuses every report tolerates only questions. -/
theorem filterMap_reported?_of_tolerates {cs : List Call} (h : refuse.Tolerates cs) :
    cs.filterMap Call.reported? = [] := by
  refine List.filterMap_eq_nil_iff.mpr ?_
  intro c hc
  cases c with
  | readDate v => rfl
  | report e =>
    obtain ⟨earlier, later, hcs⟩ := List.append_of_mem hc
    cases h earlier e later hcs

/-- Where every report is refused, a run returns the first of them. -/
theorem run_forM_refuse (cs log : List Call) :
    ((cs.forM (Call.log refuse)).run.run log).1 =
      match cs.filterMap Call.reported? with
      | [] => .ok ()
      | e :: _ => .error e := by
  rcases run_forM refuse cs log with ⟨earlier, e, later, err, rfl, htol, herr, hrun⟩ | ⟨htol, hrun⟩
  · have hquestions : earlier.filterMap Call.reported? = [] := filterMap_reported?_of_tolerates htol
    cases herr
    rw [hrun, List.filterMap_append, hquestions]
    rfl
  · have hquestions : cs.filterMap Call.reported? = [] := filterMap_reported?_of_tolerates htol
    rw [hrun, hquestions]

end Handler

/-! ## Checks -/

/-- A run with `Options.raise` ends with the first report among its calls. -/
theorem Options.raise_forM (cs : List Call) :
    cs.forM (Call.perform (fun _ => .ok ()) raise.report) =
      match cs.filterMap Call.reported? with
      | [] => .ok ()
      | e :: _ => .error e := by
  induction cs with
  | nil => rfl
  | cons c cs ih =>
    cases c with
    | readDate v => exact ih
    | report e => rfl

namespace Node

/-- A run that nothing stops makes all calls of the check. -/
theorem logged_goOn {ε : Type} (parse : Value → Option Binary64) (n : Node) (p : Path)
    (x : Option Value) :
    n.logged parse (Handler.goOn : Handler ε) p x = (.ok (), n.calls parse p x) := by
  rw [logged_eq_forM]
  exact Handler.run_forM_goOn (n.calls parse p x) []

/-- The mismatches of a check are the reports among its calls. -/
theorem mismatches_eq (parse : Value → Option Binary64) (n : Node) (p : Path)
    (x : Option Value) :
    n.mismatches parse p x = (n.calls parse p x).filterMap Call.reported? := by
  rw [mismatches, logged_goOn]

/-- **Gathering loses nothing**: a schema that gathers mismatches adds all of them to
what it had. -/
theorem validateMaybe_collect (n : Node) (x : Option Value) (found : List Mismatch) :
    ((Schema.validateMaybe ⟨n, Options.collect⟩ x).run found).2 =
      found ++ n.mismatches Value.millis? Path.root x := by
  rw [mismatches_eq, Schema.validateMaybe,
    check_eq_forM Options.collect (fun _ => pure ()) Value.millis? fun _ => rfl]
  exact Options.collect_forM _ found

/-- A schema that stops at the first mismatch returns the first of all mismatches. -/
theorem validateMaybe_raise (n : Node) (x : Option Value) :
    Schema.validateMaybe ⟨n, Options.raise⟩ x =
      match n.mismatches Value.millis? Path.root x with
      | [] => .ok ()
      | e :: _ => .error e := by
  rw [mismatches_eq, Schema.validateMaybe,
    check_eq_forM Options.raise (fun _ => .ok ()) Value.millis? fun _ => rfl]
  exact Options.raise_forM _

/-- A schema that stops at the first mismatch returns what a logged run does whose handler
refuses every report. -/
theorem validateMaybe_raise_eq_logged (n : Node) (x : Option Value) :
    Schema.validateMaybe ⟨n, Options.raise⟩ x =
      (n.logged Value.millis? Handler.refuse Path.root x).1 := by
  rw [validateMaybe_raise, mismatches_eq, logged_eq_forM, Handler.run_forM_refuse]

/-- **Stopping only cuts a run short.** Whatever a handler makes of the calls before,
its run is the unstopped run up to the first report that it refuses, and returns
that refusal; if it refuses none, it is the whole run, which succeeds. A schema that
gathers mismatches has the reports of the unstopped run, and one that stops at the
first mismatch the outcome of the run that refuses every report: the first of those
that would have been gathered, or success if there would have been none. -/
theorem logged_cut_at_first_refusal {ε : Type} (parse : Value → Option Binary64)
    (h : Handler ε) (n : Node) (p : Path) (x : Option Value) :
    let full := (n.logged parse (Handler.goOn : Handler ε) p x).2
    let gathered := ((Schema.validateMaybe ⟨n, Options.collect⟩ x).run []).2
    ((∃ earlier e later err, full = earlier ++ .report e :: later ∧ h.Tolerates earlier ∧
          h earlier e = .error err ∧
          n.logged parse h p x = (.error err, earlier ++ [.report e])) ∨
        (h.Tolerates full ∧ n.logged parse h p x = (.ok (), full))) ∧
      gathered = (n.logged Value.millis? (Handler.goOn : Handler ε) Path.root x).2.filterMap
        Call.reported? ∧
      Schema.validateMaybe ⟨n, Options.raise⟩ x =
        (n.logged Value.millis? Handler.refuse Path.root x).1 ∧
      Schema.validateMaybe ⟨n, Options.raise⟩ x =
        match gathered with
        | [] => .ok ()
        | e :: _ => .error e := by
  intro full gathered
  have hfull : full = n.calls parse p x := congrArg Prod.snd (logged_goOn parse n p x)
  have hgathered : gathered = n.mismatches Value.millis? Path.root x :=
    validateMaybe_collect n x []
  refine ⟨?_, ?_, validateMaybe_raise_eq_logged n x, ?_⟩
  · rw [hfull, logged_eq_forM]
    exact h.run_forM (n.calls parse p x) []
  · rw [hgathered, mismatches_eq, logged_goOn]
  · rw [hgathered]
    exact validateMaybe_raise n x

end Node

end Conform
