import Conform.Proofs.Embedding
import Conform.Proofs.NodeContexts
import Conform.Proofs.Recognition

/-!
# Errors and mismatches name the same positions

A description is read by one recursion and checked, once it is read, by another; both say
where they are. Here the two are compared: a description is given up to one token, its
`Gap`. If the token is unknown, the reading fails and names a position; if it is a kind,
the check of that kind reports every mismatch under that very name.

`Context.exists_nodeContext` does the surroundings of the token, and `Gap` what stands
directly around it, which may be the marks and brackets of shorthand.
-/

namespace Conform

/-- Options under which every mismatch is reported under the name `field`. -/
def Options.labelled {m : Type → Type} (o : Options m) (field : String) : Options m :=
  { o with report := fun e => o.report { e with field := field } }

/-- The test for one kind names its own path and no other. -/
theorem Options.checkKind_labelled {m : Type → Type} [Monad m] (o : Options m) (p q : Path)
    (k : Kind) (x : Option Value) :
    (o.labelled p.render).checkKind q k x = o.checkKind p k x := by
  cases x with
  | none => rfl
  | some v => rfl

namespace Description

open Shorthand

/-! ## The surroundings of a token -/

/-- Two steps after a reading are one. -/
theorem map_map {ε α β γ : Type} (r : Except ε α) (f : α → β) (g : β → γ) :
    (r.map f).map g = r.map (g ∘ f) := by
  cases r <;> rfl

/-- Lists on the way to the hole have one element, and all fields beside the way can be
read. -/
def Context.Readable : Context → Prop
  | hole => True
  | optional inner => inner.Readable
  | list before inner after => before = [] ∧ after = [] ∧ inner.Readable
  | shape before _ inner after =>
    (∀ e ∈ before ++ after, ∃ p n, e.2.normalize p = .ok n) ∧ inner.Readable

/-- Fields that can be read one by one can be read together. -/
theorem exists_normalizeFields {fields : List (String × Description)}
    (h : ∀ e ∈ fields, ∃ p n, e.2.normalize p = .ok n) (p : Path) :
    ∃ ns, normalizeFields p fields = .ok ns := by
  induction fields with
  | nil => exact ⟨[], rfl⟩
  | cons e fields ih =>
    obtain ⟨k, d⟩ := e
    obtain ⟨q, n, hn⟩ := h (k, d) List.mem_cons_self
    obtain ⟨ns, hns⟩ := ih fun e he => h e (List.mem_cons_of_mem _ he)
    refine ⟨(k, n) :: ns, ?_⟩
    rw [normalizeFields_cons, normalize_eq_ok_of_eq_ok hn, hns]
    rfl

/-- Fields are read one after the other. -/
theorem normalizeFields_append (p : Path) (before after : List (String × Description)) :
    normalizeFields p (before ++ after) =
      (normalizeFields p before).bind fun ms => (normalizeFields p after).map (ms ++ ·) := by
  induction before with
  | nil =>
    rw [List.nil_append]
    cases normalizeFields p after <;> rfl
  | cons e before ih =>
    obtain ⟨k, d⟩ := e
    rw [List.cons_append, normalizeFields_cons, normalizeFields_cons, ih]
    cases d.normalize (p.key k) with
    | error e => rfl
    | ok n =>
      cases normalizeFields p before with
      | error e => rfl
      | ok ms =>
        cases normalizeFields p after <;> rfl

/-- **The surroundings of a token become the surroundings of its node.** Whether the token
is read or not, and what as, is passed on, and the hole stands at the same path in both. -/
theorem Context.exists_nodeContext {C : Context} (hC : C.Readable) (p : Path) :
    ∃ N : Node.Context, ∀ d : Description,
      (C.fill d).normalize p = (d.normalize (N.holePath p)).map N.fill := by
  induction C generalizing p with
  | hole =>
    refine ⟨.hole, fun d => ?_⟩
    show d.normalize p = (d.normalize p).map id
    cases d.normalize p <;> rfl
  | optional inner ih =>
    obtain ⟨N, hN⟩ := ih hC p
    refine ⟨.optional N, fun d => ?_⟩
    rw [fill, normalize, hN, map_map]
    rfl
  | list before inner after ih =>
    obtain ⟨rfl, rfl, hinner⟩ := hC
    obtain ⟨N, hN⟩ := ih hinner p.each
    refine ⟨.arrayOf N, fun d => ?_⟩
    rw [fill, List.nil_append, normalize, hN, map_map]
    rfl
  | shape before key inner after ih =>
    obtain ⟨hfields, hinner⟩ := hC
    obtain ⟨N, hN⟩ := ih hinner (p.key key)
    obtain ⟨ms, hms⟩ :=
      exists_normalizeFields (fun e he => hfields e (List.mem_append_left after he)) p
    obtain ⟨ns, hns⟩ :=
      exists_normalizeFields (fun e he => hfields e (List.mem_append_right before he)) p
    refine ⟨.shape ms key N ns, fun d => ?_⟩
    -- the fields before the way are read, so that the reading comes to the hole
    rw [fill, normalize, normalizeFields_append, hms, normalizeFields_cons, hns, hN]
    show _ = (d.normalize (N.holePath (p.key key))).map _
    cases d.normalize (N.holePath (p.key key)) <;> rfl

/-! ## What stands directly around a token -/

/-- Tokens that are unknown where they stand. -/
inductive IsUnknown : Description → Prop where
  | other (value : Json) : IsUnknown (other value)
  | list {items : List Description} (h : items.length ≠ 1) : IsUnknown (list items)
  | text {s : String} (hname : s ∉ knownNames.map Prod.fst) (hcore : IsCore s.toList) :
    IsUnknown (text s)

/-- What is no known name stands for no node. -/
theorem leaf?_eq_none_of_not_mem {s : String} (h : s ∉ knownNames.map Prod.fst) :
    leaf? s = none := by
  rw [leaf?_eq_lookup, List.lookup_eq_none_iff]
  intro e he
  have hne : s ≠ e.1 := by
    rintro rfl
    exact h (List.mem_map_of_mem he)
  simpa using hne

/-- The error about such a token names its own position. -/
theorem IsUnknown.normalize {u : Description} (h : IsUnknown u) (p : Path) :
    u.normalize p = .error ⟨u, p⟩ := by
  cases h with
  | other value => rfl
  | list h => exact normalize_list_of_length_ne_one h p
  | text hname hcore =>
    rw [Description.normalize, ofShorthand_eq, peel_of_isCore hcore, String.ofList_toList,
      leaf?_eq_none_of_not_mem hname]
    simp [corePath]

/-- A mark or a pair of brackets around shorthand. -/
inductive Wrapping where
  | mark
  | pair

/-- Text in wrappings, the first being the outermost. -/
def wrap (ws : List Wrapping) (s : String) : String :=
  ws.foldr (fun w s => match w with | .mark => "?" ++ s | .pair => s ++ "[]") s

/-- A place for a token: by itself, or in wrappings of shorthand; with a token that is
unknown there. In wrappings that has to be text. -/
inductive Gap where
  | bare (u : Description) (h : IsUnknown u)
  | wrapped (ws : List Wrapping) (s : String) (h : IsUnknown (text s))

/-- The place with its unknown token. -/
def Gap.unknown : Gap → Description
  | bare u _ => u
  | wrapped ws s _ => text (wrap ws s)

/-- The place with a kind in it. -/
def Gap.ofKind (k : Kind) : Gap → Description
  | bare _ _ => marker k
  | wrapped ws _ _ => text (wrap ws k.name)

/-- Whatever the order of wrappings, marks go to the front and brackets to the end. -/
theorem exists_shorthand_wrap (ws : List Wrapping) :
    ∃ marks pairs, ∀ s, (wrap ws s).toList = Shorthand.text ⟨marks, s.toList, pairs⟩ := by
  induction ws with
  | nil => exact ⟨0, 0, fun s => by simp [wrap, Shorthand.text, brackets]⟩
  | cons w ws ih =>
    obtain ⟨marks, pairs, hws⟩ := ih
    cases w with
    | mark =>
      refine ⟨marks + 1, pairs, fun s => ?_⟩
      show ("?" ++ wrap ws s).toList = _
      rw [String.toList_append, hws]
      simp [Shorthand.text, List.replicate_succ]
    | pair =>
      refine ⟨marks, pairs + 1, fun s => ?_⟩
      show (wrap ws s ++ "[]").toList = _
      rw [String.toList_append, hws]
      simp [Shorthand.text, brackets]

/-- The surroundings that shorthand puts around the node of its core. -/
def shorthandContext (marks pairs : Nat) : Node.Context :=
  Node.Context.optional^[marks] (Node.Context.arrayOf^[pairs] .hole)

/-- The core is wrapped in these surroundings. -/
theorem shorthandContext_fill (marks pairs : Nat) (cs : List Char) (n : Node) :
    (shorthandContext marks pairs).fill n = wrapped ⟨marks, cs, pairs⟩ n := by
  have hpairs : (Node.Context.arrayOf^[pairs] .hole).fill n = Node.arrayOf^[pairs] n := by
    induction pairs with
    | zero => rfl
    | succ pairs ih =>
      rw [Function.iterate_succ_apply', Function.iterate_succ_apply', Node.Context.fill, ih]
  induction marks with
  | zero => exact hpairs
  | succ marks ih =>
    rw [shorthandContext, Function.iterate_succ_apply', Node.Context.fill,
      wrapped_mark ⟨marks, cs, pairs⟩, ← ih]
    rfl

/-- Its path is that of the core. -/
theorem shorthandContext_holePath (marks pairs : Nat) (cs : List Char) (p : Path) :
    (shorthandContext marks pairs).holePath p = corePath p ⟨marks, cs, pairs⟩ := by
  have hpairs : ∀ q : Path, (Node.Context.arrayOf^[pairs] .hole).holePath q =
      q.descend (List.replicate pairs .each) := by
    induction pairs with
    | zero => exact fun q => q.descend_nil.symm
    | succ pairs ih =>
      intro q
      rw [Function.iterate_succ_apply', Node.Context.holePath, ih, Path.each, Path.push_descend,
        List.replicate_succ]
  induction marks with
  | zero => exact hpairs p
  | succ marks ih => rw [shorthandContext, Function.iterate_succ_apply']; exact ih

/-- **What stands directly around a token becomes surroundings of its node**: an unknown
token is named with the path of the hole, and a kind is put into it. -/
theorem Gap.exists_nodeContext (g : Gap) (p : Path) :
    ∃ (W : Node.Context) (u : Description),
      g.unknown.normalize p = .error ⟨u, W.holePath p⟩ ∧
        ∀ k, (g.ofKind k).normalize p = .ok (W.fill (.kind k)) := by
  cases g with
  | bare u h => exact ⟨.hole, u, h.normalize p, fun k => rfl⟩
  | wrapped ws s h =>
    obtain ⟨marks, pairs, hws⟩ := exists_shorthand_wrap ws
    refine ⟨shorthandContext marks pairs, text s, ?_, fun k => ?_⟩
    · cases h with
      | text hname hcore =>
        rw [unknown, normalize, ofShorthand_eq, hws, peel_text hcore, String.ofList_toList,
          leaf?_eq_none_of_not_mem hname, shorthandContext_holePath]
    · have hleaf : leaf? (String.ofList k.name.toList) = some (.kind k) := by
        rw [String.ofList_toList, leaf?, Kind.ofName?_name]
      have hpeel := peel_text (t := ⟨marks, k.name.toList, pairs⟩) (isCore_of_leaf? hleaf)
      rw [ofKind, normalize, ofShorthand_eq, hws, hpeel, hleaf, shorthandContext_fill]

/-- **Errors and mismatches name the same positions.** A description that lacks one token,
and can be read beside it, is filled with an unknown token: its error is about the hole.
Filled with a kind it is read, and its check runs the test for that kind in the hole, on
every input and whatever the options do, as if all mismatches there were reported under the
name that the error has. -/
theorem labels_agree {C : Context} (hC : C.Readable) (g : Gap) (p : Path) :
    ∃ (e : UnknownToken) (N : Node.Context),
      (C.fill g.unknown).normalize p = .error e ∧ e.position = N.holePath p ∧
        ∀ k, (C.fill (g.ofKind k)).normalize p = .ok (N.fill (.kind k)) ∧
          ∀ {m : Type → Type} [Monad m] [LawfulMonad m] (o : Options m) (x : Option Value),
            (N.fill (.kind k)).check o p x =
              N.check o p ((o.labelled e.position.render).checkKind p k) x := by
  obtain ⟨N, hN⟩ := C.exists_nodeContext hC p
  obtain ⟨W, u, hunknown, hkind⟩ := g.exists_nodeContext (N.holePath p)
  have hhole : (N.comp W).holePath p = W.holePath (N.holePath p) :=
    Node.Context.holePath_comp N W p
  refine ⟨⟨u, W.holePath (N.holePath p)⟩, N.comp W, ?_, hhole.symm, fun k => ⟨?_, ?_⟩⟩
  · rw [hN, hunknown]
    rfl
  · rw [hN, hkind, Node.Context.fill_comp]
    rfl
  · intro m _ _ o x
    rw [Node.Context.check_fill, hhole]
    refine congrArg (fun hole => (N.comp W).check o p hole x) (funext fun y => ?_)
    exact (o.checkKind_labelled (W.holePath (N.holePath p)) p k y).symm

/-- The elements of the second of two fields, an unknown name in optional brackets: the error
about it and the mismatches of a string there are all about `value.tags.$.$`. -/
theorem labels_agree_tags :
    let C : Context := .shape [("id", .marker .number)] "tags" (.list [] (.optional .hole) []) []
    C.Readable ∧ ∃ (h : IsUnknown (text "colour")) (e : UnknownToken) (N : Node.Context),
      (C.fill (Gap.wrapped [.mark, .pair] "colour" h).unknown).normalize Path.root = .error e ∧
        e.position = N.holePath Path.root ∧ e.position.render = "value.tags.$.$" ∧
        (C.fill (text "?string[]")).normalize Path.root = .ok (N.fill (.kind .string)) ∧
        ∀ x, (N.fill (.kind .string)).check Options.raise Path.root x =
          N.check Options.raise Path.root
            ((Options.raise.labelled "value.tags.$.$").checkKind Path.root .string) x := by
  intro C
  have hC : C.Readable := by
    refine ⟨fun e he => ?_, rfl, rfl, trivial⟩
    obtain rfl : e = ("id", .marker .number) := by simpa using he
    exact ⟨Path.root, .kind .number, rfl⟩
  have hcore : IsCore "colour".toList := by
    refine ⟨by decide, fun rest hrest => ?_⟩
    have hstrip : stripBrackets? "colour".toList = none := by decide
    rw [stripBrackets?_eq_some_iff.mpr hrest] at hstrip
    cases hstrip
  have h : IsUnknown (text "colour") := .text (by decide) hcore
  obtain ⟨e, N, herror, hposition, hkind⟩ :=
    labels_agree hC (.wrapped [.mark, .pair] "colour" h) Path.root
  have hlabel : e.position.render = "value.tags.$.$" := by
    have hread : (C.fill (text "?colour[]")).normalize Path.root =
        .error ⟨text "colour", ⟨"value", [.key "tags", .each, .each]⟩⟩ := by cbv
    obtain rfl := Except.error.inj (herror.symm.trans hread)
    rfl
  obtain ⟨hread, hcheck⟩ := hkind .string
  refine ⟨hC, h, e, N, herror, hposition, hlabel, hread, fun x => ?_⟩
  rw [hcheck, hlabel]

end Description

end Conform
