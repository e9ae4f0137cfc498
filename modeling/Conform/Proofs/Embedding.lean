import Conform.Proofs.Normalization
import Conform.Proofs.References
import Conform.Schema

/-!
# Embedding a compiled schema

A description can hold the root of a schema that was compiled before. That is the
same as holding the description of that schema: in every surrounding description,
here a `Description.Context`, either both are read and give the same schema but for
references, or both fail at the same place. The unknown tokens themselves can differ,
since a list that is no schema is quoted whole.

The proof goes up the context; what it carries along is `Agree`. At the hole it
needs that a description which compiles reads the same from everywhere.
-/

namespace Conform

/-- Two readings agree: both give results, which are related, or both fail at the same
place. -/
inductive Agree {α : Type} (r : α → α → Prop) :
    Except UnknownToken α → Except UnknownToken α → Prop where
  | ok {a b : α} (h : r a b) : Agree r (.ok a) (.ok b)
  | error {e f : UnknownToken} (h : e.position = f.position) : Agree r (.error e) (.error f)

namespace Agree

variable {α β : Type} {r : α → α → Prop} {s : β → β → Prop} {x y : Except UnknownToken α}

/-- A reading agrees with itself. -/
theorem refl (hr : ∀ a, r a a) (x : Except UnknownToken α) : Agree r x x := by
  cases x with
  | ok a => exact .ok (hr a)
  | error e => exact .error rfl

/-- Readings that agree do so after the same step. -/
theorem map {f g : α → β} (hfg : ∀ a b, r a b → s (f a) (g b)) (h : Agree r x y) :
    Agree s (x.map f) (y.map g) := by
  cases h with
  | ok h => exact .ok (hfg _ _ h)
  | error h => exact .error h

/-- Readings that agree do so after further readings that agree. -/
theorem bind {f g : α → Except UnknownToken β} (hfg : ∀ a b, r a b → Agree s (f a) (g b))
    (h : Agree r x y) : Agree s (x.bind f) (y.bind g) := by
  cases h with
  | ok h => exact hfg _ _ h
  | error h => exact .error h

/-- Of two readings that agree, both give a result or none does. -/
theorem exists_ok_iff (h : Agree r x y) : (∃ a, x = .ok a) ↔ ∃ b, y = .ok b := by
  cases h with
  | ok h => exact ⟨fun _ => ⟨_, rfl⟩, fun _ => ⟨_, rfl⟩⟩
  | error h => exact ⟨nofun, nofun⟩

end Agree

namespace Description

/-- A description with a hole. -/
inductive Context where
  | hole
  | optional (inner : Context)
  | list (before : List Description) (inner : Context) (after : List Description)
  | shape (before : List (String × Description)) (key : String) (inner : Context)
      (after : List (String × Description))

/-- Put a description into the hole. -/
def Context.fill (d : Description) : Context → Description
  | hole => d
  | optional inner => .optional (inner.fill d)
  | list before inner after => .list (before ++ inner.fill d :: after)
  | shape before key inner after => .shape (before ++ (key, inner.fill d) :: after)

/-- Nodes that are the same without references. -/
abbrev SameErased (m n : Node) : Prop := m.erase = n.erase

/-- Fields that are the same without references. -/
abbrev SameErasedFields (ms ns : List (String × Node)) : Prop :=
  Node.eraseFields ms = Node.eraseFields ns

/-- Shapes whose reading differs in one field, where it agrees, agree. -/
theorem agree_normalizeFields {p : Path} {key : String} {d d' : Description}
    (hd : Agree SameErased (d.normalize (p.key key)) (d'.normalize (p.key key)))
    (before after : List (String × Description)) :
    Agree SameErasedFields (normalizeFields p (before ++ (key, d) :: after))
      (normalizeFields p (before ++ (key, d') :: after)) := by
  induction before with
  | nil =>
    -- where the fields differ; those after it are read alike
    simp only [List.nil_append, normalizeFields_cons]
    refine hd.bind fun m n hmn => ?_
    refine (Agree.refl (r := SameErasedFields) (fun _ => rfl) (normalizeFields p after)).map ?_
    intro ms ns hns
    show (key, m.erase) :: Node.eraseFields ms = (key, n.erase) :: Node.eraseFields ns
    rw [hmn, hns]
  | cons e before ih =>
    obtain ⟨k, d₀⟩ := e
    simp only [List.cons_append, normalizeFields_cons]
    refine (Agree.refl (r := SameErased) (fun _ => rfl) (d₀.normalize (p.key k))).bind ?_
    intro m n hmn
    refine ih.map fun ms ns hns => ?_
    show (k, m.erase) :: Node.eraseFields ms = (k, n.erase) :: Node.eraseFields ns
    rw [hmn, hns]

/-- **Contexts preserve agreement**: what reads alike from every path can be exchanged
in every description. -/
theorem Context.agree_fill {d e : Description}
    (h : ∀ p, Agree SameErased (d.normalize p) (e.normalize p)) (C : Context) (p : Path) :
    Agree SameErased ((C.fill d).normalize p) ((C.fill e).normalize p) := by
  induction C generalizing p with
  | hole => exact h p
  | optional inner ih =>
    exact (ih p).map fun m n h => congrArg Node.optional h
  | list before inner after ih =>
    by_cases hlen : before = [] ∧ after = []
    · obtain ⟨rfl, rfl⟩ := hlen
      exact (ih p.each).map fun m n h => congrArg Node.arrayOf h
    · -- a list with more than the hole is no schema, whatever is put there
      have hne : ∀ d, (before ++ d :: after).length ≠ 1 := by
        intro d h
        refine hlen ⟨List.eq_nil_of_length_eq_zero ?_, List.eq_nil_of_length_eq_zero ?_⟩
        · simp only [List.length_append, List.length_cons] at h
          omega
        · simp only [List.length_append, List.length_cons] at h
          omega
      rw [fill, fill, normalize_list_of_length_ne_one (hne _),
        normalize_list_of_length_ne_one (hne _)]
      exact .error rfl
  | shape before key inner after ih =>
    exact (agree_normalizeFields (ih (p.key key)) before after).map
      fun ms ns h => congrArg Node.shape h

end Description

/-! ## Compiled schemas -/

namespace Schema

/-- A description that compiles reads as the root from every path. -/
theorem normalize_of_compile {m : Type → Type} {d : Description} {o : Options m} {s : Schema m}
    (h : compile d o = .ok s) (p : Path) : d.normalize p = .ok s.root := by
  have hroot : d.normalize Path.root = .ok s.root := by
    rw [compile, Source.root, Source.rootAt] at h
    cases hd : d.normalize Path.root with
    | error e =>
      rw [hd] at h
      cases h
    | ok n =>
      rw [hd] at h
      obtain rfl := Except.ok.inj h
      rfl
  exact Description.normalize_eq_ok_of_eq_ok hroot p

/-- **Embedding a compiled schema is writing its description there.** -/
theorem embed_eq_inline {m' : Type → Type} {d : Description} {o' : Options m'} {s : Schema m'}
    (h : compile d o' = .ok s) (C : Description.Context) (p : Path) :
    ((∃ n', (C.fill s.toDescription).normalize p = .ok n') ↔
        ∃ n, (C.fill d).normalize p = .ok n) ∧
      (∀ e e', (C.fill d).normalize p = .error e →
        (C.fill s.toDescription).normalize p = .error e' → e'.position = e.position) ∧
      ∀ n n', (C.fill d).normalize p = .ok n → (C.fill s.toDescription).normalize p = .ok n' →
        n'.erase = n.erase ∧ n'.render = n.render ∧
          ∀ {m : Type → Type} [Monad m] (o : Options m) (q : Path) (x : Option Value),
            n'.check o q x = n.check o q x := by
  have hroot : ∀ q, Agree Description.SameErased (d.normalize q) (s.toDescription.normalize q) := by
    intro q
    rw [normalize_of_compile h q]
    exact .ok rfl
  have hagree := C.agree_fill hroot p
  refine ⟨hagree.exists_ok_iff.symm, ?_, ?_⟩
  · intro e e' he he'
    rw [he, he'] at hagree
    cases hagree with
    | error hposition => exact hposition.symm
  · intro n n' hn hn'
    rw [hn, hn'] at hagree
    cases hagree with
    | ok herase =>
      exact ⟨herase.symm, Node.render_congr_erase herase.symm,
        fun o q x => Node.check_congr_erase herase.symm o q x⟩

/-- A schema that is optional and gathers mismatches, embedded as the second of two fields
in a schema that is checked otherwise. -/
theorem embed_eq_inline_optional_list :
    let d : Description := .optional (.list [.text "string[]"])
    let s : Schema (StateM (List Mismatch)) :=
      ⟨.optional (.arrayOf (.arrayOf (.kind .string))), Options.collect⟩
    let C : Description.Context := .shape [("id", .marker .number)] "tags" .hole []
    let inline : Node := .shape [("id", .kind .number), ("tags", s.root)]
    let embedded : Node := .shape [("id", .kind .number), ("tags", .ref s.root)]
    compile d Options.collect = .ok s ∧
      (C.fill d).normalize Path.root = .ok inline ∧
      (C.fill s.toDescription).normalize Path.root = .ok embedded ∧
      embedded.erase = inline.erase ∧ embedded.render = inline.render ∧
      ∀ x, embedded.check Options.raise Path.root x = inline.check Options.raise Path.root x := by
  intro d s C inline embedded
  have hroot : d.normalize Path.root = .ok s.root := by
    cbv
  have hcompile : compile d Options.collect = .ok s := by
    rw [compile, Source.root, Source.rootAt, hroot]
    rfl
  have hinline : (C.fill d).normalize Path.root = .ok inline := by
    cbv
  have hembedded : (C.fill s.toDescription).normalize Path.root = .ok embedded := by
    cbv
  obtain ⟨-, -, hsame⟩ := embed_eq_inline hcompile C Path.root
  obtain ⟨herase, hrender, hcheck⟩ := hsame inline embedded hinline hembedded
  exact ⟨hcompile, hinline, hembedded, herase, hrender, fun x => hcheck Options.raise Path.root x⟩

end Schema

end Conform
