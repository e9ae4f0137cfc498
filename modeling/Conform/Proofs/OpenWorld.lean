import Conform.Proofs.Positions
import Conform.Proofs.Reports
import Mathlib.Data.List.Basic
import Mathlib.Logic.Relation

/-!
# What a schema does not look at

A schema looks at a value only where it asks for something. The rest of the value can be
edited without any effect on a check:

- `Value.Reordered`: the fields of an object come in another order, at any depth, also
  where the schema has no say;
- `Node.Edit`: one edit to a possibly absent value, as the schema allows it at the place:
  fields come in another order, a field that the shape does not declare is added, removed
  or changed, and so is anything that stands where everything is accepted;
- `Node.check_blind_to_edits`: **after any number of edits, in any places, a check reports
  the same mismatches, one after the other, and does the same**, whatever is done about a
  mismatch.

Each edit leaves the mismatches alone (`mismatches_edit`), which is an induction over where
it is made, and so do all of them.
-/

namespace Conform

/-! ## Edits -/

/-- Two objects differ at most in the field `k`: the fields under other keys are the same,
in the same order. -/
def Fields.SameBut {α : Type} (k : String) (fs gs : List (String × α)) : Prop :=
  fs.filter (·.1 ≠ k) = gs.filter (·.1 ≠ k)

/-- The other fields have the same content. -/
theorem Fields.SameBut.lookup_eq {α : Type} {k j : String} {fs gs : List (String × α)}
    (h : SameBut k fs gs) (hj : j ≠ k) : fs.lookup j = gs.lookup j := by
  have hfs := Fields.lookup_filter_ne fs k j
  have hgs := Fields.lookup_filter_ne gs k j
  rw [if_neg hj] at hfs hgs
  rw [← hfs, ← hgs, h]

/-- In another order, fields with distinct keys have the same content. -/
theorem Fields.lookup_eq_of_perm {α : Type} {fs gs : List (String × α)} (h : fs.Perm gs)
    (hkeys : (Fields.keys fs).Nodup) (k : String) : fs.lookup k = gs.lookup k := by
  induction h with
  | nil => rfl
  | cons e _ ih =>
    rw [List.lookup_cons, List.lookup_cons, ih (List.nodup_cons.mp hkeys).2]
  | swap d e fs =>
    obtain ⟨i, u⟩ := d
    obtain ⟨j, v⟩ := e
    have hne : i ≠ j := fun h => (List.nodup_cons.mp hkeys).1 (by simp [h])
    simp only [List.lookup_cons]
    cases hi : k == i with
    | false => rfl
    | true =>
      cases hj : k == j with
      | false => rfl
      | true => exact absurd ((beq_iff_eq.mp hi).symm.trans (beq_iff_eq.mp hj)) hne
  | trans hfs _ ih₁ ih₂ =>
    exact (ih₁ hkeys).trans (ih₂ ((hfs.map Prod.fst).nodup hkeys))

/-- The fields of an object inside a value come in another order. -/
inductive Value.Reordered : Value → Value → Prop
  /-- the value is the object -/
  | here {fs gs : List (String × Value)} (h : fs.Perm gs) (hkeys : (Fields.keys fs).Nodup) :
    Reordered (.object fs) (.object gs)
  /-- the object is inside an element of an array -/
  | item {v w : Value} (before after : List Value) (h : Reordered v w) :
    Reordered (.array (before ++ v :: after)) (.array (before ++ w :: after))
  /-- the object is inside a field of an object -/
  | field {v w : Value} (before : List (String × Value)) (k : String)
    (after : List (String × Value)) (h : Reordered v w) :
    Reordered (.object (before ++ (k, v) :: after)) (.object (before ++ (k, w) :: after))

namespace Node

/-- One edit to a possibly absent value that stands where `n` is asked for. -/
inductive Edit : Node → Option Value → Option Value → Prop
  /-- where everything is accepted, anything can be replaced, added or removed -/
  | wildcard {n : Node} {x y : Option Value} (h : n.core = .any) : Edit n x y
  /-- the fields of an object can be reordered, wherever it is -/
  | reorder {n : Node} {v w : Value} (h : v.Reordered w) : Edit n (some v) (some w)
  /-- what is there can be edited as if it were not optional -/
  | present {inner : Node} {x y : Option Value} (hx : Present x) (hy : Present y)
    (h : Edit inner x y) : Edit (.optional inner) x y
  /-- what stands at a reference can be edited as what it embeds allows -/
  | ref {root : Node} {x y : Option Value} (h : Edit root x y) : Edit (.ref root) x y
  /-- an element of an array can be edited -/
  | item {element : Node} {v w : Value} (before after : List Value)
    (h : Edit element (some v) (some w)) :
    Edit (.arrayOf element) (some (.array (before ++ v :: after)))
      (some (.array (before ++ w :: after)))
  /-- where everything is accepted as an element, elements can be added and removed -/
  | items {element : Node} {vs ws : List Value} (h : element.core = .any) :
    Edit (.arrayOf element) (some (.array vs)) (some (.array ws))
  /-- a field that is not declared can be added, removed or changed -/
  | extra {fields : List (String × Node)} {k : String} {fs gs : List (String × Value)}
    (hk : k ∉ Fields.keys fields) (h : Fields.SameBut k fs gs) :
    Edit (.shape fields) (some (.object fs)) (some (.object gs))
  /-- a field that is declared can be edited as its node allows -/
  | field {fields : List (String × Node)} {k : String} {fs gs : List (String × Value)}
    (h : Fields.SameBut k fs gs)
    (hk : ∀ m, (k, m) ∈ fields → Edit m (fs.lookup k) (gs.lookup k)) :
    Edit (.shape fields) (some (.object fs)) (some (.object gs))

end Node

/-! ## Reordered fields -/

namespace Value.Reordered

variable {v w : Value}

/-- Values with reordered fields have the same kinds. -/
theorem hasKind_eq (h : v.Reordered w) (k : Kind) : v.hasKind k = w.hasKind k := by
  cases h <;> cases k <;> rfl

/-- Objects and arrays are no dates, in whatever order. -/
theorem millis?_eq (h : v.Reordered w) : v.millis? = w.millis? := by
  cases h <;> rfl

/-- A value with reordered fields is there, and not null. -/
theorem present (h : v.Reordered w) : Present (some v) ∧ Present (some w) := by
  cases h <;> exact ⟨⟨_, rfl, rfl⟩, ⟨_, rfl, rfl⟩⟩

/-- A field of a value with reordered fields is the same, or itself reordered. -/
theorem get?_cases (h : v.Reordered w) (k : String) :
    v.get? k = w.get? k ∨
      ∃ v' w', v.get? k = some v' ∧ w.get? k = some w' ∧ v'.Reordered w' := by
  cases h with
  | here hperm hkeys => exact .inl (Fields.lookup_eq_of_perm hperm hkeys k)
  | item before after h => exact .inl rfl
  | @field v w before j after h =>
    show (before ++ (j, v) :: after).lookup k = (before ++ (j, w) :: after).lookup k ∨
      ∃ v' w', (before ++ (j, v) :: after).lookup k = some v' ∧
        (before ++ (j, w) :: after).lookup k = some w' ∧ _
    simp only [List.lookup_append, List.lookup_cons]
    cases before.lookup k with
    | some u => exact .inl rfl
    | none =>
      cases k == j with
      | true => exact .inr ⟨v, w, rfl, rfl, h⟩
      | false => exact .inl rfl

end Value.Reordered

namespace Node

/-- Reordered fields do not show in the mismatches, wherever they are. -/
theorem mismatches_reordered (n : Node) (p : Path) {v w : Value} (h : v.Reordered w) :
    n.mismatches Value.millis? p (some v) = n.mismatches Value.millis? p (some w) := by
  induction n generalizing p v w with
  | kind k =>
    have hadmits : k.admits Value.millis? (some v) = k.admits Value.millis? (some w) := by
      rw [Kind.admits, Kind.admits, h.hasKind_eq, h.millis?_eq]
    rw [mismatches_kind, mismatches_kind, hadmits]
  | any => rw [mismatches_any, mismatches_any]
  | optional inner ih =>
    rw [mismatches_optional_of_present _ _ _ h.present.1,
      mismatches_optional_of_present _ _ _ h.present.2, ih p h]
  | arrayOf element ih =>
    cases h with
    | here => rw [mismatches_no_array _ _ _ rfl, mismatches_no_array _ _ _ rfl]
    | item before after h =>
      rw [mismatches_array, mismatches_array]
      simp only [List.flatMap_append, List.flatMap_cons, ih p.each h]
    | field => rw [mismatches_no_array _ _ _ rfl, mismatches_no_array _ _ _ rfl]
  | shape fields ih =>
    have hlike : v.isObjectLike ∧ w.isObjectLike := by cases h <;> exact ⟨rfl, rfl⟩
    rw [mismatches_object _ _ _ hlike.1, mismatches_object _ _ _ hlike.2]
    refine List.flatMap_congr fun e he => ?_
    rcases h.get?_cases e.1 with hsame | ⟨v', w', hv, hw, h'⟩
    · rw [hsame]
    · rw [hv, hw, ih e he _ h']
  | ref root ih => rw [mismatches_ref, mismatches_ref, ih p h]

/-! ## All edits -/

/-- Where everything is accepted, nothing is reported. -/
theorem mismatches_of_core_any {n : Node} (h : n.core = any) (parse : Value → Option Binary64)
    (p : Path) (x : Option Value) : n.mismatches parse p x = [] := by
  induction n with
  | any => exact mismatches_any parse p x
  | optional inner ih =>
    by_cases hx : Present x
    · rw [mismatches_optional_of_present _ _ _ hx, ih h]
    · rw [mismatches_optional_of_not_present _ _ _ hx]
  | ref root ih => rw [mismatches_ref, ih h]
  | kind k => cases h
  | arrayOf element _ => cases h
  | shape fields _ => cases h

/-- An edit does not show in the mismatches. The induction is over where it is made: around
that place, all else is the same. -/
theorem mismatches_edit {n : Node} {x y : Option Value} (h : Edit n x y) (p : Path) :
    n.mismatches Value.millis? p x = n.mismatches Value.millis? p y := by
  induction h generalizing p with
  | wildcard h => rw [mismatches_of_core_any h, mismatches_of_core_any h]
  | reorder h => exact mismatches_reordered _ p h
  | present hx hy _ ih =>
    rw [mismatches_optional_of_present _ _ _ hx, mismatches_optional_of_present _ _ _ hy, ih]
  | ref _ ih => rw [mismatches_ref, mismatches_ref, ih]
  | item before after _ ih =>
    rw [mismatches_array, mismatches_array]
    simp only [List.flatMap_append, List.flatMap_cons, ih]
  | items h =>
    rw [mismatches_array, mismatches_array]
    rw [List.flatMap_eq_nil_iff.mpr fun v _ => mismatches_of_core_any h _ _ _,
      List.flatMap_eq_nil_iff.mpr fun v _ => mismatches_of_core_any h _ _ _]
  | @extra fields k fs gs hk h =>
    rw [mismatches_object _ _ _ rfl, mismatches_object _ _ _ rfl]
    refine List.flatMap_congr fun e he => ?_
    have hne : e.1 ≠ k := fun heq => hk (heq ▸ List.mem_map_of_mem he)
    show e.2.mismatches _ _ (fs.lookup e.1) = e.2.mismatches _ _ (gs.lookup e.1)
    rw [h.lookup_eq hne]
  | @field fields k fs gs h _ ih =>
    rw [mismatches_object _ _ _ rfl, mismatches_object _ _ _ rfl]
    refine List.flatMap_congr fun e he => ?_
    show e.2.mismatches _ _ (fs.lookup e.1) = e.2.mismatches _ _ (gs.lookup e.1)
    by_cases heq : e.1 = k
    · subst heq
      exact ih e.2 he _
    · rw [h.lookup_eq heq]

/-- Nor do any number of edits. -/
theorem mismatches_edits {n : Node} {x y : Option Value} (h : Relation.ReflTransGen (Edit n) x y)
    (p : Path) : n.mismatches Value.millis? p x = n.mismatches Value.millis? p y := by
  induction h with
  | refl => rfl
  | tail _ hedit ih => rw [ih, mismatches_edit hedit p]

end Node

/-! ## Runs -/

/-- What is done about a mismatch, given all mismatches that were reported before it. -/
abbrev Reporter (ε : Type) := List Mismatch → Mismatch → Except ε Unit

/-- Options that ask `r` about every mismatch, and read dates as text is read by default. -/
def Options.asking {ε : Type} (r : Reporter ε) : Options (ExceptT ε (StateM (List Mismatch))) where
  readDate v := pure v.millis?
  report e := do
    let earlier ← get
    set (earlier ++ [e])
    ExceptT.mk (pure (r earlier e))

namespace Node

/-- A run that asks `r` about mismatches: what it returns, and the mismatches that it asked
about. -/
def asked {ε : Type} (r : Reporter ε) (n : Node) (p : Path) (x : Option Value) :
    Except ε Unit × List Mismatch :=
  (n.check (Options.asking r) p x).run.run []

/-- **A schema is blind to what it does not declare.** Whatever is edited where the schema
has no say, and in however many places, a check reports the same mismatches in the same
order, is stopped by the same one, and returns the same. This holds whatever is done about
a mismatch, also if it depends on those before, and in every monad. -/
theorem check_blind_to_edits {n : Node} {x y : Option Value}
    (h : Relation.ReflTransGen (Edit n) x y) (p : Path) :
    (∀ {ε : Type} (r : Reporter ε), n.asked r p x = n.asked r p y) ∧
      ∀ {m : Type → Type} [Monad m] [LawfulMonad m] (o : Options m),
        (∀ v, o.readDate v = pure v.millis?) → n.check o p x = n.check o p y := by
  have hcheck : ∀ {m : Type → Type} [Monad m] [LawfulMonad m] (o : Options m),
      (∀ v, o.readDate v = pure v.millis?) → n.check o p x = n.check o p y := by
    intro m _ _ o hread
    rw [check_eq_forM_mismatches o hread, check_eq_forM_mismatches o hread, mismatches_edits h p]
  refine ⟨?_, hcheck⟩
  intro ε r
  rw [asked, asked, hcheck (Options.asking r) fun _ => rfl]

/-- A record whose fields are reordered, one that is not declared is added, an unrestricted
one removed, and the elements of an unrestricted array replaced: the wrong `id` is reported
as before. -/
theorem check_blind_to_edits_record :
    let n := shape [("id", kind .number), ("note", any), ("more", arrayOf any)]
    let v := Value.object [("id", .string "7"), ("note", .null), ("more", .array [.bool true])]
    let w := Value.object [("more", .array []), ("tag", .string "new"), ("id", .string "7")]
    let r : Reporter Mismatch := fun _ e => .error e
    Relation.ReflTransGen (Edit n) (some v) (some w) ∧
      n.asked r Path.root (some v) = n.asked r Path.root (some w) := by
  intro n v w r
  let reordered := Value.object
    [("more", .array [.bool true]), ("note", .null), ("id", .string "7")]
  let bare := Value.object [("more", .array [.bool true]), ("id", .string "7")]
  let tagged := Value.object
    [("more", .array [.bool true]), ("tag", .string "new"), ("id", .string "7")]
  have hreorder : Edit n (some v) (some reordered) :=
    .reorder (.here (List.reverse_perm [_, _, _]).symm (by decide))
  have hremove : Edit n (some reordered) (some bare) := by
    refine .field (k := "note") rfl ?_
    intro m hm
    obtain rfl : m = any := by simpa [n] using hm
    exact .wildcard rfl
  have hadd : Edit n (some bare) (some tagged) := .extra (k := "tag") (by decide) rfl
  have hreplace : Edit n (some tagged) (some w) := by
    refine .field (k := "more") rfl ?_
    intro m hm
    obtain rfl : m = arrayOf any := by simpa [n] using hm
    exact .items rfl
  have h : Relation.ReflTransGen (Edit n) (some v) (some w) :=
    (((Relation.ReflTransGen.single hreorder).tail hremove).tail hadd).tail hreplace
  exact ⟨h, (check_blind_to_edits h Path.root).1 r⟩

end Node

end Conform
