import Conform.Proofs.SchemaTexts
import Conform.Proofs.ShapeKeys

/-!
# The text of a schema says which schema it is

The text of a schema mixes marks in front, pairs of brackets behind, brackets around and
braces, and it shows keys as they are. Still only one schema has it, references apart, as
long as no key holds the colon and space that end a key.

The reason is that a text tells where the part in front of it ends, whatever comes after:
this is `Determined`, the statement of the induction. A question mark is always a mark, as
no stem begins with one; a stem is told by its first character, and ends by itself; and
pairs go on until something else comes than an opening bracket. So the induction is over
stems (`induct_stem`): what is left for the schemas below is what a shape or an array of
optional elements has inside.
-/

namespace Conform

open Description Shorthand

namespace Node

/-! ## Induction over stems -/

/-- Induction over the stems of a schema: for a shape the statement may be assumed of its
fields, for an array of optional elements of these. -/
@[elab_as_elim]
theorem induct_stem {motive : Node → Prop}
    (step : ∀ n, (∀ fields, n.stem = shape fields → ∀ e ∈ fields, motive e.2) →
      (∀ element, n.stem = arrayOf element → motive element) → motive n)
    (n : Node) : motive n := by
  suffices hbelow : (∀ fields, n.stem = shape fields → ∀ e ∈ fields, motive e.2) ∧
      ∀ element, n.stem = arrayOf element → motive element from
    step n hbelow.1 hbelow.2
  induction n with
  | kind k => exact ⟨by rintro _ ⟨⟩, by rintro _ ⟨⟩⟩
  | any => exact ⟨by rintro _ ⟨⟩, by rintro _ ⟨⟩⟩
  | optional inner ih => exact ih
  | arrayOf element ih =>
    rw [stem]
    split
    · refine ⟨by rintro _ ⟨⟩, ?_⟩
      rintro _ ⟨⟩
      exact step element ih.1 ih.2
    · exact ih
  | shape fields ih =>
    refine ⟨?_, by rintro _ ⟨⟩⟩
    rintro _ ⟨⟩ e he
    exact step e.2 (ih e he).1 (ih e he).2
  | ref root ih => exact ih

/-! ## Keys -/

/-- A key that does not hold the colon and space that end a key. -/
def PlainKey (key : String) : Prop :=
  ¬ [':', ' '] <:+: key.toList

/-- All keys are plain, at any depth. -/
def PlainKeys : Node → Prop :=
  KeysHold fun keys => ∀ key ∈ keys, PlainKey key

/-- The keys of a shape are plain if those of its fields are, and what they hold. -/
theorem plainKeys_shape_iff {fields : List (String × Node)} :
    (shape fields).PlainKeys ↔ ∀ e ∈ fields, PlainKey e.1 ∧ e.2.PlainKeys := by
  rw [PlainKeys, keysHold_shape_iff, Fields.keys, List.forall_mem_map, ← forall₂_and]

/-- The keys of a stem are among the keys of the schema. -/
theorem PlainKeys.stem {n : Node} (h : n.PlainKeys) : n.stem.PlainKeys := by
  induction n with
  | optional inner ih => exact ih h
  | arrayOf element ih =>
    rw [Node.stem]
    split
    · exact h
    · exact ih h
  | ref root ih => exact ih h
  | _ => exact h

/-- A colon and space that do not come at once come inside what stands before. -/
theorem separator_cases {cs x y : List Char} (h : ':' :: ' ' :: x = cs ++ ':' :: ' ' :: y) :
    cs = [] ∨ [':', ' '] <+: cs := by
  match cs with
  | [] => exact .inl rfl
  | [c] => simp at h
  | c :: d :: cs =>
    obtain ⟨rfl, rfl, -⟩ : ':' = c ∧ ' ' = d ∧ _ := by simpa using h
    exact .inr ⟨cs, rfl⟩

/-- A plain key ends at the first colon and space. -/
theorem PlainKey.unique {j k : String} (hj : PlainKey j) (hk : PlainKey k) {x y : List Char}
    (h : j.toList ++ ':' :: ' ' :: x = k.toList ++ ':' :: ' ' :: y) : j = k ∧ x = y := by
  have heq : j.toList = k.toList := by
    rcases List.append_eq_append_iff.mp h with ⟨more, hmore, hrest⟩ | ⟨more, hmore, hrest⟩
    · rcases separator_cases hrest with rfl | hsep
      · simpa using hmore.symm
      · exact absurd (hsep.isInfix.trans (hmore ▸ (List.suffix_append _ _).isInfix)) hk
    · rcases separator_cases hrest with rfl | hsep
      · simpa using hmore
      · exact absurd (hsep.isInfix.trans (hmore ▸ (List.suffix_append _ _).isInfix)) hj
  rw [heq] at h
  have hrest := List.append_cancel_left h
  exact ⟨String.toList_inj.mp heq, by simpa using hrest⟩

/-! ## Marks and pairs -/

/-- Equal blocks are counted off where something else follows than their first character. -/
theorem blocks_unique {c : Char} {cs : List Char} {m n : Nat} {x y : List Char}
    (hx : x.head? ≠ some c) (hy : y.head? ≠ some c)
    (h : (List.replicate m (c :: cs)).flatten ++ x = (List.replicate n (c :: cs)).flatten ++ y) :
    m = n ∧ x = y := by
  induction m generalizing n with
  | zero =>
    cases n with
    | zero => exact ⟨rfl, h⟩
    | succ n =>
      replace h : x = (List.replicate (n + 1) (c :: cs)).flatten ++ y := h
      exact absurd (by rw [h]; rfl) hx
  | succ m ih =>
    cases n with
    | zero =>
      replace h : (List.replicate (m + 1) (c :: cs)).flatten ++ x = y := h
      exact absurd (by rw [← h]; rfl) hy
    | succ n =>
      simp only [List.replicate_succ, List.flatten_cons, List.append_assoc] at h
      obtain ⟨rfl, hrest⟩ := ih (List.append_cancel_left h)
      exact ⟨rfl, hrest⟩

/-- Pairs of brackets are blocks. -/
theorem brackets_eq_flatten (n : Nat) :
    brackets n = (List.replicate n ['[', ']']).flatten := by
  induction n with
  | zero => rfl
  | succ n ih => rw [brackets, ih, List.replicate_succ', List.flatten_append]; rfl

/-! ## Shapes -/

/-- A text in which no pair of brackets comes next. -/
def NoPairAhead (cs : List Char) : Prop :=
  cs.head? ≠ some '['

theorem noPairAhead_nil : NoPairAhead [] := by
  simp [NoPairAhead]

theorem noPairAhead_close (cs : List Char) : NoPairAhead (']' :: cs) := by
  simp [NoPairAhead]

/-- Every text that begins with the text of a schema has this schema in front, and not
another: it determines the schema, and where its text ends. -/
def Determined (a : Node) : Prop :=
  ∀ b : Node, b.PlainKeys → ∀ x y : List Char, NoPairAhead x → NoPairAhead y →
    a.render.toList ++ x = b.render.toList ++ y → a.erase = b.erase ∧ x = y

/-- The text of a field. -/
def entry (e : String × Node) : List Char :=
  e.1.toList ++ ':' :: ' ' :: e.2.render.toList

/-- What comes behind a field in the text of a shape: the other fields, and the closing
brace. -/
def closing : List (String × Node) → List Char
  | [] => [' ', '\x7d']
  | e :: fields => ',' :: ' ' :: entry e ++ closing fields

/-- A shape with fields shows them between braces. -/
theorem render_shape_cons (e : String × Node) (fields : List (String × Node)) :
    (shape (e :: fields)).render.toList = '\x7b' :: ' ' :: entry e ++ closing fields := by
  have hfields : ∀ e : String × Node, (renderFields (e :: fields)).toList ++ [' ', '\x7d'] =
      entry e ++ closing fields := by
    induction fields with
    | nil => rintro ⟨k, n⟩; simp [renderFields, entry, closing]
    | cons d fields ih => rintro ⟨k, n⟩; simp [renderFields, entry, closing, ih d]
  simp [render, hfields]

/-- Behind a field comes no pair of brackets. -/
theorem noPairAhead_closing (fields : List (String × Node)) (x : List Char) :
    NoPairAhead (closing fields ++ x) := by
  cases fields <;> simp [closing, NoPairAhead]

/-- A field is determined if its key is plain and what it holds is determined. -/
theorem entry_unique {d e : String × Node} (hd : PlainKey d.1) (he : PlainKey e.1)
    (hkeys : e.2.PlainKeys) (hnode : d.2.Determined) {x y : List Char} (hx : NoPairAhead x)
    (hy : NoPairAhead y) (h : entry d ++ x = entry e ++ y) :
    (d.1, d.2.erase) = (e.1, e.2.erase) ∧ x = y := by
  simp only [entry, List.append_assoc, List.cons_append] at h
  obtain ⟨hkey, hrest⟩ := hd.unique he h
  obtain ⟨herase, hxy⟩ := hnode e.2 hkeys x y hx hy hrest
  exact ⟨Prod.ext hkey herase, hxy⟩

/-- The fields behind one are determined if each is. -/
theorem closing_unique {ds es : List (String × Node)}
    (hds : ∀ d ∈ ds, PlainKey d.1 ∧ d.2.Determined)
    (hes : ∀ e ∈ es, PlainKey e.1 ∧ e.2.PlainKeys) {x y : List Char}
    (h : closing ds ++ x = closing es ++ y) : eraseFields ds = eraseFields es ∧ x = y := by
  induction ds generalizing es with
  | nil =>
    cases es with
    | nil => exact ⟨rfl, by simpa [closing] using h⟩
    | cons e es => simp [closing] at h
  | cons d ds ih =>
    cases es with
    | nil => simp [closing] at h
    | cons e es =>
      obtain ⟨⟨hd, hnode⟩, hds⟩ := List.forall_mem_cons.mp hds
      obtain ⟨⟨he, hkeys⟩, hes⟩ := List.forall_mem_cons.mp hes
      simp only [closing, List.append_assoc, List.cons_append, List.cons.injEq, true_and] at h
      obtain ⟨hfield, hrest⟩ := entry_unique hd he hkeys hnode (noPairAhead_closing ds x)
        (noPairAhead_closing es y) h
      obtain ⟨hfields, hxy⟩ := ih hds hes hrest
      refine ⟨?_, hxy⟩
      simp only [eraseFields_eq_map, List.map_cons] at hfields ⊢
      rw [hfield, hfields]

/-- A shape is determined, and ends by itself, if its fields are determined. -/
theorem shape_unique {ds es : List (String × Node)}
    (hds : ∀ d ∈ ds, PlainKey d.1 ∧ d.2.Determined)
    (hes : ∀ e ∈ es, PlainKey e.1 ∧ e.2.PlainKeys) {x y : List Char}
    (h : (shape ds).render.toList ++ x = (shape es).render.toList ++ y) :
    (shape ds).erase = (shape es).erase ∧ x = y := by
  cases ds with
  | nil =>
    cases es with
    | nil => exact ⟨rfl, List.append_cancel_left h⟩
    | cons e es =>
      rw [render_shape_cons] at h
      simp [render] at h
  | cons d ds =>
    cases es with
    | nil =>
      rw [render_shape_cons] at h
      simp [render] at h
    | cons e es =>
      -- the first field has an opening brace before it where the others have a comma
      have hclosing : closing (d :: ds) ++ x = closing (e :: es) ++ y := by
        rw [render_shape_cons, render_shape_cons] at h
        simpa [closing] using h
      obtain ⟨hfields, hxy⟩ := closing_unique hds hes hclosing
      exact ⟨congrArg shape hfields, hxy⟩

/-! ## Stems -/

/-- No known name begins with another. -/
theorem HasName.unique {a b : Node} (ha : a.HasName) (hb : b.HasName) {x y : List Char}
    (h : a.render.toList ++ x = b.render.toList ++ y) : a = b ∧ x = y := by
  have hnames : ∀ c ∈ knownNames.map Prod.fst, ∀ d ∈ knownNames.map Prod.fst,
      c.toList <+: d.toList → c = d := by decide
  have hrender : a.render = b.render := by
    rcases List.append_eq_append_iff.mp h with ⟨more, hmore, -⟩ | ⟨more, hmore, -⟩
    · exact hnames _ ha.render_mem _ hb.render_mem ⟨more, hmore.symm⟩
    · exact (hnames _ hb.render_mem _ ha.render_mem ⟨more, hmore.symm⟩).symm
  have hleaf : some a = some b := by
    rw [← leaf?_eq_some_iff.mpr ⟨ha, rfl⟩, ← leaf?_eq_some_iff.mpr ⟨hb, rfl⟩, hrender]
  refine ⟨Option.some.inj hleaf, ?_⟩
  rw [hrender] at h
  exact List.append_cancel_left h

/-- A stem is determined, and ends by itself, if what it has inside is determined. -/
theorem stem_unique {a b : Node}
    (hfields : ∀ ds, a.stem = shape ds → ∀ d ∈ ds, PlainKey d.1 ∧ d.2.Determined)
    (helement : ∀ element, a.stem = arrayOf element → element.Determined)
    (hkeys : b.PlainKeys) {x y : List Char}
    (h : a.stem.render.toList ++ x = b.stem.render.toList ++ y) :
    a.stem.erase = b.stem.erase ∧ x = y := by
  obtain ⟨c, hc, hcases⟩ := exists_head?_render_stem a
  obtain ⟨d, hd, hdcases⟩ := exists_head?_render_stem b
  obtain rfl : c = d := by
    have hhead := congrArg List.head? h
    rw [List.head?_append, hc, List.head?_append, hd] at hhead
    exact Option.some.inj hhead
  -- both begin with the same character, so both are of the same form
  rcases hcases with ⟨ha, hletter⟩ | ⟨⟨ds, ha⟩, rfl⟩ | ⟨⟨element, ha, hopt⟩, rfl⟩
  · rcases hdcases with ⟨hb, -⟩ | ⟨-, rfl⟩ | ⟨-, rfl⟩
    · obtain ⟨hab, hxy⟩ := ha.unique hb h
      exact ⟨congrArg erase hab, hxy⟩
    · exact absurd (by decide) hletter
    · exact absurd (by decide) hletter
  · rcases hdcases with ⟨-, hletter⟩ | ⟨⟨es, hb⟩, -⟩ | ⟨-, hbrace⟩
    · exact absurd (by decide) hletter
    · rw [ha, hb] at h ⊢
      exact shape_unique (hfields ds ha) (plainKeys_shape_iff.mp (hb ▸ hkeys.stem)) h
    · exact absurd hbrace (by decide)
  · rcases hdcases with ⟨-, hletter⟩ | ⟨-, hbracket⟩ | ⟨⟨element', hb, hopt'⟩, -⟩
    · exact absurd (by decide) hletter
    · exact absurd hbracket (by decide)
    · have hkeys' : element'.PlainKeys := by
        have hstem := hkeys.stem
        rwa [hb] at hstem
      rw [ha, hb] at h ⊢
      have hinside : element.render.toList ++ ']' :: x = element'.render.toList ++ ']' :: y := by
        simpa [render, hopt, hopt'] using h
      obtain ⟨herase, hrest⟩ := helement element ha element' hkeys' (']' :: x) (']' :: y)
        (noPairAhead_close x) (noPairAhead_close y) hinside
      exact ⟨congrArg arrayOf herase, (List.cons.inj hrest).2⟩

/-! ## Schemas -/

/-- Behind the marks of a schema's text comes something else. -/
theorem head?_render_stem_append_ne (n : Node) (x : List Char) :
    (n.stem.render.toList ++ x).head? ≠ some '?' := by
  obtain ⟨c, hc, -⟩ := exists_head?_render_stem n
  have hmark := head?_render_stem_ne n
  rw [hc] at hmark
  rwa [List.head?_append, hc]

/-- **A schema is determined by any text that begins with its own**, if no key holds a
colon and space. -/
theorem determined_of_plainKeys {a : Node} (ha : a.PlainKeys) : a.Determined := by
  induction a using induct_stem with
  | step a hfields helement =>
    intro b hb x y hx hy h
    have hshape : ∀ ds, a.stem = shape ds → ∀ d ∈ ds, PlainKey d.1 ∧ d.2.Determined := by
      intro ds hds d hd
      obtain ⟨hkey, hkeys⟩ := plainKeys_shape_iff.mp (hds ▸ ha.stem) d hd
      exact ⟨hkey, hfields ds hds d hd hkeys⟩
    have harray : ∀ element, a.stem = arrayOf element → element.Determined := by
      intro element helem
      have hkeys := ha.stem
      rw [helem] at hkeys
      exact helement element helem hkeys
    -- the marks are counted off, then the stem ends by itself, then the pairs are counted off
    rw [← text_shown, ← text_shown] at h
    simp only [Shorthand.text, shown, ← List.flatten_replicate_singleton (a := '?'),
      List.append_assoc] at h
    obtain ⟨hmarks, hstems⟩ := blocks_unique (head?_render_stem_append_ne a _)
      (head?_render_stem_append_ne b _) h
    obtain ⟨herase, hpairs⟩ := stem_unique hshape harray hb hstems
    rw [brackets_eq_flatten, brackets_eq_flatten] at hpairs
    obtain ⟨hcount, hxy⟩ := blocks_unique hx hy hpairs
    refine ⟨?_, hxy⟩
    rw [erase_eq_wrapped a, erase_eq_wrapped b, herase]
    show optional^[a.marks] (arrayOf^[a.pairs] _) = _
    rw [hmarks, hcount]
    rfl

/-- **The text of a schema is unambiguous.** Where no key holds a colon and space, two
schemas have the same text only if they are the same without references, with their fields
in the same order; and then they have. -/
theorem render_eq_iff {a b : Node} (ha : a.PlainKeys) (hb : b.PlainKeys) :
    a.render = b.render ↔ a.erase = b.erase := by
  constructor
  · intro h
    have htext : a.render.toList ++ [] = b.render.toList ++ [] := by rw [h]
    exact (determined_of_plainKeys ha b hb [] [] noPairAhead_nil noPairAhead_nil htext).1
  · exact render_congr_erase

/-- Two schemas with the same text: the keys end with a colon or hold closing braces and
brackets, and one of the schemas holds references. -/
theorem render_eq_iff_oddKeys :
    let a := shape
      [("id:", ref (arrayOf (kind .number))), (" \x7d []", arrayOf (ref (optional any)))]
    let b := shape [("id:", arrayOf (kind .number)), (" \x7d []", arrayOf (optional any))]
    a.PlainKeys ∧ b.PlainKeys ∧ a.render = "\x7b id:: number[],  \x7d []: [?any] \x7d" ∧
      (a.render = b.render ↔ a.erase = b.erase) := by
  intro a b
  have hplain : PlainKey "id:" ∧ PlainKey " \x7d []" := by
    unfold PlainKey
    decide
  have ha : a.PlainKeys := plainKeys_shape_iff.mpr (by simp [hplain, PlainKeys, KeysHold])
  have hb : b.PlainKeys := plainKeys_shape_iff.mpr (by simp [hplain, PlainKeys, KeysHold])
  exact ⟨ha, hb, by decide, render_eq_iff ha hb⟩

-- a key that holds a colon and space can look like a field and another key
example : (shape [("id", kind .number), ("tag", any)]).render =
    (shape [("id: number, tag", any)]).render := by decide

end Node

end Conform
