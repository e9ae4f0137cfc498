import Conform.Proofs.Recognition
import Conform.Proofs.References

/-!
# The text of a schema, taken apart

The text of a schema has the form of shorthand: question marks, something in the middle,
pairs of brackets. The marks are the options at the top and the pairs the arrays below
them, down to the *stem* that both stand around: a kind or the wildcard, which have names;
a shape, in braces; or an array of optional elements, whose brackets stand around them.

- `text_shown`: the text of a schema is that of its marks, its stem and its pairs;
- `erase_eq_wrapped`: and so is the schema itself, up to references;
- `render_read_back`: **shorthand is the text of what it is read as, and the text of a
  schema is read as that schema or not at all**. It is read exactly if the stem has a
  name: the texts of other stems begin with a brace or a bracket, and no name does.
-/

namespace Conform

open Description Shorthand

namespace Node

/-! ## Marks, stem and pairs -/

/-- How many question marks stand in front of a schema's text. -/
def marks : Node → Nat
  | optional inner => inner.marks + 1
  | ref root => root.marks
  | _ => 0

/-- How many pairs of brackets stand behind a schema's text. -/
def pairs : Node → Nat
  | optional inner => inner.pairs
  | arrayOf element => if element.isOptional then 0 else element.pairs + 1
  | ref root => root.pairs
  | _ => 0

/-- What the marks and the pairs of a schema's text stand around. -/
def stem : Node → Node
  | optional inner => inner.stem
  | arrayOf element => if element.isOptional then arrayOf element else element.stem
  | ref root => root.stem
  | n => n

/-- The text of a schema, taken apart. -/
def shown (n : Node) : Shorthand :=
  ⟨n.marks, n.stem.render.toList, n.pairs⟩

/-- Only what is optional has question marks in front. -/
theorem marks_eq_zero {n : Node} (h : n.isOptional = false) : n.marks = 0 := by
  induction n with
  | optional inner _ => cases h
  | ref root ih => exact ih (by rwa [isOptional_ref] at h)
  | _ => rfl

/-- A stem is not optional. -/
theorem isOptional_stem (n : Node) : n.stem.isOptional = false := by
  induction n with
  | optional inner ih => exact ih
  | arrayOf element ih =>
    rw [stem]
    split
    · rfl
    · exact ih
  | ref root ih => exact ih
  | _ => rfl

/-- **A schema is its stem** in as many arrays as its text has pairs, and these in as many
options as it has marks. -/
theorem erase_eq_wrapped (n : Node) : n.erase = wrapped n.shown n.stem.erase := by
  show n.erase = optional^[n.marks] (arrayOf^[n.pairs] n.stem.erase)
  induction n with
  | optional inner ih =>
    rw [erase, marks, Function.iterate_succ_apply', ih]
    rfl
  | arrayOf element ih =>
    cases h : element.isOptional with
    | true => simp [erase, marks, pairs, stem, h]
    | false =>
      -- the element has no marks, so the array goes around its pairs
      rw [marks_eq_zero h] at ih
      simp only [erase, marks, pairs, stem, h, Bool.false_eq_true, if_false]
      rw [ih, Function.iterate_succ_apply']
      rfl
  | ref root ih => exact ih
  | _ => rfl

/-! ## The text of what is wrapped -/

/-- Every option puts a question mark in front. -/
theorem render_iterate_optional (m : Nat) (n : Node) :
    (optional^[m] n).render.toList = List.replicate m '?' ++ n.render.toList := by
  induction m with
  | zero => rfl
  | succ m ih =>
    rw [Function.iterate_succ_apply', render, String.toList_append, ih]
    rfl

/-- Arrays of what is not optional are not optional, and each puts a pair of brackets
behind. -/
theorem render_iterate_arrayOf {n : Node} (h : n.isOptional = false) (k : Nat) :
    (arrayOf^[k] n).isOptional = false ∧
      (arrayOf^[k] n).render.toList = n.render.toList ++ brackets k := by
  induction k with
  | zero => exact ⟨h, (List.append_nil _).symm⟩
  | succ k ih =>
    obtain ⟨hopt, htext⟩ := ih
    rw [Function.iterate_succ_apply']
    refine ⟨rfl, ?_⟩
    rw [render, hopt, if_neg Bool.false_ne_true, String.toList_append, htext, brackets,
      ← List.append_assoc]
    rfl

/-- What is put around a node that is not optional is put around its text. -/
theorem render_wrapped {n : Node} (h : n.isOptional = false) (t : Shorthand) :
    (wrapped t n).render.toList = { t with core := n.render.toList }.text := by
  rw [wrapped, render_iterate_optional, (render_iterate_arrayOf h t.pairs).2,
    ← List.append_assoc]
  rfl

/-- **The text of a schema** is its marks, the text of its stem and its pairs. -/
theorem text_shown (n : Node) : n.shown.text = n.render.toList := by
  have hstem : n.stem.erase.isOptional = false := by rw [isOptional_erase, isOptional_stem]
  rw [← render_erase n, erase_eq_wrapped, render_wrapped hstem, render_erase]
  rfl

/-! ## Names and other stems -/

/-- A node that has a name: a kind, or the wildcard. -/
def HasName (n : Node) : Prop :=
  n = any ∨ ∃ k, n = kind k

/-- A name stands for the node whose text it is. -/
theorem leaf?_eq_some_iff {name : String} {n : Node} :
    leaf? name = some n ↔ n.HasName ∧ name = n.render := by
  unfold leaf?
  constructor
  · intro h
    split at h
    · next k hk =>
      obtain rfl := Option.some.inj h
      exact ⟨.inr ⟨k, rfl⟩, Kind.ofName?_eq_some_iff.mp hk⟩
    · split at h
      · next hany =>
        obtain rfl := Option.some.inj h
        exact ⟨.inl rfl, hany⟩
      · cases h
  · rintro ⟨rfl | ⟨k, rfl⟩, rfl⟩
    · rfl
    · rw [render, Kind.ofName?_name]

/-- The text of a node that has a name is one of the known names. -/
theorem HasName.render_mem {n : Node} (h : n.HasName) :
    n.render ∈ knownNames.map Prod.fst := by
  obtain rfl | ⟨k, rfl⟩ := h
  · exact List.mem_map.mpr ⟨("any", any), List.mem_append_right _ List.mem_cons_self, rfl⟩
  · refine List.mem_map.mpr ⟨(k.name, kind k), List.mem_append_left _ ?_, rfl⟩
    exact List.mem_map.mpr ⟨k, k.mem_all, rfl⟩

/-- What has a name is not optional. -/
theorem HasName.isOptional {n : Node} (h : n.HasName) : n.isOptional = false := by
  obtain rfl | ⟨k, rfl⟩ := h
  · rfl
  · rfl

theorem not_hasName_shape (fields : List (String × Node)) : ¬ (shape fields).HasName := by
  rintro (h | ⟨k, h⟩)
  · cases h
  · cases h

theorem not_hasName_arrayOf (element : Node) : ¬ (arrayOf element).HasName := by
  rintro (h | ⟨k, h⟩)
  · cases h
  · cases h

/-- A known name begins with a letter, and in particular with no mark, brace or bracket. -/
theorem HasName.head?_render {n : Node} (h : n.HasName) :
    ∃ c, n.render.toList.head? = some c ∧ c ∉ ['?', '\x7b', '['] := by
  have hnames : ∀ name ∈ knownNames.map Prod.fst,
      name.toList.head?.any (· ∉ ['?', '\x7b', '[']) = true := by decide
  simpa [Option.any_eq_true] using hnames _ h.render_mem

/-- A stem has a name, or is a shape, or an array of optional elements. -/
theorem stem_cases (n : Node) :
    n.stem.HasName ∨ (∃ fields, n.stem = shape fields) ∨
      ∃ element, n.stem = arrayOf element ∧ element.isOptional := by
  induction n with
  | kind k => exact .inl (.inr ⟨k, rfl⟩)
  | any => exact .inl (.inl rfl)
  | optional inner ih => exact ih
  | arrayOf element ih =>
    rw [stem]
    split
    · next h => exact .inr (.inr ⟨element, rfl, h⟩)
    · exact ih
  | shape fields _ => exact .inr (.inl ⟨fields, rfl⟩)
  | ref root ih => exact ih

/-- The text of a shape begins with a brace. -/
theorem head?_render_shape (fields : List (String × Node)) :
    (shape fields).render.toList.head? = some '\x7b' := by
  cases fields with
  | nil => rfl
  | cons e fields =>
    rw [render, String.toList_append, String.toList_append]
    rfl

/-- The text of an array of optional elements begins with a bracket. -/
theorem head?_render_arrayOf {element : Node} (h : element.isOptional) :
    (arrayOf element).render.toList.head? = some '[' := by
  rw [render, if_pos h, String.toList_append, String.toList_append]
  rfl

/-- **A stem is told by the first character of its text.** -/
theorem exists_head?_render_stem (n : Node) : ∃ c, n.stem.render.toList.head? = some c ∧
    (n.stem.HasName ∧ c ∉ ['?', '\x7b', '['] ∨
      (∃ fields, n.stem = shape fields) ∧ c = '\x7b' ∨
      (∃ element, n.stem = arrayOf element ∧ element.isOptional) ∧ c = '[') := by
  rcases stem_cases n with h | ⟨fields, h⟩ | ⟨element, h, hopt⟩
  · obtain ⟨c, hc, hletter⟩ := h.head?_render
    exact ⟨c, hc, .inl ⟨h, hletter⟩⟩
  · exact ⟨_, h ▸ head?_render_shape fields, .inr (.inl ⟨⟨fields, h⟩, rfl⟩)⟩
  · exact ⟨_, h ▸ head?_render_arrayOf hopt, .inr (.inr ⟨⟨element, h, hopt⟩, rfl⟩)⟩

/-- No stem begins with a question mark. -/
theorem head?_render_stem_ne (n : Node) : n.stem.render.toList.head? ≠ some '?' := by
  obtain ⟨c, hc, h⟩ := exists_head?_render_stem n
  rw [hc]
  rintro ⟨⟩
  rcases h with ⟨-, hletter⟩ | ⟨-, hbrace⟩ | ⟨-, hbracket⟩
  · exact hletter List.mem_cons_self
  · exact absurd hbrace (by decide)
  · exact absurd hbracket (by decide)

/-! ## Reading the text back -/

/-- Options around arrays around what has a name: what shorthand can say. -/
def IsShorthand (n : Node) : Prop :=
  ∃ marks pairs leaf, leaf.HasName ∧ n = optional^[marks] (arrayOf^[pairs] leaf)

/-- **Shorthand is the text of what it is read as**, and every text of something that
shorthand can say is read. -/
theorem normalize_text_eq_ok_iff {s : String} {p : Path} {n : Node} :
    (text s).normalize p = .ok n ↔ n.IsShorthand ∧ s = n.render := by
  rw [Description.normalize, ofShorthand_eq]
  constructor
  · intro h
    cases hleaf : leaf? (String.ofList (peel s.toList).core) with
    | none => simp [hleaf] at h
    | some leaf =>
      obtain ⟨hname, hcore⟩ := leaf?_eq_some_iff.mp hleaf
      have hn : n = wrapped (peel s.toList) leaf := by simpa [hleaf] using h.symm
      refine ⟨⟨_, _, leaf, hname, hn⟩, ?_⟩
      -- taken apart and put together again, the text is the same
      have htext : n.render.toList = s.toList := by
        rw [hn, render_wrapped hname.isOptional, ← hcore, String.toList_ofList]
        exact text_peel s.toList
      exact (String.toList_inj.mp htext).symm
  · rintro ⟨⟨marks, pairs, leaf, hname, hn⟩, rfl⟩
    have hn : n = wrapped ⟨marks, leaf.render.toList, pairs⟩ leaf := hn
    have hpeel : peel n.render.toList = ⟨marks, leaf.render.toList, pairs⟩ := by
      rw [hn, render_wrapped hname.isOptional]
      exact peel_known (by simpa using hname.render_mem)
    have hleaf : leaf? (String.ofList leaf.render.toList) = some leaf :=
      leaf?_eq_some_iff.mpr ⟨hname, String.ofList_toList⟩
    rw [hpeel]
    simp only [hleaf]
    exact congrArg Except.ok hn.symm

/-- What stands behind the marks of a text begins as its core does. -/
theorem head?_dropWhile_text {t : Shorthand} {c : Char} (hc : t.core.head? = some c)
    (hmark : c ≠ '?') : (t.text.dropWhile (· == '?')).head? = some c := by
  obtain ⟨rest, hcore⟩ := List.head?_eq_some_iff.mp hc
  rw [Shorthand.text, hcore, List.append_assoc, List.dropWhile_append_of_pos (by simp)]
  simp [hmark]

/-- A schema with the text of something that shorthand can say has a stem with a name: its
text begins with a letter where those of other stems begin with a brace or bracket. -/
theorem hasName_of_render_eq {n m : Node} (hm : m.IsShorthand) (h : n.render = m.render) :
    n.stem.HasName := by
  obtain ⟨marks, pairs, leaf, hname, rfl⟩ := hm
  obtain ⟨c, hc, hletter⟩ := hname.head?_render
  obtain ⟨d, hd, hstem⟩ := exists_head?_render_stem n
  have hmark : d ≠ '?' := fun hmark => head?_render_stem_ne n (hmark ▸ hd)
  have hcd : d = c := by
    have htext : n.shown.text = Shorthand.text ⟨marks, leaf.render.toList, pairs⟩ := by
      rw [text_shown, h]
      exact render_wrapped hname.isOptional ⟨marks, leaf.render.toList, pairs⟩
    have hleaf := head?_dropWhile_text (t := ⟨marks, leaf.render.toList, pairs⟩) hc
      fun hmark => hletter (by simp [hmark])
    rw [← htext, head?_dropWhile_text (t := n.shown) hd hmark] at hleaf
    exact Option.some.inj hleaf
  rcases hstem with ⟨hstem, -⟩ | ⟨-, hbrace⟩ | ⟨-, hbracket⟩
  · exact hstem
  · exact absurd (by simp [← hcd, hbrace]) hletter
  · exact absurd (by simp [← hcd, hbracket]) hletter

/-- Shorthand can say a schema exactly if its stem has a name. -/
theorem isShorthand_erase_iff {n : Node} : n.erase.IsShorthand ↔ n.stem.HasName := by
  constructor
  · intro h
    exact hasName_of_render_eq h (render_erase n).symm
  · intro h
    have hstem : n.stem.erase = n.stem := by
      obtain hany | ⟨k, hk⟩ := h
      · rw [hany, erase]
      · rw [hk, erase]
    refine ⟨n.marks, n.pairs, n.stem, h, ?_⟩
    rw [erase_eq_wrapped, hstem]
    rfl

/-- The text of a schema is read exactly if shorthand can say the schema, and then as it is
without references. -/
theorem normalize_render_eq_ok_iff {n m : Node} {p : Path} :
    (text n.render).normalize p = .ok m ↔ n.erase.IsShorthand ∧ m = n.erase := by
  have herase : n.erase.IsShorthand → (text n.render).normalize p = .ok n.erase := by
    intro h
    exact normalize_text_eq_ok_iff.mpr ⟨h, (render_erase n).symm⟩
  constructor
  · intro h
    obtain ⟨hm, htext⟩ := normalize_text_eq_ok_iff.mp h
    have hn := isShorthand_erase_iff.mpr (hasName_of_render_eq hm htext)
    exact ⟨hn, Except.ok.inj (h.symm.trans (herase hn))⟩
  · rintro ⟨h, rfl⟩
    exact herase h

/-! ## What is not read back -/

/-- A schema holds its stem. -/
theorem exists_fill_stem (n : Node) : ∃ C : Context, n = C.fill n.stem := by
  induction n with
  | optional inner ih =>
    obtain ⟨C, hC⟩ := ih
    exact ⟨.optional C, congrArg optional hC⟩
  | arrayOf element ih =>
    rw [stem]
    split
    · exact ⟨.hole, rfl⟩
    · obtain ⟨C, hC⟩ := ih
      exact ⟨.arrayOf C, congrArg arrayOf hC⟩
  | ref root ih =>
    obtain ⟨C, hC⟩ := ih
    exact ⟨.ref C, congrArg ref hC⟩
  | _ => exact ⟨.hole, rfl⟩

/-- If the stem of a schema has a name, so does the stem of everything that it holds. -/
theorem hasName_of_fill {C : Context} {m : Node} (h : (C.fill m).stem.HasName) :
    m.stem.HasName := by
  induction C with
  | hole => exact h
  | optional inner ih => exact ih h
  | arrayOf inner ih =>
    rw [Context.fill, stem] at h
    split at h
    · exact absurd h (not_hasName_arrayOf _)
    · exact ih h
  | shape before key inner after _ => exact absurd h (not_hasName_shape _)
  | ref inner ih => exact ih h

/-- Shorthand cannot say a schema that holds a shape, or an array of optional elements,
at any depth. It can say all others. -/
theorem not_isShorthand_erase_iff {n : Node} :
    ¬ n.erase.IsShorthand ↔ ∃ (C : Context) (m : Node), n = C.fill m ∧
      ((∃ fields, m = shape fields) ∨ ∃ element, m = arrayOf element ∧ element.isOptional) := by
  rw [isShorthand_erase_iff]
  constructor
  · intro h
    obtain ⟨C, hC⟩ := exists_fill_stem n
    exact ⟨C, n.stem, hC, (stem_cases n).resolve_left h⟩
  · rintro ⟨C, m, rfl, hm⟩ h
    have hname := hasName_of_fill h
    rcases hm with ⟨fields, rfl⟩ | ⟨element, rfl, hopt⟩
    · exact not_hasName_shape fields hname
    · rw [stem, if_pos hopt] at hname
      exact not_hasName_arrayOf element hname

/-- **Texts and schemas are inverse where they meet, and disagree nowhere.** A text that is
read is the text of the schema that it is read as. The text of a schema is read as that
schema without its references, if at all. It is read if the schema is options around arrays
around what has a name, and refused if it holds, at any depth, a shape or an array of
optional elements; there are no other schemas. -/
theorem render_read_back :
    (∀ (s : String) (p : Path) (n : Node), (text s).normalize p = .ok n → n.render = s) ∧
    ∀ (n : Node) (p : Path),
      (∀ m, (text n.render).normalize p = .ok m → m = n.erase) ∧
      ((∃ m, (text n.render).normalize p = .ok m) ↔ n.erase.IsShorthand) ∧
      ((∃ e, (text n.render).normalize p = .error e) ↔
        ∃ (C : Context) (m : Node), n = C.fill m ∧
          ((∃ fields, m = shape fields) ∨
            ∃ element, m = arrayOf element ∧ element.isOptional)) := by
  refine ⟨fun s p n h => (normalize_text_eq_ok_iff.mp h).2.symm, fun n p => ⟨?_, ?_, ?_⟩⟩
  · intro m h
    exact (normalize_render_eq_ok_iff.mp h).2
  · simp [normalize_render_eq_ok_iff]
  · rw [← not_isShorthand_erase_iff]
    cases h : (text n.render).normalize p with
    | ok m => simp [(normalize_render_eq_ok_iff.mp h).1]
    | error e =>
      refine iff_of_true ⟨e, rfl⟩ fun hn => ?_
      rw [normalize_render_eq_ok_iff.mpr ⟨hn, rfl⟩] at h
      cases h

end Node

end Conform
