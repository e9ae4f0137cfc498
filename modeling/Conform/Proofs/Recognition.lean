import Conform.Proofs.Shorthand

/-!
# What is recognized, and what is complained about

What the reading of a description comes to, told without following it:

- `Description.complaints`: all tokens that describe no schema, from left to right and with
  their positions, whether or not the reading gets so far;
- `Description.spelled`: the node that a description spells, token by token;
- `Description.normalize_eq_firstOr`: **a description is read if there is nothing to
  complain about, and otherwise the first complaint is the error**.

Errors are compared by their texts, the quotation of the token and the text of its
position.
-/

namespace Conform

/-- What an error says of a token: its quotation, and the text of its position. -/
structure Complaint where
  repr : String
  field : String
deriving DecidableEq

/-- What is said of an unknown token. -/
def UnknownToken.complaint (e : UnknownToken) : Complaint :=
  ⟨e.token.render, e.position.render⟩

/-! ## The first complaint -/

/-- The first of the complaints; where there are none, the result. -/
def firstOr {α : Type} (complaints : List Complaint) (result : α) : Except Complaint α :=
  match complaints with
  | [] => .ok result
  | c :: _ => .error c

/-- There is a result exactly if there are no complaints. -/
theorem exists_firstOr_eq_ok_iff {α : Type} {cs : List Complaint} {a : α} :
    (∃ b, firstOr cs a = .ok b) ↔ cs = [] := by
  cases cs with
  | nil => simp [firstOr]
  | cons c cs => simp [firstOr]

/-- What is done with the result leaves the complaints alone. -/
theorem map_firstOr {α β : Type} (cs : List Complaint) (a : α) (g : α → β) :
    (firstOr cs a).map g = firstOr cs (g a) := by
  cases cs <;> rfl

/-- Of two parts read one after the other, the complaints about the first come first. -/
theorem bind_firstOr {α β γ : Type} (cs ds : List Complaint) (a : α) (b : β) (g : α → β → γ) :
    ((firstOr cs a).bind fun x => (firstOr ds b).map (g x)) = firstOr (cs ++ ds) (g a b) := by
  cases cs with
  | nil => exact map_firstOr ds b (g a)
  | cons c cs => rfl

/-- A reading of two parts, and of what is said of its errors. -/
theorem mapError_bind {ε α β δ : Type} (r : Except ε α) (f : α → Except ε β) (g : ε → δ) :
    (r.bind f).mapError g = (r.mapError g).bind fun x => (f x).mapError g := by
  cases r <;> rfl

/-! ## Complaints and spelling -/

namespace Description

open Shorthand

mutual

/-- The tokens that describe no schema, from left to right: text whose core is no known
name, lists of other than one element, and values of other kinds. `field` is the text of
the position at which the description stands. -/
def complaints (field : String) : Description → List Complaint
  | marker _ => []
  | any => []
  | text s =>
    let t := peel s.toList
    if (knownNames.lookup (String.ofList t.core)).isSome then []
    else [⟨"'" ++ String.ofList t.core ++ "'",
      field ++ String.join (List.replicate t.pairs ".$")⟩]
  | optional inner => inner.complaints field
  | list [element] => element.complaints (field ++ ".$")
  | list items => [⟨(list items).render, field⟩]
  | shape fields => fieldComplaints field fields
  | schema _ => []
  | other value => [⟨(other value).render, field⟩]

/-- The tokens that describe no schema among a shape's fields, field by field. -/
def fieldComplaints (field : String) : List (String × Description) → List Complaint
  | [] => []
  | (k, d) :: fields => d.complaints (field ++ "." ++ k) ++ fieldComplaints field fields

end

mutual

/-- The node that a description spells, every token being built by itself; what describes
no schema spells `any`. -/
def spelled : Description → Node
  | marker k => .kind k
  | any => .any
  | text s =>
    let t := peel s.toList
    wrapped t ((knownNames.lookup (String.ofList t.core)).getD .any)
  | optional inner => .optional inner.spelled
  | list [element] => .arrayOf element.spelled
  | list _ => .any
  | shape fields => .shape (spelledFields fields)
  | schema root => .ref root
  | other _ => .any

/-- The nodes of a shape's fields, under the same keys and in the same order. -/
def spelledFields : List (String × Description) → List (String × Node)
  | [] => []
  | (k, d) :: fields => (k, d.spelled) :: spelledFields fields

end

/-- A list of other than one element is one token. -/
theorem complaints_list_of_length_ne_one {items : List Description} (h : items.length ≠ 1)
    (field : String) : (list items).complaints field = [⟨(list items).render, field⟩] := by
  match items with
  | [] => rfl
  | [_] => exact absurd rfl h
  | _ :: _ :: _ => rfl

/-! ## The reading -/

/-- Every pair of brackets around a core adds `.$` to the text of its path. -/
theorem corePath_render (p : Path) (t : Shorthand) :
    (corePath p t).render = p.render ++ String.join (List.replicate t.pairs ".$") := by
  have hsuffix : ∀ n, Path.suffix (List.replicate n .each) =
      String.join (List.replicate n ".$") := by
    intro n
    induction n with
    | zero => rfl
    | succ n ih =>
      rw [List.replicate_succ, List.replicate_succ, Path.suffix_cons, String.join_cons, ih]
      rfl
  rw [corePath, Path.render, Path.descend, Path.suffix_append, hsuffix, ← String.append_assoc]
  rfl

/-- Shorthand is read, or its core is complained about. -/
theorem normalize_text_eq_firstOr (p : Path) (s : String) :
    ((text s).normalize p).mapError UnknownToken.complaint =
      firstOr ((text s).complaints p.render) (text s).spelled := by
  rw [normalize, ofShorthand_eq, leaf?_eq_lookup, complaints, spelled]
  cases knownNames.lookup (String.ofList (peel s.toList).core) with
  | some n => rfl
  | none =>
    show Except.error (UnknownToken.complaint _) = Except.error _
    rw [UnknownToken.complaint, render, corePath_render]

/-! ## The grammar of shorthand

Shorthand is marks, a name and pairs of brackets. Which of the names it is, decides alone
whether the text is read. -/

/-- A text is read exactly if its core is a known name. -/
theorem exists_normalize_text_iff (s : String) (p : Path) :
    (∃ n, (text s).normalize p = .ok n) ↔
      String.ofList (peel s.toList).core ∈ knownNames.map Prod.fst := by
  have hmem : ∀ name, name ∈ knownNames.map Prod.fst ↔ ∃ n, knownNames.lookup name = some n := by
    intro name
    rw [← Option.isSome_iff_exists, List.lookup_isSome_iff, List.mem_map]
    refine exists_congr fun e => and_congr_right fun _ => ?_
    rw [beq_iff_eq, eq_comm]
  rw [hmem, normalize, ofShorthand_eq, leaf?_eq_lookup]
  cases knownNames.lookup (String.ofList (peel s.toList).core) with
  | some n => exact ⟨fun _ => ⟨n, rfl⟩, fun _ => ⟨_, rfl⟩⟩
  | none =>
    refine iff_of_false ?_ ?_
    · rintro ⟨n, h⟩
      cases h
    · rintro ⟨n, h⟩
      cases h

/-- Known names are cores, so they are what is left of texts that are put around them. -/
theorem peel_known {t : Shorthand} (h : String.ofList t.core ∈ knownNames.map Prod.fst) :
    peel t.text = t := by
  refine peel_text ?_
  obtain ⟨⟨name, n⟩, hmem, hname⟩ := List.mem_map.mp h
  have hleaf : ∀ e ∈ knownNames, (leaf? e.1).isSome := by decide
  obtain ⟨n', hn'⟩ := Option.isSome_iff_exists.mp (hleaf _ hmem)
  have hname : name = String.ofList t.core := hname
  rw [hname] at hn'
  exact isCore_of_leaf? hn'

/-- **Shorthand is read by its grammar.** A text is taken apart into marks, a core and pairs of
brackets, in the one way that leaves nothing to peel off the core. If the core is a known name,
the text is read as its node in as many arrays as there are pairs, and these in as many options as
there are marks; otherwise the core is quoted, one step to the elements below for each pair. So
the texts that are read are marks, a known name and pairs, and no text is so in two ways. -/
theorem shorthand_by_grammar (s : String) (p : Path) :
    ((peel s.toList).text = s.toList ∧ IsCore (peel s.toList).core ∧
      ∀ t : Shorthand, t.text = s.toList → IsCore t.core → t = peel s.toList) ∧
    ((text s).normalize p).mapError UnknownToken.complaint =
      (match knownNames.lookup (String.ofList (peel s.toList).core) with
      | some n =>
        .ok (Node.optional^[(peel s.toList).marks] (Node.arrayOf^[(peel s.toList).pairs] n))
      | none =>
        .error ⟨"'" ++ String.ofList (peel s.toList).core ++ "'",
          p.render ++ String.join (List.replicate (peel s.toList).pairs ".$")⟩) ∧
    ((∃ n, (text s).normalize p = .ok n) ↔
      ∃ t : Shorthand, t.text = s.toList ∧ String.ofList t.core ∈ knownNames.map Prod.fst) ∧
    ∀ t t' : Shorthand, t.text = t'.text → String.ofList t.core ∈ knownNames.map Prod.fst →
      String.ofList t'.core ∈ knownNames.map Prod.fst → t = t' := by
  refine ⟨⟨text_peel _, isCore_peel _, ?_⟩, ?_, ?_, ?_⟩
  · intro t htext hcore
    rw [← htext, peel_text hcore]
  · rw [normalize_text_eq_firstOr, complaints, spelled]
    cases knownNames.lookup (String.ofList (peel s.toList).core) with
    | some n => rfl
    | none => rfl
  · rw [exists_normalize_text_iff]
    constructor
    · intro hname
      exact ⟨peel s.toList, text_peel _, hname⟩
    · rintro ⟨t, htext, hname⟩
      rw [← htext, peel_known hname]
      exact hname
  · intro t t' htext hname hname'
    rw [← peel_known hname, htext, peel_known hname']

-- the names there are
example : knownNames.map Prod.fst =
    ["number", "string", "boolean", "array", "object", "date", "any"] := rfl

/-- The first field that cannot be read ends the reading of a shape. -/
theorem normalizeFields_eq_firstOr {fields : List (String × Description)}
    (h : ∀ e ∈ fields, ∀ p, (e.2.normalize p).mapError UnknownToken.complaint =
      firstOr (e.2.complaints p.render) e.2.spelled) (p : Path) :
    (normalizeFields p fields).mapError UnknownToken.complaint =
      firstOr (fieldComplaints p.render fields) (spelledFields fields) := by
  induction fields with
  | nil => rfl
  | cons e fields ih =>
    obtain ⟨k, d⟩ := e
    have hhead := h (k, d) List.mem_cons_self (p.key k)
    have htail := ih fun e he => h e (List.mem_cons_of_mem _ he)
    rw [Path.render_key] at hhead
    rw [normalizeFields_cons, mapError_bind, fieldComplaints, spelledFields, hhead]
    simp only [mapError_map, htail]
    exact bind_firstOr _ _ _ _ fun n ns => (k, n) :: ns

/-- **A description is read if there is nothing to complain about, and otherwise the first
complaint is the error.** -/
theorem normalize_eq_firstOr (d : Description) (p : Path) :
    (d.normalize p).mapError UnknownToken.complaint =
      firstOr (d.complaints p.render) d.spelled := by
  induction d generalizing p with
  | marker k => rfl
  | any => rfl
  | text s => exact normalize_text_eq_firstOr p s
  | optional inner ih =>
    rw [normalize, mapError_map, ih, complaints, spelled, map_firstOr]
  | list items ih =>
    by_cases hlen : items.length = 1
    · obtain ⟨element, rfl⟩ := List.length_eq_one_iff.mp hlen
      have helement := ih element List.mem_cons_self p.each
      rw [Path.render_each] at helement
      rw [normalize, mapError_map, helement, complaints, spelled, map_firstOr]
    · rw [normalize_list_of_length_ne_one hlen, complaints_list_of_length_ne_one hlen]
      rfl
  | shape fields ih =>
    rw [normalize, mapError_map, normalizeFields_eq_firstOr ih, complaints, spelled, map_firstOr]
  | schema root => rfl
  | other value => rfl

/-- The nodes of a shape's fields, field by field. -/
theorem spelledFields_eq_map (fields : List (String × Description)) :
    spelledFields fields = fields.map fun e => (e.1, e.2.spelled) := by
  induction fields with
  | nil => rfl
  | cons e fields ih => rw [spelledFields, ih, List.map_cons]

/-- A shape that names every key once spells the object with its keys, in their order. -/
theorem spelled_shape {fields : List (String × Description)} (h : (Fields.keys fields).Nodup) :
    (shape fields).spelled = Node.object (fields.map fun e => (e.1, e.2.spelled)) := by
  rw [spelled, spelledFields_eq_map, Node.object, Fields.ofPairs_of_nodup]
  rwa [Fields.keys_map]

/-- **The reading of descriptions is exact.** A description is read if and only if none of
its tokens is unknown, and then as the node that it spells, shapes as the objects that are
built from their fields. Otherwise the error is about the first unknown token: it has the
quotation of that token and the text of its position. -/
theorem normalize_exact (d : Description) (p : Path) :
    ((∃ n, d.normalize p = .ok n) ↔ d.complaints p.render = []) ∧
      (d.normalize p).mapError UnknownToken.complaint =
        firstOr (d.complaints p.render) d.spelled ∧
      ∀ fields : List (String × Description), (Fields.keys fields).Nodup →
        (shape fields).spelled = Node.object (fields.map fun e => (e.1, e.2.spelled)) := by
  have hread := normalize_eq_firstOr d p
  refine ⟨?_, hread, fun fields h => spelled_shape h⟩
  rw [← exists_firstOr_eq_ok_iff (a := d.spelled), ← hread]
  cases d.normalize p with
  | ok n => exact ⟨fun _ => ⟨n, rfl⟩, fun _ => ⟨n, rfl⟩⟩
  | error e => exact ⟨nofun, nofun⟩

end Description

end Conform
