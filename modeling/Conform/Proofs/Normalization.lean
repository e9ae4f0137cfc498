import Conform.Description.Normalize

/-!
# Reading descriptions

What one step of the reading of a description does (`ofShorthand_cases`,
`normalize_list_of_length_ne_one`, `normalizeFields_cons`), and the law that the
start of the reading only labels its errors: read from another path, the same
description gives the same node, or the same unknown token at the same place below
that path (`normalize_descend`).
-/

namespace Conform

/-- The path that goes on from `p` with these steps. -/
def Path.descend (p : Path) (steps : List Step) : Path :=
  { p with steps := p.steps ++ steps }

@[simp] theorem Path.descend_nil (p : Path) : p.descend [] = p := by
  simp [descend]

theorem Path.descend_push (p : Path) (steps : List Step) (s : Step) :
    (p.descend steps).push s = p.descend (steps ++ [s]) := by
  simp [descend, push]

theorem Path.push_descend (p : Path) (s : Step) (steps : List Step) :
    (p.push s).descend steps = p.descend (s :: steps) := by
  simp [descend, push]

/-- The same unknown token, its position counted from `p`. -/
def UnknownToken.below (p : Path) (e : UnknownToken) : UnknownToken :=
  ⟨e.token, p.descend e.position.steps⟩

namespace Description

/-! ## Shorthand, one step at a time -/

/-- What is no name and does not begin with `?` is read from its end. -/
theorem ofShorthand_of_head_ne {cs : List Char} (hleaf : leaf? (String.ofList cs) = none)
    (hhead : cs.head? ≠ some '?') (p : Path) :
    ofShorthand p cs =
      match stripBrackets? cs with
      | some rest => (ofShorthand p.each rest).map .arrayOf
      | none => .error ⟨.text (String.ofList cs), p⟩ := by
  rw [ofShorthand.eq_def, hleaf]
  dsimp only
  split
  · exact absurd rfl hhead
  · -- the match in the definition also keeps the equation that its recursion needs
    split
    · next rest hstrip => rw [hstrip]
    · next hstrip => rw [hstrip]

/-- What one step of the reading of shorthand does: a name stands for itself, `?` and
`[]` are peeled off, and what is left otherwise is unknown. -/
theorem ofShorthand_cases (cs : List Char) :
    (∃ n, leaf? (String.ofList cs) = some n ∧ ∀ p, ofShorthand p cs = .ok n) ∨
    (leaf? (String.ofList cs) = none ∧ ∃ rest, cs = '?' :: rest ∧
      ∀ p, ofShorthand p cs = (ofShorthand p rest).map .optional) ∨
    (leaf? (String.ofList cs) = none ∧ cs.head? ≠ some '?' ∧ ∃ rest, cs = rest ++ ['[', ']'] ∧
      ∀ p, ofShorthand p cs = (ofShorthand p.each rest).map .arrayOf) ∨
    (leaf? (String.ofList cs) = none ∧ cs.head? ≠ some '?' ∧ (∀ rest, cs ≠ rest ++ ['[', ']']) ∧
      ∀ p, ofShorthand p cs = .error ⟨.text (String.ofList cs), p⟩) := by
  cases hleaf : leaf? (String.ofList cs) with
  | some n =>
    refine .inl ⟨n, rfl, fun p => ?_⟩
    rw [ofShorthand.eq_def, hleaf]
  | none =>
    refine .inr ?_
    by_cases hq : ∃ rest, cs = '?' :: rest
    · obtain ⟨rest, rfl⟩ := hq
      refine .inl ⟨rfl, rest, rfl, fun p => ?_⟩
      rw [ofShorthand.eq_def, hleaf]
      rfl
    · refine .inr ?_
      have hhead : cs.head? ≠ some '?' := by
        intro h
        obtain ⟨rest, hcs⟩ := List.head?_eq_some_iff.mp h
        exact hq ⟨rest, hcs⟩
      cases hstrip : stripBrackets? cs with
      | some rest =>
        refine .inl ⟨rfl, hhead, rest, stripBrackets?_eq_some_iff.mp hstrip, fun p => ?_⟩
        rw [ofShorthand_of_head_ne hleaf hhead, hstrip]
      | none =>
        refine .inr ⟨rfl, hhead, ?_, fun p => ?_⟩
        · rintro rest rfl
          rw [stripBrackets?_eq_some_iff.mpr rfl] at hstrip
          cases hstrip
        · rw [ofShorthand_of_head_ne hleaf hhead, hstrip]

/-! ## Lists and shapes -/

/-- Only a list of one element describes arrays. -/
theorem normalize_list_of_length_ne_one {items : List Description} (h : items.length ≠ 1)
    (p : Path) : (list items).normalize p = .error ⟨list items, p⟩ := by
  match items with
  | [] => rfl
  | [_] => exact absurd rfl h
  | _ :: _ :: _ => rfl

/-- A field is read before those that follow it. -/
theorem normalizeFields_cons (p : Path) (k : String) (d : Description)
    (fields : List (String × Description)) :
    normalizeFields p ((k, d) :: fields) =
      (d.normalize (p.key k)).bind fun n => (normalizeFields p fields).map ((k, n) :: ·) := by
  rw [normalizeFields]
  cases d.normalize (p.key k) with
  | error e => rfl
  | ok n =>
    cases normalizeFields p fields with
    | error e => rfl
    | ok ns => rfl

/-! ## The start of the reading -/

/-- Errors and results are mapped independently. -/
theorem mapError_map {ε δ α β : Type} (f : ε → δ) (g : α → β) (r : Except ε α) :
    (r.map g).mapError f = (r.mapError f).map g := by
  cases r <;> rfl

/-- Shorthand is read alike from every path. -/
theorem ofShorthand_descend (p : Path) (label : String) (cs : List Char) (steps : List Step) :
    ofShorthand (p.descend steps) cs =
      (ofShorthand ⟨label, steps⟩ cs).mapError (UnknownToken.below p) := by
  -- the recursion peels text off both ends, so the induction is on the length
  induction hlen : cs.length using Nat.strongRecOn generalizing cs steps with
  | _ len ih =>
    rcases ofShorthand_cases cs with ⟨n, -, hread⟩ | ⟨-, rest, rfl, hread⟩ |
      ⟨-, -, rest, rfl, hread⟩ | ⟨-, -, -, hread⟩
    · rw [hread, hread]
      rfl
    · rw [hread, hread, mapError_map, ih rest.length (by simp [← hlen]) rest steps rfl]
    · rw [hread, hread, mapError_map, Path.each, Path.descend_push,
        ih rest.length (by simp [← hlen]) rest (steps ++ [Step.each]) rfl]
      rfl
    · rw [hread, hread]
      rfl

/-- **The start of the reading only labels its errors**: the same description gives the
same node from every path, or the same unknown token at the same place below it. -/
theorem normalize_descend (p : Path) (label : String) (d : Description) (steps : List Step) :
    d.normalize (p.descend steps) =
      (d.normalize ⟨label, steps⟩).mapError (UnknownToken.below p) := by
  induction d generalizing steps with
  | marker k => rfl
  | any => rfl
  | text s => exact ofShorthand_descend p label s.toList steps
  | optional inner ih => rw [normalize, normalize, mapError_map, ih]
  | list items ih =>
    by_cases hlen : items.length = 1
    · obtain ⟨element, rfl⟩ := List.length_eq_one_iff.mp hlen
      rw [normalize, normalize, mapError_map, Path.each, Path.descend_push,
        ih element List.mem_cons_self (steps ++ [Step.each])]
      rfl
    · rw [normalize_list_of_length_ne_one hlen, normalize_list_of_length_ne_one hlen]
      rfl
  | shape fields ih =>
    have hfields : normalizeFields (p.descend steps) fields =
        (normalizeFields ⟨label, steps⟩ fields).mapError (UnknownToken.below p) := by
      induction fields with
      | nil => rfl
      | cons e fields ihf =>
        obtain ⟨k, d⟩ := e
        have hhead := ih (k, d) List.mem_cons_self (steps ++ [Step.key k])
        have htail := ihf fun e he => ih e (List.mem_cons_of_mem _ he)
        rw [normalizeFields_cons, normalizeFields_cons, Path.key, Path.descend_push, hhead, htail]
        show _ = ((d.normalize ⟨label, steps ++ [.key k]⟩).bind _).mapError _
        -- the first field that cannot be read ends the reading on both sides
        cases d.normalize ⟨label, steps ++ [.key k]⟩ with
        | error e => rfl
        | ok n =>
          cases normalizeFields ⟨label, steps⟩ fields with
          | error e => rfl
          | ok ns => rfl
    rw [normalize, normalize, mapError_map, hfields]
  | schema root => rfl
  | other value => rfl

/-- What can be read from one path gives the same node from all. -/
theorem normalize_eq_ok_of_eq_ok {d : Description} {p : Path} {n : Node}
    (h : d.normalize p = .ok n) (q : Path) : d.normalize q = .ok n := by
  have hp := normalize_descend p "" d []
  have hq := normalize_descend q "" d []
  rw [Path.descend_nil] at hp hq
  rw [h] at hp
  cases hr : d.normalize ⟨"", []⟩ with
  | error e =>
    rw [hr] at hp
    cases hp
  | ok n' =>
    rw [hr] at hp
    obtain rfl := Except.ok.inj hp
    rw [hq, hr]
    rfl

end Description

end Conform
