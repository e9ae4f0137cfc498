import Conform.Proofs.StartPaths

/-!
# Reading paths back

The text of a path is flat: points stand between its label and its steps. As long as no key
contains a point, and none is the sign for elements, the steps can be read back from it.

- `Path.stepsOf`: the steps that a text spells behind its label;
- `Path.stepsOf_suffix`: **steps are read back** from their text;
- `Path.descend_inj`: from one path, different steps lead to different texts.
-/

namespace Conform

/-! ## Steps -/

namespace Step

/-- The text of the step is one segment of a path, and it is no other step's. -/
def IsSegment : Step → Prop
  | key name => '.' ∉ name.toList ∧ name ≠ "$"
  | each => True

/-- The step with this text. -/
def ofText (text : String) : Step :=
  if text = "$" then each else key text

variable {s : Step}

theorem IsSegment.point_not_mem (h : s.IsSegment) : '.' ∉ s.text.toList := by
  cases s with
  | key name => exact h.1
  | each => decide

/-- A step is read back from its text. -/
theorem ofText_text (h : s.IsSegment) : ofText s.text = s := by
  cases s with
  | key name => exact if_neg h.2
  | each => rfl

end Step

/-! ## Paths -/

namespace Path

/-- The segments of a text between points. -/
def segments (text : List Char) : List String :=
  (text.splitOn '.').map String.ofList

/-- The steps that a text spells, each with a point before it. -/
def stepsOf (text : String) : List Step :=
  (segments text.toList).tail.map Step.ofText

variable {steps : List Step}

/-- What stands before the first point is a segment, and then every step is one. -/
theorem segments_append_suffix (h : ∀ s ∈ steps, s.IsSegment) {cs : List Char} (hcs : '.' ∉ cs) :
    segments (cs ++ (suffix steps).toList) = String.ofList cs :: steps.map Step.text := by
  induction steps generalizing cs with
  | nil =>
    have hnil : cs ++ (suffix []).toList = cs := List.append_nil cs
    rw [hnil, segments, List.splitOn_eq_singleton hcs]
    rfl
  | cons s steps ih =>
    obtain ⟨hs, hsteps⟩ := List.forall_mem_cons.mp h
    have hcons : cs ++ (suffix (s :: steps)).toList =
        cs ++ '.' :: (s.text.toList ++ (suffix steps).toList) := by
      rw [suffix_cons, String.toList_append, String.toList_append]
      rfl
    have hrest := ih hsteps hs.point_not_mem
    rw [String.ofList_toList] at hrest
    rw [hcons, segments, List.splitOn_append_cons_self_of_not_mem hcs, List.map_cons,
      List.map_cons, ← hrest]
    rfl

/-- **Steps are read back from their text.** -/
theorem stepsOf_suffix (h : ∀ s ∈ steps, s.IsSegment) : stepsOf (suffix steps) = steps := by
  have hsegments : segments (suffix steps).toList = "" :: steps.map Step.text :=
    segments_append_suffix h List.not_mem_nil
  calc stepsOf (suffix steps)
      = steps.map (Step.ofText ∘ Step.text) := by
        rw [stepsOf, hsegments, List.tail_cons, List.map_map]
    _ = steps.map id := List.map_congr_left fun s hs => Step.ofText_text (h s hs)
    _ = steps := List.map_id steps

/-- **From one path, different steps lead to different texts.** -/
theorem descend_inj {p : Path} {other : List Step} (h : ∀ s ∈ steps, s.IsSegment)
    (hother : ∀ s ∈ other, s.IsSegment)
    (htext : (p.descend steps).render = (p.descend other).render) : steps = other := by
  rw [render_descend, render_descend] at htext
  have hsuffix : suffix steps = suffix other := String.append_right_inj p.render |>.mp htext
  rw [← stepsOf_suffix h, hsuffix, stepsOf_suffix hother]

end Path

end Conform
