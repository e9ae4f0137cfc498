import Conform.Proofs.Normalization
import Mathlib.Data.List.TakeWhile
import Mathlib.Logic.Function.Iterate

/-!
# Shorthand in closed form

The reading of shorthand text goes one mark or one pair of brackets at a time, and it
looks for a known name before every step. What it comes to can be said at once: first all
question marks in front are peeled off, then all pairs of brackets behind, and the rest is
a known name or unknown.

- `peel`: a text taken apart in this way; `text_peel` and `isCore_peel` say that nothing is
  lost and nothing left to peel, and `peel_text` that there is only one way;
- `ofShorthand_eq`: **the reading of shorthand in closed form**. No name hides a mark or a
  pair, and no mark comes to the front when a pair is stripped.
-/

namespace Conform

/-- Shorthand text taken apart. -/
structure Shorthand where
  /-- how many question marks stand in front -/
  marks : Nat
  /-- what they and the brackets stand around -/
  core : List Char
  /-- how many pairs of brackets stand behind -/
  pairs : Nat

namespace Shorthand

/-- So many pairs of brackets. -/
def brackets : Nat → List Char
  | 0 => []
  | n + 1 => brackets n ++ ['[', ']']

/-- The text that was taken apart. -/
def text (t : Shorthand) : List Char :=
  List.replicate t.marks '?' ++ t.core ++ brackets t.pairs

/-- Nothing can be peeled off a core. -/
structure IsCore (cs : List Char) : Prop where
  no_mark : cs.head? ≠ some '?'
  no_pair : ∀ rest, cs ≠ rest ++ ['[', ']']

/-- The pairs of brackets at the end of a text, and what stands before them. The text is
given, and the rest returned, from back to front. -/
def pairsBehind : List Char → Nat × List Char
  | ']' :: '[' :: cs => ((pairsBehind cs).1 + 1, (pairsBehind cs).2)
  | cs => (0, cs)

/-- Peel off all question marks in front, and then all pairs of brackets behind. -/
def peel (cs : List Char) : Shorthand :=
  let behind := pairsBehind (cs.dropWhile (· == '?')).reverse
  ⟨(cs.takeWhile (· == '?')).length, behind.2.reverse, behind.1⟩

/-! ## One step at a time -/

/-- A text that begins with no question mark has none in front. -/
theorem peel_of_head_ne {cs : List Char} (h : cs.head? ≠ some '?') :
    peel cs = ⟨0, (pairsBehind cs.reverse).2.reverse, (pairsBehind cs.reverse).1⟩ := by
  cases cs with
  | nil => rfl
  | cons c cs =>
    have hc : (c == '?') = false := by simpa using h
    simp [peel, hc]

/-- A question mark in front is one more. -/
theorem peel_mark_cons (cs : List Char) :
    peel ('?' :: cs) = { peel cs with marks := (peel cs).marks + 1 } := by
  simp [peel]

/-- A pair of brackets behind is one more, if no question mark stands in front. -/
theorem peel_append_pair {cs : List Char} (h : cs.head? ≠ some '?') :
    peel (cs ++ ['[', ']']) = { peel cs with pairs := (peel cs).pairs + 1 } := by
  have happend : (cs ++ ['[', ']']).head? ≠ some '?' := by
    cases cs with
    | nil => simp
    | cons c cs => simpa using h
  rw [peel_of_head_ne happend, peel_of_head_ne h, List.reverse_append]
  rfl

/-- A core stands for itself. -/
theorem peel_of_isCore {cs : List Char} (h : IsCore cs) : peel cs = ⟨0, cs, 0⟩ := by
  have hpairs : pairsBehind cs.reverse = (0, cs.reverse) := by
    unfold pairsBehind
    split
    · next rest hrest =>
      refine absurd ?_ (h.no_pair rest.reverse)
      rw [← List.reverse_inj, hrest]
      simp
    · rfl
  rw [peel_of_head_ne h.no_mark, hpairs, List.reverse_reverse]

/-- **There is one way to take a text apart** so that a core is left. -/
theorem peel_text {t : Shorthand} (h : IsCore t.core) : peel t.text = t := by
  obtain ⟨marks, core, pairs⟩ := t
  replace h : IsCore core := h
  -- the pairs around the core, from inside out
  have hpairs : (core ++ brackets pairs).head? ≠ some '?' ∧
      peel (core ++ brackets pairs) = ⟨0, core, pairs⟩ := by
    induction pairs with
    | zero =>
      rw [brackets, List.append_nil]
      exact ⟨h.no_mark, peel_of_isCore h⟩
    | succ n ih =>
      obtain ⟨hhead, hpeel⟩ := ih
      rw [brackets, ← List.append_assoc]
      constructor
      · rw [List.head?_append]
        cases hcs : (core ++ brackets n).head? with
        | none => simp
        | some c => rwa [hcs] at hhead
      · rw [peel_append_pair hhead, hpeel]
  show peel (List.replicate marks '?' ++ core ++ brackets pairs) = _
  rw [List.append_assoc]
  induction marks with
  | zero => exact hpairs.2
  | succ m ih => rw [List.replicate_succ, List.cons_append, peel_mark_cons, ih]

/-! ## What is peeled off, and what is left -/

/-- The pairs behind a text and what stands before them make up the text. -/
theorem pairsBehind_append (cs : List Char) :
    (pairsBehind cs).2.reverse ++ brackets (pairsBehind cs).1 = cs.reverse := by
  fun_induction pairsBehind cs with
  | case1 cs ih =>
    rw [brackets, ← List.append_assoc, ih, List.reverse_cons, List.reverse_cons,
      List.append_assoc]
    rfl
  | case2 cs hcs => exact List.append_nil _

/-- No pair is left before the pairs behind a text. -/
theorem pairsBehind_maximal (cs rest : List Char) : (pairsBehind cs).2 ≠ ']' :: '[' :: rest := by
  fun_induction pairsBehind cs with
  | case1 cs ih => exact ih
  | case2 cs hcs => exact hcs rest

/-- What is left behind the marks, taken apart. -/
theorem core_append_brackets (cs : List Char) :
    (peel cs).core ++ brackets (peel cs).pairs = cs.dropWhile (· == '?') := by
  have happend := pairsBehind_append (cs.dropWhile (· == '?')).reverse
  rw [List.reverse_reverse] at happend
  exact happend

/-- **Nothing is lost** when a text is taken apart. -/
theorem text_peel (cs : List Char) : (peel cs).text = cs := by
  have hmarks : List.replicate (cs.takeWhile (· == '?')).length '?' = cs.takeWhile (· == '?') := by
    refine (List.eq_replicate_iff.mpr ⟨rfl, fun c hc => ?_⟩).symm
    have hmark := List.mem_takeWhile_imp (p := fun c => c == '?') hc
    exact eq_of_beq hmark
  show List.replicate _ '?' ++ (peel cs).core ++ brackets (peel cs).pairs = cs
  rw [List.append_assoc, core_append_brackets]
  show List.replicate (cs.takeWhile (· == '?')).length '?' ++ _ = cs
  rw [hmarks, List.takeWhile_append_dropWhile]

/-- **What is left is a core.** -/
theorem isCore_peel (cs : List Char) : IsCore (peel cs).core where
  no_mark := by
    intro hhead
    obtain ⟨rest, hrest⟩ := List.head?_eq_some_iff.mp hhead
    have hdrop := core_append_brackets cs
    rw [hrest] at hdrop
    -- what is behind the marks would start with one
    have hmark := List.head?_dropWhile_not (· == '?') cs
    rw [← hdrop] at hmark
    cases hmark
  no_pair := by
    intro rest hrest
    refine pairsBehind_maximal (cs.dropWhile (· == '?')).reverse rest.reverse ?_
    have hreverse : ((pairsBehind (cs.dropWhile (· == '?')).reverse).2.reverse).reverse =
        (rest ++ ['[', ']']).reverse := congrArg List.reverse hrest
    rw [List.reverse_reverse, List.reverse_append] at hreverse
    exact hreverse

end Shorthand

namespace Description

open Shorthand

/-- The known names, and the nodes that they stand for. -/
def knownNames : List (String × Node) :=
  Kind.all.map (fun k => (k.name, .kind k)) ++ [("any", .any)]

/-- A name stands for the node that is listed with it. -/
theorem leaf?_eq_lookup (name : String) : leaf? name = knownNames.lookup name := by
  cases hk : Kind.ofName? name with
  | some k =>
    rw [leaf?, hk, Kind.ofName?_eq_some_iff.mp hk]
    cases k <;> rfl
  | none =>
    have hne : ∀ k ∈ Kind.all, k.name ≠ name := by
      simpa [Kind.ofName?] using hk
    have hkinds : (Kind.all.map fun k => (k.name, Node.kind k)).lookup name = none := by
      rw [List.lookup_eq_none_iff]
      intro e he
      obtain ⟨k, hk, rfl⟩ := List.mem_map.mp he
      simpa using fun h => hne k hk h.symm
    rw [leaf?, hk, knownNames, List.lookup_append, hkinds]
    by_cases hany : name = "any"
    · simp [hany]
    · have hb : (name == "any") = false := by simpa using hany
      simp [hany, List.lookup_cons, hb]

/-- Known names are cores. -/
theorem isCore_of_leaf? {cs : List Char} {n : Node} (h : leaf? (String.ofList cs) = some n) :
    IsCore cs := by
  rw [leaf?_eq_lookup, List.lookup_eq_some_iff] at h
  obtain ⟨before, after, hnames, -⟩ := h
  have hcs : cs ∈ knownNames.map fun e => e.1.toList := by
    rw [hnames, List.map_append, List.map_cons, String.toList_ofList]
    exact List.mem_append_right _ List.mem_cons_self
  have hall : ∀ ds ∈ knownNames.map fun e => e.1.toList,
      ds.head? ≠ some '?' ∧ stripBrackets? ds = none := by decide
  obtain ⟨hmark, hpair⟩ := hall cs hcs
  refine ⟨hmark, fun rest hrest => ?_⟩
  rw [stripBrackets?_eq_some_iff.mpr hrest] at hpair
  cases hpair

/-- What a text that was taken apart stands for: the node of its core in arrays, and these
in options. -/
def wrapped (t : Shorthand) (core : Node) : Node :=
  Node.optional^[t.marks] (Node.arrayOf^[t.pairs] core)

theorem wrapped_mark (t : Shorthand) (core : Node) :
    wrapped { t with marks := t.marks + 1 } core = .optional (wrapped t core) :=
  Function.iterate_succ_apply' ..

theorem wrapped_pair {t : Shorthand} (h : t.marks = 0) (core : Node) :
    wrapped { t with pairs := t.pairs + 1 } core = .arrayOf (wrapped t core) := by
  unfold wrapped
  rw [h, Function.iterate_succ_apply']
  rfl

/-- The path of the core: one step to the elements for each pair of brackets around it. -/
def corePath (p : Path) (t : Shorthand) : Path :=
  p.descend (List.replicate t.pairs .each)

/-- **The reading of shorthand in closed form**: a text is read if its core is a known
name, and else the core is unknown. -/
theorem ofShorthand_eq (p : Path) (cs : List Char) :
    ofShorthand p cs =
      match leaf? (String.ofList (peel cs).core) with
      | some n => .ok (wrapped (peel cs) n)
      | none => .error ⟨.text (String.ofList (peel cs).core), corePath p (peel cs)⟩ := by
  -- the recursion peels text off both ends, so the induction is on the length
  induction hlen : cs.length using Nat.strongRecOn generalizing cs p with
  | _ len ih =>
    rcases ofShorthand_cases cs with ⟨n, hleaf, hread⟩ | ⟨-, rest, rfl, hread⟩ |
      ⟨-, hhead, rest, rfl, hread⟩ | ⟨hleaf, hhead, hpair, hread⟩
    · rw [hread, peel_of_isCore (isCore_of_leaf? hleaf), hleaf]
      rfl
    · rw [hread, ih rest.length (by simp [← hlen]) p rest rfl, peel_mark_cons]
      dsimp only
      cases leaf? (String.ofList (peel rest).core) with
      | none => rfl
      | some n => exact congrArg Except.ok (wrapped_mark (peel rest) n).symm
    · have hrest : rest.head? ≠ some '?' := by
        intro h
        rw [List.head?_append, h] at hhead
        exact hhead rfl
      -- no question mark is in front, so a pair of brackets more is an array more
      have hmarks : (peel rest).marks = 0 := by rw [peel_of_head_ne hrest]
      rw [hread, ih rest.length (by simp [← hlen]) p.each rest rfl, peel_append_pair hrest]
      dsimp only
      cases leaf? (String.ofList (peel rest).core) with
      | none =>
        show Except.error _ = Except.error _
        rw [corePath, corePath, Path.each, Path.push_descend, List.replicate_succ]
      | some n => exact congrArg Except.ok (wrapped_pair hmarks n).symm
    · rw [hread, peel_of_isCore ⟨hhead, hpair⟩, hleaf]
      simp [corePath]

end Description

end Conform
