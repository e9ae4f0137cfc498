import Conform.Proofs.DateTimeSpellings

/-!
# The texts of layouts

Which texts a layout reads, whatever they say. An item takes a segment of the text; where it may
take more or less of it, it takes as much as it can, so that the rest matters.

- `LooseNumber`, `LooseYear`, `LooseOffset`: what the lenient items take;
- `Item.Takes`: what an item takes, given the rest;
- `Layout.exists_read_iff`: **a layout reads exactly the texts made of what its items take**.
-/

namespace Conform

namespace Text

/-- What does not start with a character that is skipped is found behind any of them. -/
theorem dropWhile_iff {skips : Char → Bool} {p : List Char → Prop}
    (hp : ∀ c cs, skips c → ¬ p (c :: cs)) {cs : List Char} :
    p (cs.dropWhile skips) ↔
      ∃ skipped cs', (∀ c ∈ skipped, skips c) ∧ cs = skipped ++ cs' ∧ p cs' := by
  constructor
  · intro h
    exact ⟨cs.takeWhile skips, cs.dropWhile skips, fun _ hc => List.mem_takeWhile_imp hc,
      List.takeWhile_append_dropWhile.symm, h⟩
  · rintro ⟨skipped, cs', hskipped, rfl, h⟩
    have hstay : cs'.dropWhile skips = cs' := by
      cases cs' with
      | nil => rfl
      | cons c cs =>
        have hc : ¬ skips c := fun hc => hp c cs hc h
        rw [List.dropWhile_cons, if_neg hc]
    rw [List.dropWhile_append_of_pos hskipped, hstay]
    exact h

end Text

namespace DateText

open Text

variable {cs rest : List Char}

/-! ## What the lenient items take -/

/-- A number of one or two digits, perhaps with blanks before it. -/
structure LooseNumber where
  blanks : List Char
  digits : List Char
  isBlank : ∀ c ∈ blanks, isBlank c
  isDigit : ∀ d ∈ digits, d.isDigit
  length_pos : 1 ≤ digits.length
  length_le : digits.length ≤ 2

namespace LooseNumber

def text (x : LooseNumber) : List Char :=
  x.blanks ++ x.digits

/-- The number is all that is read of a text with this behind it. -/
def EndsBefore (x : LooseNumber) (rest : List Char) : Prop :=
  x.digits.length = 2 ∨ NoDigitAhead rest

end LooseNumber

/-- A year of up to four digits, or of a sign and any number of digits, perhaps with blanks
before it. -/
structure LooseYear where
  blanks : List Char
  sign : Option Char
  digits : List Char
  isBlank : ∀ c ∈ blanks, isBlank c
  sign_mem : ∀ c ∈ sign, c ∈ ['+', '-']
  isDigit : ∀ d ∈ digits, d.isDigit
  length_pos : 1 ≤ digits.length
  length_le : sign = none → digits.length ≤ 4

namespace LooseYear

def text (x : LooseYear) : List Char :=
  x.blanks ++ (x.sign.toList ++ x.digits)

/-- The year is all that is read of a text with this behind it. -/
def EndsBefore (x : LooseYear) (rest : List Char) : Prop :=
  (x.sign = none ∧ x.digits.length = 4) ∨ NoDigitAhead rest

end LooseYear

/-- An offset with any colons and blanks between hours and minutes, perhaps with blanks before
it. -/
structure LooseOffset where
  blanks : List Char
  sign : OffsetSign
  hours : Fin 100
  gap : List Char
  minutes : Fin 60
  isBlank : ∀ c ∈ blanks, isBlank c
  isGap : ∀ c ∈ gap, c = ':' ∨ Text.isBlank c

namespace LooseOffset

def text (x : LooseOffset) : List Char :=
  x.blanks ++ x.sign.char :: (padded 2 x.hours ++ (x.gap ++ padded 2 x.minutes))

end LooseOffset

/-- A fraction, or none, is all that is read of a text with this behind it. -/
def FractionEndsBefore (fraction : List (Fin 10)) (rest : List Char) : Prop :=
  if fraction = [] then rest.head? ≠ some '.' else NoDigitAhead rest

/-! ## Segments -/

theorem exists_map_iff {α : Type} {o : Option (α × List Char)} (store : α → Stamp) :
    (∃ s, (o.map fun r => (store r.1, r.2)) = some (s, rest)) ↔ ∃ n, o = some (n, rest) := by
  constructor
  · rintro ⟨s, h⟩
    obtain ⟨⟨n, rest'⟩, ho, hr⟩ := Option.map_eq_some_iff.mp h
    obtain rfl := (Prod.mk.inj hr).2
    exact ⟨n, ho⟩
  · rintro ⟨n, rfl⟩
    exact ⟨store n, rfl⟩

theorem twoDigits?_eq_some_iff {n : Nat} :
    twoDigits? cs = some (n, rest) ↔ n < 100 ∧ cs = padded 2 n ++ rest :=
  number?_eq_some_iff_padded (by decide)

theorem exists_looseNumber_iff :
    (∃ n, number? 1 2 (skipBlanks cs) = some (n, rest)) ↔
      ∃ x : LooseNumber, cs = x.text ++ rest ∧ x.EndsBefore rest := by
  refine (dropWhile_iff (p := fun cs => ∃ n, number? 1 2 cs = some (n, rest)) ?_).trans ?_
  · rintro c cs hc ⟨n, hn⟩
    have hdigit := Item.isDigit_of_number? (by decide) hn
    rw [isBlank_of_isDigit hdigit] at hc
    cases hc
  · constructor
    · rintro ⟨blanks, _, hblanks, rfl, n, hn⟩
      obtain ⟨ds, rfl, hds, -⟩ := number?_eq_some_iff.mp hn
      exact ⟨⟨blanks, ds, hblanks, hds.digits, hds.least_le, hds.le_most⟩,
        (List.append_assoc ..).symm, hds.maximal⟩
    · rintro ⟨x, rfl, hends⟩
      exact ⟨x.blanks, x.digits ++ rest, x.isBlank, List.append_assoc .., _,
        number?_append ⟨x.isDigit, x.length_pos, x.length_le, hends⟩⟩

theorem exists_year?_iff :
    (∃ n, year? cs = some (n, rest)) ↔
      ∃ x : LooseYear, x.blanks = [] ∧ cs = x.text ++ rest ∧ x.EndsBefore rest := by
  constructor
  · rintro ⟨n, hn⟩
    unfold year? at hn
    split at hn
    · obtain ⟨m, hm, h⟩ := Option.map_eq_some_iff.mp hn
      obtain ⟨ds, rfl, hdigits, hne, hahead, -⟩ := anyNumber?_eq_some_iff.mp hm
      obtain rfl := (Prod.mk.inj h).2
      exact ⟨⟨[], some '+', ds, nofun, by simp, hdigits, List.length_pos_iff.mpr hne, nofun⟩,
        rfl, rfl, .inr hahead⟩
    · obtain ⟨m, hm, h⟩ := Option.map_eq_some_iff.mp hn
      obtain ⟨ds, rfl, hdigits, hne, hahead, -⟩ := anyNumber?_eq_some_iff.mp hm
      obtain rfl := (Prod.mk.inj h).2
      exact ⟨⟨[], some '-', ds, nofun, by simp, hdigits, List.length_pos_iff.mpr hne, nofun⟩,
        rfl, rfl, .inr hahead⟩
    · obtain ⟨m, hm, h⟩ := Option.map_eq_some_iff.mp hn
      obtain ⟨ds, rfl, hds, -⟩ := number?_eq_some_iff.mp hm
      obtain rfl := (Prod.mk.inj h).2
      exact ⟨⟨[], none, ds, nofun, nofun, hds.digits, hds.least_le, fun _ => hds.le_most⟩,
        rfl, rfl, hds.maximal.imp_left fun h => ⟨rfl, h⟩⟩
  · rintro ⟨⟨blanks, sign, digits, hblank, hsign, hdigits, hpos, hle⟩, hblanks, rfl, hends⟩
    obtain rfl : blanks = [] := hblanks
    have hne : digits ≠ [] := List.ne_nil_of_length_pos hpos
    cases sign with
    | none =>
      obtain ⟨c, ds, rfl⟩ := List.exists_cons_of_ne_nil hne
      have hc : c.isDigit := hdigits c List.mem_cons_self
      have hnumber : number? 1 4 (c :: ds ++ rest) = some (natOfDigits (c :: ds), rest) :=
        number?_append ⟨hdigits, hpos, hle rfl, hends.imp_left And.right⟩
      refine ⟨natOfDigits (c :: ds), ?_⟩
      show year? (c :: (ds ++ rest)) = _
      rw [Item.year?_of_isDigit hc, ← List.cons_append, hnumber]
      rfl
    | some c =>
      have hany : anyNumber? (digits ++ rest) = some (natOfDigits digits, rest) :=
        anyNumber?_eq_some_iff.mpr ⟨digits, rfl, hdigits, hne, hends.resolve_left nofun, rfl⟩
      have hc := hsign c rfl
      simp only [List.mem_cons, List.not_mem_nil, or_false] at hc
      show ∃ n, year? (c :: (digits ++ rest)) = some (n, rest)
      rcases hc with rfl | rfl
      · exact ⟨natOfDigits digits, by rw [year?, hany]; rfl⟩
      · exact ⟨-natOfDigits digits, by rw [year?, hany]; rfl⟩

theorem exists_looseYear_iff :
    (∃ n, year? (skipBlanks cs) = some (n, rest)) ↔
      ∃ x : LooseYear, cs = x.text ++ rest ∧ x.EndsBefore rest := by
  refine (dropWhile_iff (p := fun cs => ∃ n, year? cs = some (n, rest)) ?_).trans ?_
  · rintro c cs hc ⟨n, hn⟩
    rcases Item.starts_of_year? hn with hdigit | hsign
    · rw [isBlank_of_isDigit hdigit] at hc
      cases hc
    · rw [eq_false_of_mem (p := isBlank) (by decide) hsign] at hc
      cases hc
  · constructor
    · rintro ⟨blanks, _, hblanks, rfl, h⟩
      obtain ⟨x, hx, rfl, hends⟩ := exists_year?_iff.mp h
      refine ⟨{ x with blanks, isBlank := hblanks }, ?_, hends⟩
      simp only [LooseYear.text, hx, List.nil_append, List.append_assoc]
    · rintro ⟨x, rfl, hends⟩
      refine ⟨x.blanks, _, x.isBlank, List.append_assoc .., ?_⟩
      exact exists_year?_iff.mpr ⟨{ x with blanks := [], isBlank := nofun }, rfl, rfl, hends⟩

/-- An offset is a sign, hours, what the separator skips, and minutes. -/
theorem exists_offset?_iff {separator : List Char → Option (List Char)} :
    (∃ n, offset? separator cs = some (n, rest)) ↔
      ∃ (sign : OffsetSign) (hours : Fin 100) (minutes : Fin 60) (behind : List Char),
        cs = sign.char :: (padded 2 hours ++ behind) ∧
          separator behind = some (padded 2 minutes ++ rest) := by
  constructor
  · rintro ⟨n, hn⟩
    obtain ⟨⟨negative, cs'⟩, ⟨hours, behind⟩, _, ⟨minutes, _⟩, hsign, htwo, hsep, htwo', hlt, hr⟩ :=
      offset?_eq_some_iff.mp hn
    obtain ⟨c, hc, rfl⟩ := exists_of_sign? hsign
    obtain ⟨sign, rfl⟩ := OffsetSign.exists_of_mem_signs hc
    obtain ⟨hhours, rfl⟩ := twoDigits?_eq_some_iff.mp htwo
    obtain ⟨-, rfl⟩ := twoDigits?_eq_some_iff.mp htwo'
    obtain rfl := (Prod.mk.inj hr).2
    exact ⟨sign, ⟨hours, hhours⟩, ⟨minutes, hlt⟩, behind, rfl, hsep⟩
  · rintro ⟨sign, hours, minutes, behind, rfl, hsep⟩
    have hhours : twoDigits? (padded 2 hours ++ behind) = some (hours.val, behind) :=
      twoDigits?_eq_some_iff.mpr ⟨hours.isLt, rfl⟩
    have hminutes : twoDigits? (padded 2 minutes ++ rest) = some (minutes.val, rest) :=
      twoDigits?_eq_some_iff.mpr ⟨minutes.isLt.trans (by decide), rfl⟩
    exact ⟨_, offset?_eq_some_iff.mpr
      ⟨_, _, _, _, sign.sign?_char _, hhours, hsep, hminutes, minutes.isLt, rfl⟩⟩

/-- Colons and blanks are skipped up to the digits of a number. -/
theorem colonsAndBlanks_eq_iff {n : Nat} (hn : n < 100) :
    colonsAndBlanks cs = padded 2 n ++ rest ↔
      ∃ gap, (∀ c ∈ gap, c = ':' ∨ isBlank c) ∧ cs = gap ++ (padded 2 n ++ rest) := by
  have hdigit : ∀ c cs, (c == ':' || isBlank c) = true → c :: cs ≠ padded 2 n ++ rest := by
    intro c cs hc heq
    have hnumber : twoDigits? (c :: cs) = some (n, rest) := twoDigits?_eq_some_iff.mpr ⟨hn, heq⟩
    have hdigit := Item.isDigit_of_number? (by decide) hnumber
    rw [isBlank_of_isDigit hdigit, Bool.or_false, beq_iff_eq] at hc
    rw [hc] at hdigit
    cases hdigit
  refine (dropWhile_iff (p := (· = padded 2 n ++ rest)) hdigit).trans ?_
  simp only [Bool.or_eq_true, beq_iff_eq, exists_and_left, exists_eq_right]

theorem exists_looseOffset_iff :
    (∃ n, offset? (fun cs => some (colonsAndBlanks cs)) (skipBlanks cs) = some (n, rest)) ↔
      ∃ x : LooseOffset, cs = x.text ++ rest := by
  refine (dropWhile_iff (p := fun cs =>
    ∃ n, offset? (fun cs => some (colonsAndBlanks cs)) cs = some (n, rest)) ?_).trans ?_
  · rintro c cs hc ⟨n, hn⟩
    rw [eq_false_of_mem (p := isBlank) (by decide) (Item.starts_of_offset? hn)] at hc
    cases hc
  · constructor
    · rintro ⟨blanks, _, hblanks, rfl, h⟩
      obtain ⟨sign, hours, minutes, behind, rfl, hsep⟩ := exists_offset?_iff.mp h
      obtain ⟨gap, hgap, rfl⟩ :=
        (colonsAndBlanks_eq_iff (minutes.isLt.trans (by decide))).mp (Option.some.inj hsep)
      refine ⟨⟨blanks, sign, hours, gap, minutes, hblanks, hgap⟩, ?_⟩
      simp only [LooseOffset.text, List.append_assoc, List.cons_append]
    · rintro ⟨x, rfl⟩
      refine ⟨x.blanks, _, x.isBlank, List.append_assoc .., exists_offset?_iff.mpr
        ⟨x.sign, x.hours, x.minutes, x.gap ++ (padded 2 x.minutes ++ rest), ?_, ?_⟩⟩
      · simp only [List.append_assoc, List.cons_append]
      · exact congrArg some ((colonsAndBlanks_eq_iff (x.minutes.isLt.trans (by decide))).mpr
          ⟨x.gap, x.isGap, rfl⟩)

theorem exists_fixedOffset_iff {s : Stamp} :
    (∃ s', Item.fixedOffset.read s cs = some (s', rest)) ↔
      ∃ z : ZoneText, cs = z.text ++ rest ∧ z ≠ .absent ∧ z.inRange := by
  constructor
  · rintro ⟨s', h⟩
    simp only [Item.read] at h
    split at h
    · obtain rfl := (Prod.mk.inj (Option.some.inj h)).2
      exact ⟨.upper, rfl, ZoneText.noConfusion, rfl⟩
    · obtain rfl := (Prod.mk.inj (Option.some.inj h)).2
      exact ⟨.lower, rfl, ZoneText.noConfusion, rfl⟩
    · obtain ⟨sign, hours, minutes, behind, rfl, hcolon⟩ :=
        exists_offset?_iff.mp ((exists_map_iff fun n => { s with offset := n }).mp ⟨s', h⟩)
      rw [colon?_eq_some_iff.mp hcolon]
      refine ⟨.offset sign hours (minutes.castLE (by decide)), ?_, ZoneText.noConfusion,
        decide_eq_true minutes.isLt⟩
      simp only [ZoneText.text, List.cons_append, List.append_assoc]
      rfl
  · rintro ⟨z, rfl, hz, hrange⟩
    cases z with
    | absent => exact absurd rfl hz
    | upper => exact ⟨s, rfl⟩
    | lower => exact ⟨s, rfl⟩
    | offset sign hours minutes =>
      have hread : Item.fixedOffset.read s (ZoneText.text (.offset sign hours minutes) ++ rest) =
          (offset? colon? (ZoneText.text (.offset sign hours minutes) ++ rest)).map fun r =>
            ({ s with offset := r.1 }, r.2) := by
        cases sign <;> rfl
      have htext : ZoneText.text (.offset sign hours minutes) ++ rest =
          sign.char :: (padded 2 hours ++ ':' :: (padded 2 minutes ++ rest)) := by
        simp only [ZoneText.text, List.cons_append, List.append_assoc]
      have hoffset : ∃ n, offset? colon? (ZoneText.text (.offset sign hours minutes) ++ rest) =
          some (n, rest) :=
        exists_offset?_iff.mpr
          ⟨sign, hours, ⟨minutes, of_decide_eq_true hrange⟩, _, htext, rfl⟩
      rw [hread]
      exact (exists_map_iff fun n => { s with offset := n }).mpr hoffset

theorem exists_fraction_iff {s : Stamp} :
    (∃ s', Item.fraction.read s cs = some (s', rest)) ↔
      ∃ fraction : List (Fin 10), cs = fractionText fraction ++ rest ∧
        FractionEndsBefore fraction rest := by
  constructor
  · rintro ⟨s', h⟩
    simp only [Item.read] at h
    split at h
    · next cs =>
      split at h
      · cases h
      · next hsome =>
        obtain rfl := (Prod.mk.inj (Option.some.inj h)).2
        have hdigits : ∀ d ∈ (spanDigits cs).1, d.isDigit := fun _ hd => List.mem_takeWhile_imp hd
        obtain ⟨fraction, hfraction⟩ := exists_fractionDigits hdigits
        have hne : fraction ≠ [] := by
          rintro rfl
          rw [← hfraction] at hsome
          exact hsome rfl
        refine ⟨fraction, ?_, ?_⟩
        · rw [fractionText, if_neg hne, hfraction, List.cons_append, spanDigits_append]
        · rw [FractionEndsBefore, if_neg hne]
          exact noDigitAhead_spanDigits cs
    · next hpoint =>
      obtain rfl := (Prod.mk.inj (Option.some.inj h)).2
      refine ⟨[], rfl, fun hhead => ?_⟩
      obtain ⟨cs', rfl⟩ := List.head?_eq_some_iff.mp hhead
      exact hpoint cs' rfl
  · rintro ⟨fraction, rfl, hrest⟩
    unfold FractionEndsBefore at hrest
    split at hrest
    · next hnone =>
      subst hnone
      cases rest with
      | nil => exact ⟨s, rfl⟩
      | cons c cs => exact ⟨s, read_fraction_of_ne s (fun h => hrest (congrArg some h)) cs⟩
    · next hne =>
      rw [fractionText, if_neg hne]
      exact ⟨_, read_fraction_digits s (fun h => hne (List.map_eq_nil_iff.mp h))
        (fun _ => isDigit_of_mem_fractionDigits) hrest⟩

/-! ## Items and layouts -/

/-- What an item takes from the start of a text, given the rest of the text. -/
def Item.Takes (taken rest : List Char) : Item → Prop
  | fixedYear => ∃ year : Fin 10000, taken = padded 4 year
  | fixed _ => ∃ n : Fin 100, taken = padded 2 n
  | looseYear => ∃ x : LooseYear, taken = x.text ∧ x.EndsBefore rest
  | loose _ => ∃ x : LooseNumber, taken = x.text ∧ x.EndsBefore rest
  | oneOf allowed => ∃ c ∈ allowed, taken = [c]
  | blanks => (∀ c ∈ taken, isBlank c) ∧ ∀ c ∈ rest.head?, isBlank c = false
  | fraction => ∃ fraction, taken = fractionText fraction ∧ FractionEndsBefore fraction rest
  | fixedOffset => ∃ z : ZoneText, taken = z.text ∧ z ≠ .absent ∧ z.inRange
  | looseOffset => ∃ x : LooseOffset, taken = x.text

theorem exists_taken_iff {α : Type} (text : α → List Char) {p : α → Prop} :
    (∃ x, cs = text x ++ rest ∧ p x) ↔
      ∃ taken, cs = taken ++ rest ∧ ∃ x, taken = text x ∧ p x := by
  constructor
  · rintro ⟨x, hcs, hx⟩
    exact ⟨text x, hcs, x, rfl, hx⟩
  · rintro ⟨_, hcs, x, rfl, hx⟩
    exact ⟨x, hcs, hx⟩

/-- **An item reads what it takes**, whatever the stamp. -/
theorem Item.exists_read_iff {i : Item} {s : Stamp} :
    (∃ s', i.read s cs = some (s', rest)) ↔ ∃ taken, cs = taken ++ rest ∧ i.Takes taken rest := by
  cases i with
  | fixedYear =>
    refine (exists_map_iff fun n : Nat => { s with year := (n : Int) }).trans ?_
    constructor
    · rintro ⟨n, hn⟩
      obtain ⟨hlt, hcs⟩ := (number?_eq_some_iff_padded (by decide)).mp hn
      exact ⟨padded 4 n, hcs, ⟨n, hlt⟩, rfl⟩
    · rintro ⟨_, hcs, year, rfl⟩
      exact ⟨year, (number?_eq_some_iff_padded (by decide)).mpr ⟨year.isLt, hcs⟩⟩
  | fixed f =>
    refine (exists_map_iff fun n => s.set n f).trans ?_
    constructor
    · rintro ⟨n, hn⟩
      obtain ⟨hlt, hcs⟩ := twoDigits?_eq_some_iff.mp hn
      exact ⟨padded 2 n, hcs, ⟨n, hlt⟩, rfl⟩
    · rintro ⟨_, hcs, n, rfl⟩
      exact ⟨n, twoDigits?_eq_some_iff.mpr ⟨n.isLt, hcs⟩⟩
  | looseYear =>
    refine (exists_map_iff fun n => { s with year := n }).trans ?_
    exact exists_looseYear_iff.trans (exists_taken_iff LooseYear.text)
  | loose f =>
    refine (exists_map_iff fun n => s.set n f).trans ?_
    exact exists_looseNumber_iff.trans (exists_taken_iff LooseNumber.text)
  | oneOf allowed =>
    constructor
    · rintro ⟨s', h⟩
      obtain ⟨c, hc, hcs, -⟩ := read_oneOf.mp h
      exact ⟨[c], hcs, c, hc, rfl⟩
    · rintro ⟨_, rfl, c, hc, rfl⟩
      exact ⟨s, read_oneOf.mpr ⟨c, hc, rfl, rfl⟩⟩
  | blanks =>
    constructor
    · rintro ⟨s', h⟩
      obtain rfl := (Prod.mk.inj (Option.some.inj h)).2
      refine ⟨cs.takeWhile isBlank, (takeWhile_append_skipBlanks cs).symm,
        fun _ hc => List.mem_takeWhile_imp hc, fun c hc => ?_⟩
      have hstop := List.head?_dropWhile_not isBlank cs
      change (cs.dropWhile isBlank).head? = some c at hc
      rw [hc] at hstop
      exact hstop
    · rintro ⟨blanks, rfl, hblanks, hstop⟩
      have hskip : skipBlanks (blanks ++ rest) = skipBlanks rest :=
        List.dropWhile_append_of_pos hblanks
      have hstay : skipBlanks rest = rest := by
        cases rest with
        | nil => rfl
        | cons c cs => exact skipBlanks_cons_of_not (hstop c rfl) cs
      exact ⟨s, congrArg some (Prod.ext rfl (hskip.trans hstay))⟩
  | fraction => exact exists_fraction_iff.trans (exists_taken_iff fractionText)
  | fixedOffset => exact exists_fixedOffset_iff.trans (exists_taken_iff ZoneText.text)
  | looseOffset =>
    refine (exists_map_iff fun n => { s with offset := n }).trans (exists_looseOffset_iff.trans ?_)
    constructor
    · rintro ⟨x, hcs⟩
      exact ⟨x.text, hcs, x, rfl⟩
    · rintro ⟨_, hcs, x, rfl⟩
      exact ⟨x, hcs⟩

/-- **What an item takes is determined by the text.** -/
theorem Item.Takes.unique {i : Item} {taken taken' rest' : List Char} (h : i.Takes taken rest)
    (h' : i.Takes taken' rest') (heq : taken ++ rest = taken' ++ rest') :
    taken = taken' ∧ rest = rest' := by
  have hread : ∃ s, i.read {} (taken ++ rest) = some (s, rest) :=
    Item.exists_read_iff.mpr ⟨taken, rfl, h⟩
  have hread' : ∃ s, i.read {} (taken ++ rest) = some (s, rest') :=
    Item.exists_read_iff.mpr ⟨taken', heq, h'⟩
  obtain ⟨s, hs⟩ := hread
  obtain ⟨s', hs'⟩ := hread'
  obtain rfl := (Prod.mk.inj (Option.some.inj (hs.symm.trans hs'))).2
  exact ⟨List.append_cancel_right heq, rfl⟩

theorem noDigitAhead_fractionText {rest : List Char} (h : NoDigitAhead rest)
    (fraction : List (Fin 10)) : NoDigitAhead (fractionText fraction ++ rest) := by
  cases fraction with
  | nil => exact h
  | cons d ds => exact noDigitAhead_cons rfl _

/-- A fraction ends before what is no part of one. -/
theorem fractionEndsBefore {rest : List Char} (hdigit : NoDigitAhead rest)
    (hpoint : rest.head? ≠ some '.') (fraction : List (Fin 10)) :
    FractionEndsBefore fraction rest := by
  unfold FractionEndsBefore
  split
  · exact hpoint
  · exact hdigit

namespace Layout

/-- A text is made of what the items of a layout take, one after the other. -/
def Spells : Layout → List Char → Prop
  | [], cs => cs = []
  | i :: is, cs => ∃ taken rest, cs = taken ++ rest ∧ i.Takes taken rest ∧ Spells is rest

/-- **A layout reads exactly the texts made of what its items take.** -/
theorem exists_read_iff {a : Layout} {s : Stamp} :
    (∃ st, a.read s cs = some st) ↔ a.Spells cs := by
  induction a generalizing s cs with
  | nil => simp only [read_nil_iff, Spells, exists_and_left, exists_eq', and_true]
  | cons i is ih =>
    constructor
    · rintro ⟨st, h⟩
      obtain ⟨⟨s', rest⟩, hr, hrest⟩ := read_cons h
      obtain ⟨taken, rfl, htakes⟩ := Item.exists_read_iff.mp ⟨s', hr⟩
      exact ⟨taken, rest, rfl, htakes, ih.mp ⟨st, hrest⟩⟩
    · rintro ⟨taken, rest, hcs, htakes, hrest⟩
      obtain ⟨s', hr⟩ := Item.exists_read_iff.mpr ⟨taken, hcs, htakes⟩
      obtain ⟨st, hst⟩ := ih.mpr hrest
      exact ⟨st, (read_cons_of_read hr).trans hst⟩

theorem exists_stamp?_iff {a : Layout} : (∃ st, a.stamp? cs = some st) ↔ a.Spells cs :=
  exists_read_iff

end Layout

/-! ### The items, one by one -/

section Spells

variable {a : Layout}

theorem spells_char_iff {c : Char} :
    Layout.Spells (Layout.char c :: a) cs ↔ ∃ rest, cs = c :: rest ∧ a.Spells rest := by
  constructor
  · rintro ⟨_, rest, rfl, ⟨d, hd, rfl⟩, hrest⟩
    obtain rfl := List.mem_singleton.mp hd
    exact ⟨rest, rfl, hrest⟩
  · rintro ⟨rest, rfl, hrest⟩
    exact ⟨[c], rest, rfl, ⟨c, List.mem_singleton_self c, rfl⟩, hrest⟩

/-- What the first item takes, and what the others read. -/
theorem spells_cons_iff {α : Type} {i : Item} (text : α → List Char)
    {ends : α → List Char → Prop}
    (hi : ∀ taken rest, i.Takes taken rest ↔ ∃ x, taken = text x ∧ ends x rest) :
    Layout.Spells (i :: a) cs ↔ ∃ x rest, cs = text x ++ rest ∧ ends x rest ∧ a.Spells rest := by
  constructor
  · rintro ⟨taken, rest, rfl, htakes, hrest⟩
    obtain ⟨x, rfl, hends⟩ := (hi taken rest).mp htakes
    exact ⟨x, rest, rfl, hends, hrest⟩
  · rintro ⟨x, rest, rfl, hends, hrest⟩
    exact ⟨text x, rest, rfl, (hi _ rest).mpr ⟨x, rfl, hends⟩, hrest⟩

theorem spells_looseYear_iff :
    Layout.Spells (.looseYear :: a) cs ↔
      ∃ (x : LooseYear) (rest : _), cs = x.text ++ rest ∧ x.EndsBefore rest ∧ a.Spells rest :=
  spells_cons_iff LooseYear.text fun _ _ => Iff.rfl

theorem spells_loose_iff {f : Field} :
    Layout.Spells (.loose f :: a) cs ↔
      ∃ (x : LooseNumber) (rest : _), cs = x.text ++ rest ∧ x.EndsBefore rest ∧ a.Spells rest :=
  spells_cons_iff LooseNumber.text fun _ _ => Iff.rfl

theorem spells_fraction_iff :
    Layout.Spells (.fraction :: a) cs ↔
      ∃ fraction rest, cs = fractionText fraction ++ rest ∧ FractionEndsBefore fraction rest ∧
        a.Spells rest :=
  spells_cons_iff fractionText fun _ _ => Iff.rfl

theorem spells_fixedOffset_iff :
    Layout.Spells (.fixedOffset :: a) cs ↔
      ∃ (z : ZoneText) (rest : _), cs = z.text ++ rest ∧ (z ≠ .absent ∧ z.inRange) ∧
        a.Spells rest :=
  spells_cons_iff ZoneText.text fun _ _ => Iff.rfl

theorem spells_fixed_iff {f : Field} :
    Layout.Spells (.fixed f :: a) cs ↔
      ∃ (n : Fin 100) (rest : _), cs = padded 2 n ++ rest ∧ a.Spells rest := by
  constructor
  · rintro ⟨_, rest, rfl, ⟨n, rfl⟩, hrest⟩
    exact ⟨n, rest, rfl, hrest⟩
  · rintro ⟨n, rest, rfl, hrest⟩
    exact ⟨_, rest, rfl, ⟨n, rfl⟩, hrest⟩

end Spells

end DateText

end Conform
