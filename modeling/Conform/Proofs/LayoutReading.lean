import Conform.DateText.Layout
import Conform.Proofs.DigitRuns
import Mathlib.Data.Option.Basic

/-!
# Reading by layouts

Which layouts can read one text, and with what result.

- `Layout.agrees`: a check of two layouts, item by item, that no text is read differently by
  them;
- `Layout.read_unique`: **the check is sound**: a text that both layouts read has one stamp;
- `Layout.isTimeChar_of_read`: a text that is read has no letters but those of times;
- `Layout.read_withYear`: a layout without a year leaves the year alone.
-/

namespace Conform

namespace Text

/-! ## Blanks -/

theorem skipBlanks_cons_of_blank {c : Char} (h : isBlank c) (cs : List Char) :
    skipBlanks (c :: cs) = skipBlanks cs := by
  simp [skipBlanks, h]

/-- Skipping blanks leaves none to skip. -/
theorem skipBlanks_skipBlanks (cs : List Char) : skipBlanks (skipBlanks cs) = skipBlanks cs := by
  induction cs with
  | nil => rfl
  | cons c cs ih =>
    by_cases hc : isBlank c = true
    · rw [skipBlanks_cons_of_blank hc, ih]
    · have hstay := skipBlanks_cons_of_not (Bool.eq_false_iff.mpr hc) cs
      rw [hstay, hstay]

/-- What holds of none of some characters. -/
theorem eq_false_of_mem {p : Char → Bool} {allowed : List Char} (h : allowed.any p = false)
    {c : Char} (hc : c ∈ allowed) : p c = false :=
  Bool.eq_false_iff.mpr (List.any_eq_false.mp h c hc)

/-- Digits are no blanks. -/
theorem isBlank_of_isDigit {c : Char} (h : c.isDigit) : isBlank c = false := by
  obtain ⟨hlow, hhigh⟩ := Char.isDigit_iff_toNat.mp h
  have h0 : '0'.toNat = 48 := rfl
  have h9 : '9'.toNat = 57 := rfl
  simp [isBlank, blankRanges]
  omega

theorem isDigit_eq_false_of_isBlank {c : Char} (h : isBlank c) : c.isDigit = false := by
  by_contra hdigit
  rw [isBlank_of_isDigit (Bool.eq_true_of_not_eq_false hdigit)] at h
  cases h

end Text

namespace DateText

open Text

variable {s : Stamp} {cs rest : List Char}

/-! ## Offsets -/

/-- The signs of an offset. -/
def signs : List Char := ['+', '-', '\u2212']

/-- A text with a sign starts with one. -/
theorem exists_of_sign? {r : Bool × List Char} (h : sign? cs = some r) :
    ∃ c ∈ signs, cs = c :: r.2 := by
  unfold sign? at h
  split at h
  · obtain rfl := Option.some.inj h
    exact ⟨'+', by decide, rfl⟩
  · obtain rfl := Option.some.inj h
    exact ⟨'-', by decide, rfl⟩
  · obtain rfl := Option.some.inj h
    exact ⟨'\u2212', by decide, rfl⟩
  · cases h

/-- An offset is a sign, two digits, what the separator skips, and two digits. -/
theorem offset?_eq_some_iff {separator : List Char → Option (List Char)} {r : Int × List Char} :
    offset? separator cs = some r ↔
      ∃ sign hours rest minutes, sign? cs = some sign ∧ twoDigits? sign.2 = some hours ∧
        separator hours.2 = some rest ∧ twoDigits? rest = some minutes ∧ minutes.1 < 60 ∧
        (if sign.1 then -((hours.1 : Int) * 60 + minutes.1) else (hours.1 : Int) * 60 + minutes.1,
          minutes.2) = r := by
  simp only [offset?, Option.bind_eq_bind, Option.bind_eq_some_iff, Option.guard_eq_some',
    Option.pure_def, Option.some.injEq, exists_and_left, exists_const, Prod.exists]

theorem exists_of_twoDigits? {r : Nat × List Char} (h : twoDigits? cs = some r) :
    ∃ d ds, cs = d :: ds ∧ d.isDigit := by
  obtain ⟨ds, rfl, hdigits, hlen, -⟩ := exists_of_number? h
  obtain ⟨d, ds, rfl, hd⟩ := exists_digit_cons (hlen.trans' (by decide)) hdigits
  exact ⟨d, ds ++ r.2, rfl, hd⟩

theorem colon?_eq_some_iff : colon? cs = some rest ↔ cs = ':' :: rest := by
  constructor
  · intro h
    unfold colon? at h
    split at h
    · rw [Option.some.inj h]
    · cases h
  · rintro rfl
    rfl

/-- Colons and blanks end where a number starts. -/
theorem colonsAndBlanks_colon_cons {d : Char} (hd : d.isDigit) (ds : List Char) :
    colonsAndBlanks (':' :: d :: ds) = d :: ds := by
  have hne : d ≠ ':' := by
    rintro rfl
    cases hd
  simp [colonsAndBlanks, hne, isBlank_of_isDigit hd]

/-- An offset with one colon is read as well where any colons and blanks may separate its
numbers. -/
theorem offset?_colonsAndBlanks {r : Int × List Char} (h : offset? colon? cs = some r) :
    offset? (fun cs => some (colonsAndBlanks cs)) cs = some r := by
  obtain ⟨sign, hours, rest, minutes, hsign, hhours, hcolon, hminutes, hlt, hr⟩ :=
    offset?_eq_some_iff.mp h
  refine offset?_eq_some_iff.mpr
    ⟨sign, hours, rest, minutes, hsign, hhours, ?_, hminutes, hlt, hr⟩
  obtain ⟨d, ds, rfl, hd⟩ := exists_of_twoDigits? hminutes
  rw [colon?_eq_some_iff.mp hcolon, colonsAndBlanks_colon_cons hd]

/-! ## How items start -/

namespace Item

variable {i j : Item} {r r' : Stamp × List Char}

/-- Whether what an item reads may start with a character. -/
def starts (c : Char) : Item → Bool
  | fixedYear => c.isDigit
  | fixed _ => c.isDigit
  | looseYear => isBlank c || c.isDigit || c ∈ ['+', '-']
  | loose _ => isBlank c || c.isDigit
  | oneOf allowed => c ∈ allowed
  | blanks => true
  | fraction => true
  | fixedOffset => c ∈ 'Z' :: 'z' :: signs
  | looseOffset => isBlank c || c ∈ signs

/-- Whether an item has to read some text. -/
def needsText : Item → Bool
  | blanks => false
  | fraction => false
  | _ => true

/-- Whether an item skips blanks before all else. -/
def skipsBlanks : Item → Bool
  | looseYear => true
  | loose _ => true
  | blanks => true
  | looseOffset => true
  | _ => false

theorem read_nil (h : i.needsText) (s : Stamp) : i.read s [] = none := by
  cases i with
  | blanks => cases h
  | fraction => cases h
  | _ => rfl

theorem read_skipBlanks (h : i.skipsBlanks) (s : Stamp) (cs : List Char) :
    i.read s (skipBlanks cs) = i.read s cs := by
  cases i with
  | looseYear => simp only [read, skipBlanks_skipBlanks]
  | loose f => simp only [read, skipBlanks_skipBlanks]
  | blanks => simp only [read, skipBlanks_skipBlanks]
  | looseOffset => simp only [read, skipBlanks_skipBlanks]
  | _ => cases h

theorem isDigit_of_number? {least most : Nat} (hleast : 0 < least) {c : Char}
    {n : Nat × List Char} (h : number? least most (c :: cs) = some n) : c.isDigit := by
  by_contra hc
  rw [number?_cons_of_not hleast (Bool.eq_false_iff.mpr hc)] at h
  cases h

/-- A year starts with a digit or a sign. -/
theorem starts_of_year? {c : Char} {n : Int × List Char} (h : year? (c :: cs) = some n) :
    c.isDigit ∨ c ∈ ['+', '-'] := by
  unfold year? at h
  split at h
  · next heq => exact .inr (by rw [(List.cons.inj heq).1]; decide)
  · next heq => exact .inr (by rw [(List.cons.inj heq).1]; decide)
  · obtain ⟨m, hm, -⟩ := Option.map_eq_some_iff.mp h
    exact .inl (isDigit_of_number? (by decide) hm)

theorem starts_of_offset? {separator : List Char → Option (List Char)} {c : Char}
    {n : Int × List Char} (h : offset? separator (c :: cs) = some n) : c ∈ signs := by
  obtain ⟨sign, -, -, -, hsign, -⟩ := offset?_eq_some_iff.mp h
  obtain ⟨d, hd, heq⟩ := exists_of_sign? hsign
  rw [(List.cons.inj heq).1]
  exact hd

/-- An item starts with what it may start with. -/
theorem starts_of_read {c : Char} (h : i.read s (c :: cs) = some r) : i.starts c := by
  -- behind blanks an item is read as if there were none
  have hblank : isBlank c = true ∨ skipBlanks (c :: cs) = c :: cs := by
    rcases Bool.eq_false_or_eq_true (isBlank c) with hc | hc
    · exact .inl hc
    · exact .inr (skipBlanks_cons_of_not hc cs)
  cases i with
  | fixedYear =>
    obtain ⟨n, hn, -⟩ := Option.map_eq_some_iff.mp h
    exact isDigit_of_number? (by decide) hn
  | fixed f =>
    obtain ⟨n, hn, -⟩ := Option.map_eq_some_iff.mp h
    exact isDigit_of_number? (by decide) hn
  | looseYear =>
    obtain ⟨n, hn, -⟩ := Option.map_eq_some_iff.mp h
    rcases hblank with hc | hstay
    · simp [starts, hc]
    · rw [hstay] at hn
      rcases starts_of_year? hn with hc | hc
      · simp [starts, hc]
      · simp only [starts, hc, decide_true, Bool.or_true]
  | loose f =>
    obtain ⟨n, hn, -⟩ := Option.map_eq_some_iff.mp h
    rcases hblank with hc | hstay
    · simp [starts, hc]
    · rw [hstay] at hn
      simp [starts, isDigit_of_number? (by decide) hn]
  | oneOf allowed =>
    simp only [read] at h
    split at h
    · next hc => exact decide_eq_true hc
    · cases h
  | blanks => rfl
  | fraction => rfl
  | fixedOffset =>
    simp only [read] at h
    split at h
    · next heq => rw [(List.cons.inj heq).1]; decide
    · next heq => rw [(List.cons.inj heq).1]; decide
    · obtain ⟨n, hn, -⟩ := Option.map_eq_some_iff.mp h
      exact decide_eq_true (List.mem_cons_of_mem _ (List.mem_cons_of_mem _ (starts_of_offset? hn)))
  | looseOffset =>
    obtain ⟨n, hn, -⟩ := Option.map_eq_some_iff.mp h
    rcases hblank with hc | hstay
    · simp [starts, hc]
    · rw [hstay] at hn
      simp only [starts, starts_of_offset? hn, decide_true, Bool.or_true]

/-! ## Items that read alike -/

/-- Whether two items read the same wherever both can read. -/
def concords : Item → Item → Bool
  | fixedYear, looseYear => true
  | fixed f, loose g => f = g
  | oneOf _, oneOf _ => true
  | fixedOffset, looseOffset => true
  | i, j => i = j

/-- A year that starts with a digit has no sign. -/
theorem year?_of_isDigit {c : Char} (hc : c.isDigit) (cs : List Char) :
    year? (c :: cs) = (number? 1 4 (c :: cs)).map fun r => ((r.1 : Int), r.2) := by
  unfold year?
  split
  · next heq => rw [(List.cons.inj heq).1] at hc; cases hc
  · next heq => rw [(List.cons.inj heq).1] at hc; cases hc
  · rfl

/-- A year of four digits is also read as a year of any form. -/
theorem read_looseYear (h : fixedYear.read s cs = some r) : looseYear.read s cs = some r := by
  obtain ⟨n, hn, rfl⟩ := Option.map_eq_some_iff.mp h
  cases cs with
  | nil => cases hn
  | cons c cs =>
    have hc := isDigit_of_number? (by decide) hn
    have hfour : number? 1 4 (c :: cs) = some n := number?_of_le (by decide) hn
    simp only [read, skipBlanks_cons_of_not (isBlank_of_isDigit hc), year?_of_isDigit hc, hfour,
      Option.map_some]

/-- A field of two digits is also read as a field of one or two. -/
theorem read_loose {f : Field} (h : (fixed f).read s cs = some r) :
    (loose f).read s cs = some r := by
  obtain ⟨n, hn, rfl⟩ := Option.map_eq_some_iff.mp h
  obtain ⟨d, ds, rfl, hd⟩ := exists_of_twoDigits? hn
  have htwo : number? 1 2 (d :: ds) = some n := number?_of_le (by decide) hn
  simp only [read, skipBlanks_cons_of_not (isBlank_of_isDigit hd), htwo, Option.map_some]

/-- An offset that is no `Z` is also read as an offset with blanks. -/
theorem read_looseOffset (h : fixedOffset.read s cs = some r)
    (h' : looseOffset.read s cs = some r') : looseOffset.read s cs = some r := by
  simp only [read] at h
  split at h
  · exact absurd (starts_of_read h') (by decide)
  · exact absurd (starts_of_read h') (by decide)
  · obtain ⟨n, hn, rfl⟩ := Option.map_eq_some_iff.mp h
    have hstay : skipBlanks cs = cs := by
      obtain ⟨sign, -, -, -, hsign, -⟩ := offset?_eq_some_iff.mp hn
      obtain ⟨c, hc, rfl⟩ := exists_of_sign? hsign
      exact skipBlanks_cons_of_not (eq_false_of_mem (by decide) hc) _
    simp only [read, hstay, offset?_colonsAndBlanks hn, Option.map_some]

/-- What one of these characters reads is that character. -/
theorem read_oneOf {allowed : List Char} :
    (oneOf allowed).read s cs = some r ↔ ∃ c ∈ allowed, cs = c :: r.2 ∧ s = r.1 := by
  constructor
  · intro h
    simp only [read] at h
    split at h
    · next c rest =>
      split at h
      · next hc => exact ⟨c, hc, by rw [← Option.some.inj h], by rw [← Option.some.inj h]⟩
      · cases h
    · cases h
  · rintro ⟨c, hc, rfl, rfl⟩
    simp only [read, if_pos hc]

theorem eq_of_concords (hij : i.concords j) (h : i.read s cs = some r)
    (h' : j.read s cs = some r') : r = r' := by
  have hsame : ∀ {k : Item}, k.read s cs = some r → k.read s cs = some r' → r = r' :=
    fun hk hk' => Option.some.inj (hk.symm.trans hk')
  unfold concords at hij
  split at hij
  · exact hsame (read_looseYear h) h'
  · obtain rfl := of_decide_eq_true hij
    exact hsame (read_loose h) h'
  · obtain ⟨c, -, rfl, rfl⟩ := read_oneOf.mp h
    obtain ⟨d, -, heq, hs⟩ := read_oneOf.mp h'
    exact Prod.ext hs (List.cons.inj heq).2
  · exact hsame (read_looseOffset h h') h'
  · obtain rfl := of_decide_eq_true hij
    exact hsame h h'

end Item

/-! ## Layouts that read alike -/

namespace Layout

variable {a b : Layout} {st st' : Stamp}

/-- Whether no text is read differently by two layouts, as far as their items tell, one after
the other. A character that starts no item of the other layout sets the two apart; a blank
may also belong to the blanks that the item skips. -/
def agrees : Layout → Layout → Bool
  | [], [] => true
  | [], j :: _ => j.needsText
  | i :: _, [] => i.needsText
  | .oneOf _ :: is, .oneOf _ :: js => agrees is js
  | .oneOf allowed :: is, j :: js =>
    allowed.all fun c => !j.starts c || (isBlank c && j.skipsBlanks && agrees is (j :: js))
  | i :: is, j :: js => i.concords j && agrees is js

theorem read_cons {i : Item} {is : Layout} (h : read (i :: is) s cs = some st) :
    ∃ r, i.read s cs = some r ∧ read is r.1 r.2 = some st :=
  Option.bind_eq_some_iff.mp h

theorem read_cons_of_read {i : Item} {is : Layout} {r : Stamp × List Char}
    (h : i.read s cs = some r) : read (i :: is) s cs = read is r.1 r.2 := by
  change (i.read s cs).bind _ = _
  rw [h]
  rfl

theorem read_nil_text {i : Item} {is : Layout} (hi : i.needsText) : read (i :: is) s [] = none := by
  change (i.read s []).bind _ = none
  rw [Item.read_nil hi, Option.bind_none]

/-- A text is not read if it starts with nothing that starts the first item. -/
theorem read_of_not_starts {i : Item} {is : Layout} {c : Char} (h : i.starts c = false) :
    read (i :: is) s (c :: cs) = none := by
  have hitem : i.read s (c :: cs) = none := by
    by_contra hsome
    obtain ⟨r, hr⟩ := Option.ne_none_iff_exists'.mp hsome
    rw [Item.starts_of_read hr] at h
    cases h
  change (i.read s (c :: cs)).bind _ = none
  rw [hitem, Option.bind_none]

/-- Blanks that the first item skips may be skipped before. -/
theorem read_skipBlanks {i : Item} {is : Layout} (h : i.skipsBlanks) (s : Stamp)
    (cs : List Char) : read (i :: is) s (skipBlanks cs) = read (i :: is) s cs := by
  change (i.read s (skipBlanks cs)).bind _ = (i.read s cs).bind _
  rw [Item.read_skipBlanks h]

theorem read_nil (h : read [] s cs = some st) : cs = [] ∧ s = st := by
  cases cs with
  | nil => exact ⟨rfl, Option.some.inj h⟩
  | cons c cs => cases h

/-- **The check of two layouts is sound**: a text that both read has one stamp. -/
theorem read_unique (hab : a.agrees b) (h : a.read s cs = some st) (h' : b.read s cs = some st') :
    st = st' := by
  -- the induction follows the check: items that concord leave the same stamp and the same rest
  fun_induction agrees a b generalizing s cs with
  | case1 => exact (read_nil h).2.symm.trans (read_nil h').2
  | case2 j js =>
    rw [(read_nil h).1, read_nil_text hab] at h'
    cases h'
  | case3 i is =>
    rw [(read_nil h').1, read_nil_text hab] at h
    cases h
  | case4 allowed is allowed' js ih =>
    obtain ⟨r, hr, hrest⟩ := read_cons h
    obtain ⟨r', hr', hrest'⟩ := read_cons h'
    obtain rfl := Item.eq_of_concords rfl hr hr'
    exact ih hab hrest hrest'
  | case5 allowed is j js hj ih =>
    obtain ⟨r, hr, hrest⟩ := read_cons h
    obtain ⟨r', hr', hrest'⟩ := read_cons h'
    obtain ⟨c, hc, rfl, rfl⟩ := Item.read_oneOf.mp hr
    have hcheck := List.all_eq_true.mp hab c hc
    rw [Item.starts_of_read hr', Bool.not_true, Bool.false_or, Bool.and_eq_true,
      Bool.and_eq_true] at hcheck
    obtain ⟨⟨hblank, hskips⟩, hagrees⟩ := hcheck
    -- the item reads the same behind the blank
    have hbehind : read (j :: js) r.1 r.2 = some st' := by
      rw [← h', ← read_skipBlanks hskips r.1 r.2, ← read_skipBlanks hskips r.1 (c :: r.2),
        skipBlanks_cons_of_blank hblank]
    exact ih hagrees hrest hbehind
  | case6 i is j js hi hi' ih =>
    obtain ⟨r, hr, hrest⟩ := read_cons h
    obtain ⟨r', hr', hrest'⟩ := read_cons h'
    obtain ⟨hconcords, hagrees⟩ := Bool.and_eq_true_iff.mp hab
    obtain rfl := Item.eq_of_concords hconcords hr hr'
    exact ih hagrees hrest hrest'

/-! ## Blanks between items -/

/-- A layout without the blanks that the next item skips as well. -/
def dropBlanks : Layout → Layout
  | [] => []
  | .blanks :: is =>
    if is.head?.any Item.skipsBlanks then dropBlanks is else .blanks :: dropBlanks is
  | i :: is => i :: dropBlanks is

/-- Such blanks make no difference. -/
theorem read_dropBlanks (a : Layout) (s : Stamp) (cs : List Char) :
    a.dropBlanks.read s cs = a.read s cs := by
  have hcons : ∀ (i : Item) (is : Layout), (∀ s cs, is.dropBlanks.read s cs = is.read s cs) →
      ∀ s cs, read (i :: is.dropBlanks) s cs = read (i :: is) s cs := by
    intro i is ih s cs
    change (i.read s cs).bind _ = (i.read s cs).bind _
    simp only [ih]
  fun_induction dropBlanks a generalizing s cs with
  | case1 => rfl
  | case2 is hskips ih =>
    obtain ⟨j, hj, hskips⟩ := Option.any_eq_true _ _ |>.mp hskips
    obtain ⟨js, rfl⟩ := List.head?_eq_some_iff.mp hj
    rw [ih]
    exact (read_skipBlanks hskips s cs).symm
  | case3 is hskips ih => exact hcons _ _ ih s cs
  | case4 i is hi ih => exact hcons _ _ ih s cs

end Layout

/-! ## Letters -/

/-- No letter, or one of the letters of times. -/
def isTimeChar (c : Char) : Bool :=
  !c.isAlpha || c ∈ ['T', 't', 'Z', 'z']

theorem isAlpha_iff_toNat {c : Char} :
    c.isAlpha ↔ (65 ≤ c.toNat ∧ c.toNat ≤ 90) ∨ (97 ≤ c.toNat ∧ c.toNat ≤ 122) := by
  have hupper : c.isUpper ↔ 65 ≤ c.toNat ∧ c.toNat ≤ 90 :=
    decide_eq_true_iff.trans (and_congr UInt32.le_iff_toNat_le UInt32.le_iff_toNat_le)
  have hlower : c.isLower ↔ 97 ≤ c.toNat ∧ c.toNat ≤ 122 :=
    Bool.and_eq_true_iff.trans (and_congr (decide_eq_true_iff.trans UInt32.le_iff_toNat_le)
      (decide_eq_true_iff.trans UInt32.le_iff_toNat_le))
  exact Bool.or_eq_true_iff.trans (or_congr hupper hlower)

theorem isTimeChar_of_not_isAlpha {c : Char} (h : ¬ c.isAlpha) : isTimeChar c := by
  rw [isTimeChar, Bool.eq_false_iff.mpr h]
  rfl

/-- Digits are no letters. -/
theorem not_isAlpha_of_isDigit {c : Char} (h : c.isDigit) : ¬ c.isAlpha := by
  intro hc
  have hdigit := Char.isDigit_iff_toNat.mp h
  have halpha := isAlpha_iff_toNat.mp hc
  have h9 : '9'.toNat = 57 := rfl
  omega

theorem isTimeChar_of_isDigit {c : Char} (h : c.isDigit) : isTimeChar c :=
  isTimeChar_of_not_isAlpha (not_isAlpha_of_isDigit h)

theorem isTimeChar_of_isBlank {c : Char} (h : isBlank c) : isTimeChar c := by
  refine isTimeChar_of_not_isAlpha fun hc => ?_
  have halpha := isAlpha_iff_toNat.mp hc
  simp [isBlank, blankRanges] at h
  omega

/-- From one text to what is left of it, with no letter between that is none of times. -/
def Passes (cs rest : List Char) : Prop :=
  ∃ pre, cs = pre ++ rest ∧ ∀ c ∈ pre, isTimeChar c

namespace Passes

variable {cs₁ cs₂ cs₃ : List Char}

theorem refl (cs : List Char) : Passes cs cs :=
  ⟨[], rfl, fun _ hc => nomatch hc⟩

theorem trans (h : Passes cs₁ cs₂) (h' : Passes cs₂ cs₃) : Passes cs₁ cs₃ := by
  obtain ⟨pre, rfl, hpre⟩ := h
  obtain ⟨pre', rfl, hpre'⟩ := h'
  refine ⟨pre ++ pre', (List.append_assoc ..).symm, fun c hc => ?_⟩
  exact (List.mem_append.mp hc).elim (hpre c) (hpre' c)

theorem cons {c : Char} (hc : isTimeChar c) (h : Passes cs₁ cs₂) : Passes (c :: cs₁) cs₂ :=
  trans ⟨[c], rfl, fun _ hd => List.mem_singleton.mp hd ▸ hc⟩ h

/-- Characters are passed as long as they are such. -/
theorem dropWhile {p : Char → Bool} (hp : ∀ c, p c → isTimeChar c) (cs : List Char) :
    Passes cs (cs.dropWhile p) :=
  ⟨cs.takeWhile p, List.takeWhile_append_dropWhile.symm,
    fun c hc => hp c (List.mem_takeWhile_imp hc)⟩

theorem skipBlanks (cs : List Char) : Passes cs (skipBlanks cs) :=
  dropWhile (fun _ => isTimeChar_of_isBlank) cs

theorem of_number? {least most : Nat} {r : Nat × List Char}
    (h : number? least most cs = some r) : Passes cs r.2 := by
  obtain ⟨ds, rfl, hdigits, -⟩ := exists_of_number? h
  exact ⟨ds, rfl, fun d hd => isTimeChar_of_isDigit (hdigits d hd)⟩

theorem of_year? {r : Int × List Char} (h : year? cs = some r) : Passes cs r.2 := by
  unfold year? at h
  split at h
  · obtain ⟨n, hn, rfl⟩ := Option.map_eq_some_iff.mp h
    exact cons (by decide) (of_number? hn)
  · obtain ⟨n, hn, rfl⟩ := Option.map_eq_some_iff.mp h
    exact cons (by decide) (of_number? hn)
  · obtain ⟨n, hn, rfl⟩ := Option.map_eq_some_iff.mp h
    exact of_number? hn

theorem of_offset? {separator : List Char → Option (List Char)}
    (hsep : ∀ cs rest, separator cs = some rest → Passes cs rest) {r : Int × List Char}
    (h : offset? separator cs = some r) : Passes cs r.2 := by
  obtain ⟨sign, hours, rest, minutes, hsign, hhours, hrest, hminutes, -, rfl⟩ :=
    offset?_eq_some_iff.mp h
  obtain ⟨c, hc, rfl⟩ := exists_of_sign? hsign
  exact cons (List.all_eq_true.mp (by decide) c hc)
    ((of_number? hhours).trans ((hsep _ _ hrest).trans (of_number? hminutes)))

end Passes

/-- Whether an item asks for no letter but those of times. -/
def Item.isTimely : Item → Bool
  | oneOf allowed => allowed.all isTimeChar
  | _ => true

theorem Item.passes_of_read {i : Item} {r : Stamp × List Char} (hi : i.isTimely)
    (h : i.read s cs = some r) : Passes cs r.2 := by
  cases i with
  | fixedYear =>
    obtain ⟨n, hn, rfl⟩ := Option.map_eq_some_iff.mp h
    exact .of_number? hn
  | fixed f =>
    obtain ⟨n, hn, rfl⟩ := Option.map_eq_some_iff.mp h
    exact .of_number? hn
  | looseYear =>
    obtain ⟨n, hn, rfl⟩ := Option.map_eq_some_iff.mp h
    exact (Passes.skipBlanks cs).trans (.of_year? hn)
  | loose f =>
    obtain ⟨n, hn, rfl⟩ := Option.map_eq_some_iff.mp h
    exact (Passes.skipBlanks cs).trans (.of_number? hn)
  | oneOf allowed =>
    obtain ⟨c, hc, rfl, -⟩ := read_oneOf.mp h
    exact .cons (List.all_eq_true.mp hi c hc) (.refl _)
  | blanks =>
    obtain rfl := Option.some.inj h
    exact .skipBlanks cs
  | fraction =>
    simp only [read] at h
    split at h
    · next rest =>
      split at h
      · cases h
      · obtain rfl := Option.some.inj h
        exact .cons (by decide) (.dropWhile (fun _ => isTimeChar_of_isDigit) rest)
    · obtain rfl := Option.some.inj h
      exact .refl cs
  | fixedOffset =>
    simp only [read] at h
    split at h
    · obtain rfl := Option.some.inj h
      exact .cons (by decide) (.refl _)
    · obtain rfl := Option.some.inj h
      exact .cons (by decide) (.refl _)
    · obtain ⟨n, hn, rfl⟩ := Option.map_eq_some_iff.mp h
      refine .of_offset? (fun cs rest hcolon => ?_) hn
      obtain rfl := colon?_eq_some_iff.mp hcolon
      exact .cons (by decide) (.refl _)
  | looseOffset =>
    obtain ⟨n, hn, rfl⟩ := Option.map_eq_some_iff.mp h
    refine (Passes.skipBlanks cs).trans (.of_offset? (fun cs rest hsep => ?_) hn)
    obtain rfl := Option.some.inj hsep
    refine .dropWhile (fun c hc => ?_) cs
    rcases Bool.or_eq_true_iff.mp hc with hc | hc
    · rw [eq_of_beq hc]; decide
    · exact isTimeChar_of_isBlank hc

/-- **A text that a layout reads has no letters but those of times.** -/
theorem Layout.isTimeChar_of_read {a : Layout} {st : Stamp} (ha : a.all Item.isTimely)
    (h : a.read s cs = some st) : ∀ c ∈ cs, isTimeChar c := by
  induction a generalizing s cs with
  | nil =>
    obtain ⟨rfl, -⟩ := read_nil h
    exact fun _ hc => nomatch hc
  | cons i is ih =>
    obtain ⟨hi, his⟩ := Bool.and_eq_true_iff.mp ha
    obtain ⟨r, hr, hrest⟩ := read_cons h
    obtain ⟨pre, rfl, hpre⟩ := Item.passes_of_read hi hr
    exact fun c hc => (List.mem_append.mp hc).elim (hpre c) (ih his hrest c)

/-! ## Years -/

/-- The stamp with another year. -/
def Stamp.withYear (s : Stamp) (year : Int) : Stamp :=
  { s with year }

/-- Whether an item is the year. -/
def Item.isYear : Item → Bool
  | fixedYear => true
  | looseYear => true
  | _ => false

theorem Stamp.set_withYear (s : Stamp) (n : Nat) (year : Int) (f : Field) :
    (s.withYear year).set n f = (s.set n f).withYear year := by
  cases f <;> rfl

theorem Item.read_withYear {i : Item} (hi : i.isYear = false) (s : Stamp) (year : Int)
    (cs : List Char) :
    i.read (s.withYear year) cs = (i.read s cs).map fun r => (r.1.withYear year, r.2) := by
  cases i with
  | fixedYear => cases hi
  | looseYear => cases hi
  | fixed f =>
    simp only [read, Option.map_map, Stamp.set_withYear]
    rfl
  | loose f =>
    simp only [read, Option.map_map, Stamp.set_withYear]
    rfl
  | oneOf allowed =>
    simp only [read]
    split
    · split <;> rfl
    · rfl
  | blanks => rfl
  | fraction =>
    simp only [read]
    split
    · split <;> rfl
    · rfl
  | fixedOffset =>
    simp only [read]
    split
    · rfl
    · rfl
    · rw [Option.map_map]; rfl
  | looseOffset =>
    simp only [read, Option.map_map]
    rfl

/-- **A layout without a year leaves the year alone.** -/
theorem Layout.read_withYear {a : Layout} (ha : a.all fun i => !i.isYear) (s : Stamp) (year : Int)
    (cs : List Char) :
    a.read (s.withYear year) cs = (a.read s cs).map (·.withYear year) := by
  induction a generalizing s cs with
  | nil => cases cs <;> rfl
  | cons i is ih =>
    obtain ⟨hi, his⟩ := Bool.and_eq_true_iff.mp ha
    change (i.read (s.withYear year) cs).bind _ = ((i.read s cs).bind _).map _
    rw [Item.read_withYear (Bool.not_eq_true' _ ▸ hi)]
    cases i.read s cs with
    | none => rfl
    | some r => exact ih his r.1 r.2

end DateText

end Conform
