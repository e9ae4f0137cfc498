import Conform.Proofs.Alternatives
import Conform.Proofs.StampInstants
import Conform.Proofs.WholeDoubles

/-!
# Extended years

Texts with a year of a sign and six digits have a rule of their own, which moves the year into
the years 2000 to 2399 and the milliseconds back. The lenient layouts read such texts as well,
and are asked where the rule has no answer.

- `ExtendedText.extendedMillis?_eq`: what the rule computes, in whole numbers;
- `ExtendedText.extendedMillis?_of_instant?`: **where both have an answer, it is the same**,
  for every year but minus zero;
- `ExtendedText.rule_agrees_iff`: where the layouts read what the rule refuses.
-/

namespace Conform

namespace DateText

open Text

variable {st : Stamp} {cs rest : List Char}

/-- A text with an extended year: a sign, six digits, and nothing more or a hyphen and
anything. -/
structure ExtendedText where
  negative : Bool
  digits : List Char
  rest : List Char
  isDigit : ∀ d ∈ digits, d.isDigit
  length_digits : digits.length = 6
  rest_starts : rest = [] ∨ rest.head? = some '-'

namespace ExtendedText

variable (x : ExtendedText)

/-- The sign. -/
def sign : Char :=
  if x.negative then '-' else '+'

/-- The text. -/
def text : List Char :=
  x.sign :: (x.digits ++ x.rest)

/-- The year. -/
def year : Int :=
  if x.negative then -natOfDigits x.digits else natOfDigits x.digits

/-- The year is minus zero. -/
def IsMinusZero : Prop :=
  x.negative ∧ natOfDigits x.digits = 0

instance : Decidable x.IsMinusZero :=
  inferInstanceAs (Decidable (_ ∧ _))

theorem noDigitAhead_rest : NoDigitAhead x.rest := by
  rcases x.rest_starts with h | h
  · rw [h]
    exact noDigitAhead_nil
  · intro c hc
    rw [h] at hc
    obtain rfl := Option.some.inj hc
    rfl

/-! ## Readings of the year -/

theorem text_of_negative (h : x.negative = true) : x.text = '-' :: (x.digits ++ x.rest) := by
  rw [text, sign, h]
  rfl

theorem text_of_not_negative (h : x.negative = false) :
    x.text = '+' :: (x.digits ++ x.rest) := by
  rw [text, sign, h]
  rfl

/-- The rule for extended years reads the year, and leaves the rest; but it refuses minus
zero. -/
theorem extendedYear?_text :
    extendedYear? x.text = if x.IsMinusZero then none else some (x.year, x.rest) := by
  have hnumber : number? 6 6 (x.digits ++ x.rest) = some (natOfDigits x.digits, x.rest) :=
    number?_append ⟨x.isDigit, x.length_digits.ge, x.length_digits.le, .inl x.length_digits⟩
  have hstarts : (x.rest.isEmpty || x.rest.head? == some '-') = true := by
    rcases x.rest_starts with h | h
    · rw [h]; rfl
    · rw [h]; exact Bool.or_true _
  have hsix : extendedYear?.sixDigits? (x.digits ++ x.rest) =
      some (natOfDigits x.digits, x.rest) := by
    simp only [extendedYear?.sixDigits?, hnumber, Option.bind_eq_bind, Option.bind_some, guard,
      hstarts, if_true]
    rfl
  rcases Bool.eq_false_or_eq_true x.negative with hneg | hneg
  · simp only [x.text_of_negative hneg, extendedYear?, hsix, IsMinusZero, year, hneg, true_and,
      if_true, Option.bind_some]
  · simp only [x.text_of_not_negative hneg, extendedYear?, hsix, IsMinusZero, year, hneg,
      Bool.false_eq_true, false_and, if_false, Option.map_some]

/-- The rule reads no year of another form. -/
theorem exists_of_extendedYear? {r : Int × List Char} (h : extendedYear? cs = some r) :
    ∃ x : ExtendedText, cs = x.text ∧ ¬ x.IsMinusZero := by
  have hsix : ∀ {cs : List Char} {r : Nat × List Char}, extendedYear?.sixDigits? cs = some r →
      ∀ negative : Bool, ∃ x : ExtendedText, x.negative = negative ∧ x.digits ++ x.rest = cs := by
    intro cs r h negative
    obtain ⟨⟨n, rest⟩, hnumber, h⟩ := Option.bind_eq_some_iff.mp h
    obtain ⟨_, hrest, -⟩ := Option.bind_eq_some_iff.mp h
    obtain ⟨digits, rfl, hdigits, hleast, hmost, -⟩ := exists_of_number? hnumber
    rw [Option.guard_eq_some', Bool.or_eq_true, List.isEmpty_iff, beq_iff_eq] at hrest
    exact ⟨⟨negative, digits, rest, hdigits, Nat.le_antisymm hmost hleast, hrest⟩, rfl, rfl⟩
  obtain ⟨x, rfl⟩ : ∃ x : ExtendedText, cs = x.text := by
    unfold extendedYear? at h
    split at h
    · obtain ⟨n, hn, -⟩ := Option.map_eq_some_iff.mp h
      obtain ⟨x, hx, rfl⟩ := hsix hn false
      exact ⟨x, (x.text_of_not_negative hx).symm⟩
    · obtain ⟨n, hn, -⟩ := Option.bind_eq_some_iff.mp h
      obtain ⟨x, hx, rfl⟩ := hsix hn true
      exact ⟨x, (x.text_of_negative hx).symm⟩
    · cases h
  refine ⟨x, rfl, fun hzero => ?_⟩
  rw [x.extendedYear?_text, if_pos hzero] at h
  cases h

/-- The lenient layouts read the year as well, minus zero as zero. -/
theorem year?_text : year? x.text = some (x.year, x.rest) := by
  have hany : anyNumber? (x.digits ++ x.rest) = some (natOfDigits x.digits, x.rest) := by
    refine number?_append ⟨x.isDigit, ?_, ?_, .inr x.noDigitAhead_rest⟩
    · rw [x.length_digits]; decide
    · rw [List.length_append]; exact Nat.le_add_right _ _
  rcases Bool.eq_false_or_eq_true x.negative with hneg | hneg
  · simp only [x.text_of_negative hneg, year?, hany, year, hneg, if_true, Option.map_some]
  · simp only [x.text_of_not_negative hneg, year?, hany, year, hneg, Bool.false_eq_true, if_false,
      Option.map_some]

/-! ## The rule in whole numbers -/

theorem natAbs_year_lt : x.year.natAbs < 1000000 := by
  have h := natOfDigits_lt x.isDigit
  rw [x.length_digits] at h
  unfold year
  split <;> omega

/-- The year in the cycle from 2000 to 2399. -/
def cycleYear : Nat :=
  (x.year - 400 * cyclesTo x.year).toNat

theorem cycleYear_eq : (x.cycleYear : Int) = x.year - 400 * cyclesTo x.year := by
  unfold cycleYear cyclesTo
  omega

theorem cycleYear_bounds : 2000 ≤ x.cycleYear ∧ x.cycleYear < 2400 := by
  have h := x.cycleYear_eq
  unfold cyclesTo at h
  omega

theorem cycleYear_lt : x.cycleYear < 10000 :=
  x.cycleYear_bounds.2.trans (by decide)

/-- The text with the year moved into the cycle from 2000 to 2399. -/
def shifted : List Char :=
  padded 4 x.cycleYear ++ x.rest

/-- Whole numbers of cycles are exact in milliseconds. -/
theorem exact_cycles : Binary64.Exact (cyclesTo x.year * cycleMillis) := by
  have hyear := x.natAbs_year_lt
  have hcycle : cycleMillis.natAbs = 12326934375 * 2 ^ 10 := by decide
  refine ⟨(cyclesTo x.year).natAbs * 12326934375, 10, ?_, ?_, by decide⟩
  · rw [Int.natAbs_mul, hcycle, Nat.mul_assoc]
  · unfold cyclesTo
    omega

/-- **The rule for extended years computes in whole numbers**: moving the milliseconds back
loses none. -/
theorem extendedMillis?_eq (h : ¬ x.IsMinusZero) :
    extendedMillis? x.text = (instant? x.shifted).bind fun t =>
      epochMillis (.ofInt (t.millis + cyclesTo x.year * cycleMillis)) := by
  have hdigits : Nat.toDigits 10 x.cycleYear = padded 4 x.cycleYear :=
    (padded_eq_toDigits (by decide) (x.cycleYear_bounds.1.trans' (by decide))).symm
  rw [extendedMillis?, x.extendedYear?_text, if_neg h]
  change (instant? (Nat.toDigits 10 x.cycleYear ++ x.rest)).bind _ = _
  rw [hdigits]
  -- all operands have at most 53 significant bits; only the sum may be rounded
  refine Option.bind_congr fun t _ => ?_
  have hmillis : Binary64.Exact t.millis :=
    Binary64.exact_of_lt (Nat.lt_of_le_of_lt t.natAbs_millis_le maxMillis_lt)
  have hcycles : Binary64.Exact (cyclesTo x.year) := by
    refine Binary64.exact_of_lt ?_
    have hyear := x.natAbs_year_lt
    unfold cyclesTo
    omega
  rw [Binary64.mul_ofInt hcycles (Binary64.exact_of_lt (by decide)) (by decide),
    Binary64.add_ofInt hmillis x.exact_cycles]

theorem extendedMillis?_of_isMinusZero (h : x.IsMinusZero) : extendedMillis? x.text = none := by
  rw [extendedMillis?, x.extendedYear?_text, if_pos h]
  rfl

end ExtendedText

/-! ## The layouts that read an extended year -/

/-- The lenient layouts. -/
def Layout.lenient : List Layout :=
  withOffset ++ withoutOffset

/-- The lenient layouts start with a year of any form, and have no other. -/
theorem looseYear_of_lenient : ∀ a ∈ Layout.lenient,
    a.head? = some .looseYear ∧ a.tail.all (fun i => !i.isYear) := by
  decide

theorem mem_table_of_lenient : ∀ a ∈ Layout.lenient, a ∈ Layout.table := by
  decide

/-- The other layouts start with a year of four digits. -/
theorem lenient_or_fixedYear : ∀ a ∈ Layout.table,
    a ∈ Layout.lenient ∨ a.head? = some .fixedYear := by
  decide

/-- A message date does not start with a sign. -/
theorem messageDate?_of_sign {c : Char} (hc : c ∈ ['+', '-']) : messageDate? (c :: cs) = none := by
  have hstay : skipBlanks (c :: cs) = c :: cs :=
    skipBlanks_cons_of_not (eq_false_of_mem (by decide) hc) cs
  have hweekday : weekday? (c :: cs) = some (none, c :: cs) :=
    weekday?_of_not_isAlpha (eq_false_of_mem (by decide) hc) cs
  have hday : number? 1 2 (c :: cs) = none :=
    number?_cons_of_not (by decide) (eq_false_of_mem (by decide) hc) cs
  change (weekday? (skipBlanks (c :: cs))).bind _ = none
  rw [hstay, hweekday, Option.bind_some]
  change (number? 1 2 (skipBlanks (c :: cs))).bind _ = none
  rw [hstay, hday, Option.bind_none]

/-- Only the lenient layouts read what starts with a sign. -/
theorem lenient_of_sign {c : Char} (hc : c ∈ ['+', '-']) (h : stamp? (c :: cs) = some st) :
    ∃ a ∈ Layout.lenient, a.stamp? (c :: cs) = some st := by
  rcases exists_alternative_iff.mp (stamp?_eq_some_iff.mp h) with ⟨a, ha, h⟩ | h
  · rcases lenient_or_fixedYear a ha with hlenient | hfixed
    · exact ⟨a, hlenient, h⟩
    · obtain ⟨tail, rfl⟩ := List.head?_eq_some_iff.mp hfixed
      obtain ⟨r, hr, -⟩ := Layout.read_cons h
      have hdigit : c.isDigit := Item.starts_of_read hr
      rw [eq_false_of_mem (p := Char.isDigit) (by decide) hc] at hdigit
      cases hdigit
  · rw [messageDate?_of_sign hc] at h
    cases h

namespace ExtendedText

variable (x : ExtendedText)

theorem sign_mem : x.sign ∈ ['+', '-'] := by
  unfold sign
  split <;> decide

/-- What the layouts read of a text with an extended year, they read of the text with the year
moved, but for the year. -/
theorem stamp?_shifted (h : stamp? x.text = some st) :
    st.year = x.year ∧ stamp? x.shifted = some (st.withYear x.cycleYear) := by
  obtain ⟨a, ha, h⟩ := lenient_of_sign x.sign_mem h
  obtain ⟨hhead, hyearless⟩ := looseYear_of_lenient a ha
  obtain ⟨tail, rfl⟩ := List.head?_eq_some_iff.mp hhead
  obtain ⟨r, hr, hrest⟩ := Layout.read_cons h
  -- the year is the only thing that the two texts differ in
  have hyear : Item.looseYear.read {} x.text = some (Stamp.withYear {} x.year, x.rest) := by
    have hstay : skipBlanks x.text = x.text :=
      skipBlanks_cons_of_not (eq_false_of_mem (by decide) x.sign_mem) _
    simp only [Item.read, hstay, x.year?_text, Option.map_some]
    rfl
  have hcycle : Item.looseYear.read {} x.shifted =
      some (Stamp.withYear {} x.cycleYear, x.rest) := by
    refine Item.read_looseYear ?_
    have hfour : number? 4 4 (padded 4 x.cycleYear ++ x.rest) = some (x.cycleYear, x.rest) :=
      number?_padded (by decide) x.cycleYear_lt x.rest
    simp only [Item.read, shifted, hfour, Option.map_some]
    rfl
  obtain rfl := Option.some.inj (hyear.symm.trans hr)
  rw [Layout.read_withYear (a := tail) hyearless] at hrest
  obtain ⟨st', hst', rfl⟩ := Option.map_eq_some_iff.mp hrest
  refine ⟨rfl, stamp?_of_layout (mem_table_of_lenient _ ha) ?_⟩
  rw [Layout.stamp?, Layout.read_cons_of_read hcycle, Layout.read_withYear (a := tail) hyearless,
    hst']
  rfl

/-- **Where both the rule and the layouts have an answer, it is the same.** -/
theorem extendedMillis?_of_instant? (hzero : ¬ x.IsMinusZero) {t : Instant}
    (h : instant? x.text = some t) : extendedMillis? x.text = some (.ofInt t.millis) := by
  rw [instant?_eq_bind] at h
  obtain ⟨st, hst, ht⟩ := Option.bind_eq_some_iff.mp h
  obtain ⟨hyear, hshifted⟩ := x.stamp?_shifted hst
  have hcycle : (x.cycleYear : Int) = st.year + 400 * -cyclesTo x.year := by
    rw [x.cycleYear_eq, hyear]
    ring
  have hbounds := x.cycleYear_bounds
  obtain ⟨t', ht', hmillis⟩ := Stamp.instant?_add_cycles ht (-cyclesTo x.year)
    (by omega) (by omega)
  have hback : t'.millis + cyclesTo x.year * cycleMillis = t.millis := by
    rw [hmillis]
    ring
  rw [x.extendedMillis?_eq hzero, instant?_eq_bind, hshifted, Option.bind_some, hcycle, ht',
    Option.bind_some, hback, epochMillis_ofInt, if_pos t.natAbs_millis_le]

/-- For every other year the layouts have nothing to add. -/
theorem millis?_of_not_isMinusZero (h : ¬ x.IsMinusZero) :
    millis? x.text = extendedMillis? x.text := by
  rw [millis?]
  cases hrule : extendedMillis? x.text with
  | some ms => rfl
  | none =>
    have hnone : instant? x.text = none := by
      by_contra hsome
      obtain ⟨t, ht⟩ := Option.ne_none_iff_exists'.mp hsome
      rw [x.extendedMillis?_of_instant? h ht] at hrule
      cases hrule
    simp only [hnone, Option.bind_none]

/-- For the year minus zero only the layouts have an answer. -/
theorem millis?_of_isMinusZero (h : x.IsMinusZero) :
    millis? x.text = (instant? x.text).map fun t => .ofInt t.millis := by
  rw [millis?, x.extendedMillis?_of_isMinusZero h]
  change (instant? x.text).bind _ = _
  cases instant? x.text with
  | none => rfl
  | some t =>
    rw [Option.bind_some, epochMillis_ofInt, if_pos t.natAbs_millis_le]
    rfl

/-- **The rule and the layouts agree on all texts with extended years but those of the year
minus zero that a layout reads.** These are read as dates of the year zero, although the rule
has refused them. -/
theorem rule_agrees_iff :
    ((∀ t, instant? x.text = some t → extendedMillis? x.text = some (.ofInt t.millis)) ↔
      (x.IsMinusZero → instant? x.text = none)) ∧
    (x.IsMinusZero → extendedMillis? x.text = none ∧
      millis? x.text = (instant? x.text).map fun t => .ofInt t.millis) := by
  refine ⟨⟨fun hagree hzero => ?_, fun hzero t ht => ?_⟩, fun hzero =>
    ⟨x.extendedMillis?_of_isMinusZero hzero, x.millis?_of_isMinusZero hzero⟩⟩
  · cases ht : instant? x.text with
    | none => rfl
    | some t =>
      have hrule := hagree t ht
      rw [x.extendedMillis?_of_isMinusZero hzero] at hrule
      cases hrule
  · refine x.extendedMillis?_of_instant? (fun hminus => ?_) ht
    rw [hzero hminus] at ht
    cases ht

/-- The start of the year minus zero, with a time of day. -/
def minusZeroMidnight : ExtendedText where
  negative := true
  digits := "000000".toList
  rest := "-01-01T00:00".toList
  isDigit := List.all_eq_true.mp (by decide)
  length_digits := by decide
  rest_starts := by decide

/-- The rule refuses the year minus zero, but a layout without offset reads it. -/
theorem not_rule_agrees_minusZero :
    extendedMillis? minusZeroMidnight.text = none ∧
      (instant? minusZeroMidnight.text).map Instant.millis = some (-62167219200000) ∧
      ¬ ∀ x : ExtendedText, ∀ t, instant? x.text = some t →
        extendedMillis? x.text = some (.ofInt t.millis) := by
  have hread : (instant? minusZeroMidnight.text).map Instant.millis = some (-62167219200000) := by
    decide
  have hnone := minusZeroMidnight.extendedMillis?_of_isMinusZero (by decide)
  refine ⟨hnone, hread, fun h => ?_⟩
  obtain ⟨t, ht, -⟩ := Option.map_eq_some_iff.mp hread
  rw [h _ t ht] at hnone
  cases hnone

end ExtendedText

end DateText

end Conform
