import Conform.Proofs.LayoutTexts

/-!
# Loose dates and times

What the lenient layouts read: dates and times whose numbers may be short and have blanks before
them, with years of any width behind a sign.

- `LooseText`: such a date and time, part by part;
- `exists_lenient_iff_looseText`: **the lenient layouts read these texts and no others**.
-/

namespace Conform

namespace DateText

open Text

variable {cs rest : List Char}

/-! ## Texts -/

/-- The zone of a loose time. -/
inductive LooseZone where
  | absent
  | letter
  | offset (x : LooseOffset)

def LooseZone.text : LooseZone → List Char
  | absent => []
  | letter => ['Z']
  | offset x => x.text

/-- A time whose numbers may be short and have blanks before them. -/
structure LooseTime where
  hour : LooseNumber
  minute : LooseNumber
  /-- the second and the digits of its fraction, if they are not left out -/
  second : Option (LooseNumber × List (Fin 10))
  zone : LooseZone

namespace LooseTime

/-- The second and its fraction, or nothing. -/
def secondText : Option (LooseNumber × List (Fin 10)) → List Char
  | none => []
  | some (second, fraction) => ':' :: (second.text ++ fractionText fraction)

def text (x : LooseTime) : List Char :=
  x.hour.text ++ ':' :: (x.minute.text ++ (secondText x.second ++ x.zone.text))

end LooseTime

/-- A date and time whose numbers may be short and have blanks before them. Between date and
time stands a `T`, or nothing but what keeps the day from the hour. -/
structure LooseText where
  year : LooseYear
  month : LooseNumber
  day : LooseNumber
  lettered : Bool
  time : LooseTime
  letter : time.zone = .letter → lettered ∧ time.second = none
  apart : lettered ∨ day.digits.length = 2 ∨ time.hour.blanks ≠ []

namespace LooseText

def separator (x : LooseText) : List Char :=
  if x.lettered then ['T'] else []

def text (x : LooseText) : List Char :=
  x.year.text ++ '-' :: (x.month.text ++ '-' :: (x.day.text ++ (x.separator ++ x.time.text)))

end LooseText

/-! What stands behind the minute starts with no digit. -/

theorem LooseZone.head_mem (z : LooseZone) {c : Char} (hc : z.text.head? = some c) :
    isBlank c ∨ c ∈ 'Z' :: signs := by
  cases z with
  | absent => cases hc
  | letter =>
    obtain rfl := Option.some.inj hc
    exact .inr (by decide)
  | offset x =>
    change x.text.head? = some c at hc
    rw [LooseOffset.text] at hc
    cases hblanks : x.blanks with
    | nil =>
      rw [hblanks] at hc
      obtain rfl := Option.some.inj hc
      exact .inr (by cases x.sign <;> decide)
    | cons d ds =>
      rw [hblanks] at hc
      obtain rfl := Option.some.inj hc
      exact .inl (x.isBlank d (by rw [hblanks]; exact List.mem_cons_self))

theorem LooseZone.noDigitAhead_text (z : LooseZone) : NoDigitAhead z.text := by
  intro c hc
  rcases z.head_mem hc with hblank | hmem
  · exact isDigit_eq_false_of_isBlank hblank
  · exact eq_false_of_mem (by decide) hmem

theorem LooseZone.head?_text_ne_point (z : LooseZone) : z.text.head? ≠ some '.' := by
  intro hc
  rcases z.head_mem hc with hblank | hmem
  · exact absurd hblank (by decide)
  · exact absurd hmem (by decide)

/-! ## The lenient layouts -/

section Spells

variable {a : Layout}

/-- What is left behind a date has to be read by what the layout has left. -/
theorem spells_looseDate_iff :
    Layout.Spells (Layout.looseDate ++ a) cs ↔
      ∃ (year : LooseYear) (month day : LooseNumber) (rest : _),
        cs = year.text ++ '-' :: (month.text ++ '-' :: (day.text ++ rest)) ∧
          day.EndsBefore rest ∧ a.Spells rest := by
  have hhyphen : ∀ rest, NoDigitAhead ('-' :: rest) := noDigitAhead_cons rfl
  simp only [Layout.looseDate, List.cons_append, List.nil_append, spells_looseYear_iff,
    spells_char_iff, spells_loose_iff]
  constructor
  · rintro ⟨year, _, rfl, -, _, rfl, month, _, rfl, -, _, rfl, day, rest, rfl, hends, h⟩
    exact ⟨year, month, day, rest, rfl, hends, h⟩
  · rintro ⟨year, month, day, rest, rfl, hends, h⟩
    exact ⟨year, _, rfl, .inr (hhyphen _), _, rfl, month, _, rfl, .inr (hhyphen _), _, rfl,
      day, rest, rfl, hends, h⟩

theorem spells_toMinute_iff :
    Layout.Spells (Layout.toMinute ++ a) cs ↔
      ∃ (hour minute : LooseNumber) (rest : _),
        cs = hour.text ++ ':' :: (minute.text ++ rest) ∧ minute.EndsBefore rest ∧
          a.Spells rest := by
  simp only [Layout.toMinute, List.cons_append, List.nil_append, spells_char_iff,
    spells_loose_iff]
  constructor
  · rintro ⟨hour, _, rfl, -, _, rfl, minute, rest, rfl, hends, h⟩
    exact ⟨hour, minute, rest, rfl, hends, h⟩
  · rintro ⟨hour, minute, rest, rfl, hends, h⟩
    exact ⟨hour, _, rfl, .inr (noDigitAhead_cons rfl _), _, rfl, minute, rest, rfl, hends, h⟩

/-- What ends a layout behind the time is its zone. -/
def LooseZone.ends : LooseZone → Layout
  | absent => []
  | letter => [Layout.char 'Z']
  | offset _ => [.looseOffset]

theorem LooseZone.spells_text (z : LooseZone) : z.ends.Spells z.text := by
  cases z with
  | absent => rfl
  | letter => exact spells_char_iff.mpr ⟨_, rfl, rfl⟩
  | offset x => exact ⟨x.text, [], (List.append_nil _).symm, ⟨x, rfl⟩, rfl⟩

theorem LooseZone.ends_mem (z : LooseZone) :
    z.ends ∈ [[], [Layout.char 'Z'], [.looseOffset]] := by
  cases z with
  | absent => exact List.mem_cons_self
  | letter => exact List.mem_cons_of_mem _ List.mem_cons_self
  | offset x => exact List.mem_cons_of_mem _ (List.mem_cons_of_mem _ List.mem_cons_self)

theorem spells_end_iff {a : Layout} (ha : a ∈ [[], [Layout.char 'Z'], [.looseOffset]]) :
    a.Spells cs ↔ ∃ z : LooseZone, z.ends = a ∧ cs = z.text := by
  constructor
  · intro h
    simp only [List.mem_cons, List.not_mem_nil, or_false] at ha
    rcases ha with rfl | rfl | rfl
    · exact ⟨.absent, rfl, h⟩
    · obtain ⟨_, rfl, rfl⟩ := spells_char_iff.mp h
      exact ⟨.letter, rfl, rfl⟩
    · obtain ⟨_, _, rfl, ⟨x, rfl⟩, rfl⟩ := h
      exact ⟨.offset x, rfl, List.append_nil _⟩
  · rintro ⟨z, rfl, rfl⟩
    exact z.spells_text

theorem spells_minute_end_iff {a : Layout} (ha : a ∈ [[], [Layout.char 'Z'], [.looseOffset]]) :
    Layout.Spells (Layout.toMinute ++ a) cs ↔
      ∃ x : LooseTime, x.second = none ∧ x.zone.ends = a ∧ cs = x.text := by
  rw [spells_toMinute_iff]
  constructor
  · rintro ⟨hour, minute, rest, rfl, -, h⟩
    obtain ⟨zone, hzone, rfl⟩ := (spells_end_iff ha).mp h
    exact ⟨⟨hour, minute, none, zone⟩, rfl, hzone, rfl⟩
  · rintro ⟨⟨hour, minute, _, zone⟩, rfl, hzone, rfl⟩
    exact ⟨hour, minute, zone.text, rfl, .inr zone.noDigitAhead_text,
      (spells_end_iff ha).mpr ⟨zone, hzone, rfl⟩⟩

theorem spells_second_end_iff {a : Layout} (ha : a ∈ [[], [Layout.char 'Z'], [.looseOffset]]) :
    Layout.Spells (Layout.toSecond ++ a) cs ↔
      ∃ x : LooseTime, x.second.isSome ∧ x.zone.ends = a ∧ cs = x.text := by
  rw [Layout.toSecond, List.append_assoc, spells_toMinute_iff]
  simp only [List.cons_append, List.nil_append, spells_char_iff, spells_loose_iff,
    spells_fraction_iff]
  constructor
  · rintro ⟨hour, minute, _, rfl, -, _, rfl, second, _, rfl, -, fraction, _, rfl, -, h⟩
    obtain ⟨zone, hzone, rfl⟩ := (spells_end_iff ha).mp h
    refine ⟨⟨hour, minute, some (second, fraction), zone⟩, rfl, hzone, ?_⟩
    simp only [LooseTime.text, LooseTime.secondText, List.cons_append, List.append_assoc]
  · rintro ⟨⟨hour, minute, second, zone⟩, hsecond, hzone, rfl⟩
    obtain ⟨⟨second, fraction⟩, rfl⟩ := Option.isSome_iff_exists.mp hsecond
    refine ⟨hour, minute, _, rfl, .inr (noDigitAhead_cons rfl _), _, rfl, second, _, ?_,
      .inr (noDigitAhead_fractionText zone.noDigitAhead_text fraction), fraction, _, rfl,
      fractionEndsBefore zone.noDigitAhead_text zone.head?_text_ne_point fraction,
      (spells_end_iff ha).mpr ⟨zone, hzone, rfl⟩⟩
    exact List.append_assoc ..

theorem LooseZone.ends_mem_iff {z : LooseZone} : z.ends ∈ [[.looseOffset], []] ↔ z ≠ .letter := by
  cases z with
  | absent => exact iff_of_true (by decide) nofun
  | letter => exact iff_of_false (by decide) fun h => h rfl
  | offset x =>
    have hmem : [Item.looseOffset] ∈ [[.looseOffset], []] := by decide
    exact iff_of_true hmem nofun

theorem exists_times_spells_iff :
    (∃ t ∈ Layout.times, t.Spells cs) ↔ ∃ x : LooseTime, x.zone ≠ .letter ∧ cs = x.text := by
  rw [Layout.exists_mem_times_iff]
  constructor
  · rintro ⟨a, ha, h⟩
    have hmem : a ∈ [[], [Layout.char 'Z'], [.looseOffset]] :=
      (by decide : ∀ a ∈ [[.looseOffset], []], a ∈ [[], [Layout.char 'Z'], [.looseOffset]]) a ha
    rcases h with h | h
    · obtain ⟨x, -, rfl, rfl⟩ := (spells_second_end_iff hmem).mp h
      exact ⟨x, LooseZone.ends_mem_iff.mp ha, rfl⟩
    · obtain ⟨x, -, rfl, rfl⟩ := (spells_minute_end_iff hmem).mp h
      exact ⟨x, LooseZone.ends_mem_iff.mp ha, rfl⟩
  · rintro ⟨x, hx, rfl⟩
    refine ⟨x.zone.ends, LooseZone.ends_mem_iff.mpr hx, ?_⟩
    cases hsecond : x.second with
    | none => exact .inr ((spells_minute_end_iff x.zone.ends_mem).mpr ⟨x, hsecond, rfl, rfl⟩)
    | some r =>
      have hsome : x.second.isSome := by rw [hsecond]; rfl
      exact .inl ((spells_second_end_iff x.zone.ends_mem).mpr ⟨x, hsome, rfl, rfl⟩)

theorem spells_lettered_iff :
    Layout.lettered.Spells cs ↔
      ∃ x : LooseTime, x.second = none ∧ x.zone = .letter ∧ cs = x.text := by
  have hletter : ∀ z : LooseZone, z.ends = [Layout.char 'Z'] ↔ z = .letter := by
    intro z
    cases z <;> simp [LooseZone.ends, Layout.char]
  rw [Layout.lettered, spells_minute_end_iff (by decide)]
  simp only [hletter]

/-- Behind a letter there may be one at the end, too, but only where there is no second. -/
theorem exists_lettered_spells_iff :
    (∃ t ∈ Layout.lettered :: Layout.times, t.Spells cs) ↔
      ∃ x : LooseTime, (x.zone = .letter → x.second = none) ∧ cs = x.text := by
  simp only [List.mem_cons, exists_eq_or_imp, spells_lettered_iff, exists_times_spells_iff]
  constructor
  · rintro (⟨x, hnone, -, rfl⟩ | ⟨x, hzone, rfl⟩)
    · exact ⟨x, fun _ => hnone, rfl⟩
    · exact ⟨x, fun h => absurd h hzone, rfl⟩
  · rintro ⟨x, hx, rfl⟩
    by_cases hzone : x.zone = .letter
    · exact .inl ⟨x, hx hzone, hzone, rfl⟩
    · exact .inr ⟨x, hzone, rfl⟩

/-- The text of a time starts with a digit unless there are blanks before its hour. -/
theorem LooseTime.noDigitAhead_text_iff (x : LooseTime) :
    NoDigitAhead x.text ↔ x.hour.blanks ≠ [] := by
  rw [text, LooseNumber.text]
  cases hblanks : x.hour.blanks with
  | nil =>
    obtain ⟨d, ds, hdigits, hd⟩ := exists_digit_cons x.hour.length_pos x.hour.isDigit
    refine iff_of_false (fun h => ?_) fun h => h rfl
    rw [hdigits] at h
    rw [h d rfl] at hd
    cases hd
  | cons c cs =>
    have hc : isBlank c := x.hour.isBlank c (by rw [hblanks]; exact List.mem_cons_self)
    exact iff_of_true (noDigitAhead_cons (isDigit_eq_false_of_isBlank hc) _) nofun

/-- Blanks between date and time belong to the hour. -/
theorem dropBlanks_of_mem_times : ∀ t ∈ Layout.times,
    (Layout.looseDate ++ .blanks :: t).dropBlanks = Layout.looseDate ++ t := by
  decide

/-- **What the lenient layouts read.** -/
theorem exists_lenient_iff_looseText :
    (∃ a ∈ Layout.lenient, ∃ st, a.stamp? cs = some st) ↔ ∃ x : LooseText, cs = x.text := by
  have hblanks : ∀ t ∈ Layout.times,
      ((∃ st, (Layout.looseDate ++ .blanks :: t).stamp? cs = some st) ↔
        (Layout.looseDate ++ t).Spells cs) := by
    intro t ht
    rw [← dropBlanks_of_mem_times t ht, ← Layout.exists_stamp?_iff]
    simp only [Layout.stamp?, Layout.read_dropBlanks]
  rw [Layout.exists_lenient_iff]
  constructor
  · rintro (⟨t, ht, h⟩ | ⟨t, ht, h⟩)
    · obtain ⟨year, month, day, _, rfl, -, hrest⟩ :=
        spells_looseDate_iff.mp (Layout.exists_stamp?_iff.mp h)
      obtain ⟨_, rfl, htime⟩ := spells_char_iff.mp hrest
      obtain ⟨time, hletter, rfl⟩ := exists_lettered_spells_iff.mp ⟨t, ht, htime⟩
      exact ⟨⟨year, month, day, true, time, fun h => ⟨rfl, hletter h⟩, .inl rfl⟩, rfl⟩
    · obtain ⟨year, month, day, _, rfl, hends, htime⟩ :=
        spells_looseDate_iff.mp ((hblanks t ht).mp h)
      obtain ⟨time, hletter, rfl⟩ := exists_times_spells_iff.mp ⟨t, ht, htime⟩
      refine ⟨⟨year, month, day, false, time, fun h => absurd h hletter, .inr ?_⟩, rfl⟩
      exact hends.imp_right time.noDigitAhead_text_iff.mp
  · rintro ⟨⟨year, month, day, lettered, time, hletter, hapart⟩, rfl⟩
    cases lettered with
    | true =>
      obtain ⟨t, ht, h⟩ := exists_lettered_spells_iff.mpr ⟨time, fun h => (hletter h).2, rfl⟩
      refine .inl ⟨t, ht, Layout.exists_stamp?_iff.mpr (spells_looseDate_iff.mpr
        ⟨year, month, day, _, rfl, .inr (noDigitAhead_cons rfl _), ?_⟩)⟩
      exact spells_char_iff.mpr ⟨_, rfl, h⟩
    | false =>
      have hnone : time.zone ≠ .letter := fun h => Bool.false_ne_true (hletter h).1
      obtain ⟨t, ht, h⟩ := exists_times_spells_iff.mpr ⟨time, hnone, rfl⟩
      refine .inr ⟨t, ht, (hblanks t ht).mpr (spells_looseDate_iff.mpr
        ⟨year, month, day, _, rfl, ?_, h⟩)⟩
      exact (hapart.resolve_left Bool.false_ne_true).imp_right time.noDigitAhead_text_iff.mpr

end Spells

end DateText

end Conform
