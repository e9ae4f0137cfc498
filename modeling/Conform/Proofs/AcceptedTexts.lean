import Conform.Proofs.StandardForms

/-!
# The texts that are dates

Documented are dates of mail messages and the forms that start with a year. The lenient layouts
read more than that.

- `isStandard_or_loose_of_layout`: what layouts read has a documented form or is loose, also
  with an extended year;
- `message_or_standard_or_loose`: every date is that of a message or one of these;
- `accepted_texts`: **a date is that of a message or has a documented form, unless it is a loose
  text with slack**.
-/

namespace Conform

namespace DateText

open Text

variable {cs : List Char}

/-! ## Layouts -/

/-- Behind the year these layouts read documented forms. -/
theorem isStandardRest_of_spells : ∀ a ∈ Layout.internet :: Layout.calendar,
    a.head? = some .fixedYear ∧ ∀ rest, Layout.Spells a.tail rest → IsStandardRest rest := by
  intro a ha
  simp only [Layout.calendar, List.mem_cons, List.not_mem_nil, or_false] at ha
  rcases ha with rfl | rfl | rfl | rfl
  · refine ⟨rfl, fun rest h => ?_⟩
    simp only [Layout.internet, List.tail_cons, spells_char_iff, spells_fixed_iff] at h
    obtain ⟨_, rfl, month, _, rfl, _, rfl, day, _, rfl, _, _, rfl, ⟨c, hc, rfl⟩, h⟩ := h
    simp only [spells_char_iff, spells_fixed_iff, spells_fraction_iff, spells_fixedOffset_iff] at h
    obtain ⟨hour, _, rfl, _, rfl, minute, _, rfl, _, rfl, second, _, rfl, fraction, _, rfl, -,
      zone, _, rfl, -, rfl⟩ := h
    obtain ⟨separator, rfl⟩ : ∃ separator : Separator, separator.char = c := by
      simp only [List.mem_cons, List.not_mem_nil, or_false] at hc
      rcases hc with rfl | rfl | rfl
      · exact ⟨.upper, rfl⟩
      · exact ⟨.lower, rfl⟩
      · exact ⟨.space, rfl⟩
    have htime := IsStandardRest.time
      ⟨month, day, separator, hour, minute, some (second, fraction), zone⟩
    simpa only [DateTimeText.text, DateTimeText.timeText, secondText, List.append_nil,
      List.append_assoc, List.cons_append, List.nil_append] using htime
  · refine ⟨rfl, fun rest h => ?_⟩
    obtain rfl : rest = [] := h
    exact .nothing
  · refine ⟨rfl, fun rest h => ?_⟩
    simp only [Layout.calendarMonth, List.tail_cons, spells_char_iff, spells_fixed_iff] at h
    obtain ⟨_, rfl, month, _, rfl, rfl⟩ := h
    rw [List.append_nil]
    exact .month month
  · refine ⟨rfl, fun rest h => ?_⟩
    simp only [Layout.calendarDay, List.tail_cons, spells_char_iff, spells_fixed_iff] at h
    obtain ⟨_, rfl, month, _, rfl, _, rfl, day, _, rfl, rfl⟩ := h
    rw [List.append_nil]
    exact .day month day

/-! ## Texts that are dates -/

/-- What any layout reads. -/
theorem isStandard_or_loose_of_layout (h : ∃ a ∈ Layout.table, ∃ st, a.stamp? cs = some st) :
    IsStandard cs ∨ ∃ x : LooseText, cs = x.text := by
  have hfixed : ∀ a ∈ Layout.internet :: Layout.calendar, (∃ st, a.stamp? cs = some st) →
      IsStandard cs := by
    intro a ha hread
    obtain ⟨hhead, htail⟩ := isStandardRest_of_spells a ha
    obtain ⟨tail, rfl⟩ := List.head?_eq_some_iff.mp hhead
    obtain ⟨_, rest, rfl, ⟨year, rfl⟩, hrest⟩ := Layout.exists_stamp?_iff.mp hread
    exact ⟨_, rest, rfl, .inl ⟨.four year, rfl⟩, htail rest hrest⟩
  rcases Layout.exists_table_iff.mp h with h | h | ⟨a, ha, h⟩
  · exact .inl (hfixed _ List.mem_cons_self h)
  · exact .inr (exists_lenient_iff_looseText.mp h)
  · exact .inl (hfixed a (List.mem_cons_of_mem _ ha) h)

namespace ExtendedText

variable (x : ExtendedText)

/-- What any layout reads with the year moved. -/
theorem isStandard_or_loose_of_shifted
    (h : ∃ a ∈ Layout.table, ∃ st, a.stamp? x.shifted = some st) :
    IsStandard x.text ∨ ∃ y : LooseText, x.text = y.text := by
  have hfixed : ∀ a ∈ Layout.internet :: Layout.calendar, (∃ st, a.stamp? x.shifted = some st) →
      IsStandard x.text := by
    intro a ha hread
    obtain ⟨hhead, htail⟩ := isStandardRest_of_spells a ha
    obtain ⟨tail, rfl⟩ := List.head?_eq_some_iff.mp hhead
    simp only [Layout.stamp?, shifted, read_fixedYear_padded _ _ _ x.cycleYear_lt] at hread
    exact ⟨x.sign :: x.digits, x.rest, rfl, isYearForm_six x.sign_mem x.isDigit x.length_digits,
      htail _ (Layout.exists_read_iff.mp hread)⟩
  rcases Layout.exists_table_iff.mp h with h | ⟨a, ha, h⟩ | ⟨a, ha, h⟩
  · exact .inl (hfixed _ List.mem_cons_self h)
  · obtain ⟨tail, rfl⟩ := List.head?_eq_some_iff.mp (looseYear_of_lenient a ha).1
    simp only [Layout.stamp?, shifted, read_looseYear_padded _ _ _ x.cycleYear_lt] at h
    obtain ⟨y, -, hy⟩ := LooseYear.exists_of_sign x.sign_mem x.isDigit x.length_digits
    have htext : x.text = y.text ++ x.rest := by rw [hy]; rfl
    have hspells : Layout.Spells (.looseYear :: tail) x.text :=
      spells_looseYear_iff.mpr ⟨y, x.rest, htext, .inr x.noDigitAhead_rest,
        Layout.exists_read_iff.mp h⟩
    exact .inr (exists_lenient_iff_looseText.mp ⟨_, ha, Layout.exists_stamp?_iff.mpr hspells⟩)
  · exact .inl (hfixed a (List.mem_cons_of_mem _ ha) h)

theorem messageDate?_shifted : messageDate? x.shifted = none :=
  messageDate?_of_exactNumber? (exactNumber?_padded (by decide) x.cycleYear_lt) x.rest

end ExtendedText

/-- What has an instant is read by a layout, or is the date of a message. -/
theorem exists_layout_or_message {t : Instant} (h : instant? cs = some t) :
    (∃ a ∈ Layout.table, ∃ st, a.stamp? cs = some st) ∨
      instantBy? messageDate? cs = some t := by
  rw [instant?_eq_bind] at h
  obtain ⟨st, hst, ht⟩ := Option.bind_eq_some_iff.mp h
  rcases exists_alternative_iff.mp (stamp?_eq_some_iff.mp hst) with ⟨a, ha, hread⟩ | hread
  · exact .inl ⟨a, ha, st, hread⟩
  · exact .inr (Option.bind_eq_some_iff.mpr ⟨st, hread, ht⟩)

/-- Every date is that of a message, or has a documented form, or is a loose text. -/
theorem message_or_standard_or_loose {ms : Binary64} (h : millis? cs = some ms) :
    (∃ t, instantBy? messageDate? cs = some t) ∨ IsStandard cs ∨
      ∃ x : LooseText, cs = x.text := by
  unfold millis? at h
  split at h
  · next hrule =>
    obtain ⟨r, hyear, -⟩ := Option.bind_eq_some_iff.mp hrule
    obtain ⟨x, rfl, hzero⟩ := ExtendedText.exists_of_extendedYear? hyear
    rw [x.extendedMillis?_eq hzero] at hrule
    obtain ⟨t, ht, -⟩ := Option.bind_eq_some_iff.mp hrule
    rcases exists_layout_or_message ht with hread | hmessage
    · exact .inr (x.isStandard_or_loose_of_shifted hread)
    · rw [instantBy?, x.messageDate?_shifted] at hmessage
      cases hmessage
  · obtain ⟨t, ht, -⟩ := Option.bind_eq_some_iff.mp h
    rcases exists_layout_or_message ht with hread | hmessage
    · exact .inr (isStandard_or_loose_of_layout hread)
    · exact .inl ⟨t, hmessage⟩

namespace LooseText

variable (x : LooseText)

/-- Loose texts are all read, whatever their numbers. -/
theorem exists_stamp? : ∃ st, stamp? x.text = some st := by
  obtain ⟨a, ha, st, h⟩ := exists_lenient_iff_looseText.mpr ⟨x, rfl⟩
  exact ⟨st, stamp?_of_layout (mem_table_of_lenient a ha) h⟩

/-- None of them is the date of a message. -/
theorem messageDate?_text : messageDate? x.text = none := by
  obtain ⟨a, ha, st, h⟩ := exists_lenient_iff_looseText.mpr ⟨x, rfl⟩
  exact messageDate?_eq_none_of_layout (mem_table_of_lenient a ha) h

end LooseText

/-- **A date is that of a message or has a documented form, unless it is a loose text with
slack**, and loose texts are all read. -/
theorem accepted_texts (cs : List Char) :
    ((∀ ms, millis? cs = some ms →
        (∃ t, instantBy? messageDate? cs = some t) ∨ IsStandard cs) ↔
      ∀ x : LooseText, cs = x.text → ¬ x.IsTight → millis? cs = none) ∧
    ∀ x : LooseText, cs = x.text → ∃ st, stamp? cs = some st := by
  refine ⟨⟨?_, fun h ms hms => ?_⟩, ?_⟩
  · rintro h x rfl hslack
    by_contra hsome
    obtain ⟨ms, hms⟩ := Option.ne_none_iff_exists'.mp hsome
    rcases h ms hms with ⟨t, ht⟩ | hstandard
    · rw [instantBy?, x.messageDate?_text] at ht
      cases ht
    · exact hslack (x.isStandard_iff.mp hstandard)
  · rcases message_or_standard_or_loose hms with hmessage | hstandard | ⟨x, rfl⟩
    · exact .inl hmessage
    · exact .inr hstandard
    · by_cases htight : x.IsTight
      · exact .inr htight.isStandard
      · rw [h x rfl htight] at hms
        cases hms
  · rintro x rfl
    exact x.exists_stamp?

/-- A day in March and its midnight, with one digit for the month. -/
theorem exists_shortMonth :
    ∃ x : LooseText, x.text = "2017-3-11T00:00".toList ∧ ¬ x.IsTight := by
  let midnight : LooseNumber := .ofFin [] (List.forall_mem_nil _) 0
  let x : LooseText :=
    { year := .ofFin 2017
      month := ⟨[], ['3'], List.forall_mem_nil _, List.forall_mem_singleton.mpr rfl,
        Nat.le_refl 1, Nat.le_succ 1⟩
      day := .ofFin [] (List.forall_mem_nil _) 11
      lettered := true
      time := ⟨midnight, midnight, none, .absent⟩
      letter := fun h => LooseZone.noConfusion h
      apart := .inl rfl }
  have hmonth : x.month.digits.length ≠ 2 := by decide
  exact ⟨x, by decide, fun h => hmonth h.month.2⟩

/-- The month of one digit is read, although it is no documented form. -/
theorem not_isStandard_shortMonth :
    millis? "2017-3-11T00:00".toList = some (.ofInt 1489190400000) ∧
      ¬ ∀ cs ms, millis? cs = some ms →
        (∃ t, instantBy? messageDate? cs = some t) ∨ IsStandard cs := by
  have hread : millis? "2017-3-11T00:00".toList = some (.ofInt 1489190400000) := by decide +kernel
  have hmessage : instantBy? messageDate? "2017-3-11T00:00".toList = none := by decide
  refine ⟨hread, fun h => ?_⟩
  rcases h _ _ hread with ⟨t, ht⟩ | hstandard
  · rw [hmessage] at ht
    cases ht
  · obtain ⟨x, htext, hslack⟩ := exists_shortMonth
    rw [← htext, LooseText.isStandard_iff] at hstandard
    exact hslack hstandard

end DateText

end Conform
