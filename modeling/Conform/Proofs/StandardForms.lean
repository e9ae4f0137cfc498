import Conform.Proofs.LooseTexts

/-!
# Documented forms

A date that starts with its year is documented as a year of four digits, or of a sign and six,
and behind it a month, a day and a time, all of their numbers with two digits.

- `IsStandard`: these forms;
- `LooseText.IsTight`: a loose text without slack;
- `LooseText.isStandard_iff`: **a loose text has a documented form exactly if it has no slack**.
-/

namespace Conform

namespace DateText

open Text

variable {cs rest : List Char}

/-! ## Forms -/

/-- A year of four digits, or of a sign and six; minus zero is such a form as well. -/
def IsYearForm (cs : List Char) : Prop :=
  (∃ y : YearText, cs = y.text) ∨ cs = '-' :: padded 6 0

/-- What may stand behind a year: nothing, a month, a month and a day, or these and a time. -/
inductive IsStandardRest : List Char → Prop where
  | nothing : IsStandardRest []
  | month (month : Fin 100) : IsStandardRest ('-' :: padded 2 month)
  | day (month day : Fin 100) : IsStandardRest ('-' :: (padded 2 month ++ '-' :: padded 2 day))
  | time (x : DateTimeText) : IsStandardRest x.text

/-- A date in a documented form that starts with its year. -/
def IsStandard (cs : List Char) : Prop :=
  ∃ year rest, cs = year ++ rest ∧ IsYearForm year ∧ IsStandardRest rest

/-! ## Loose texts without slack -/

/-- The number has two digits and no blanks. -/
def LooseNumber.IsTight (x : LooseNumber) : Prop :=
  x.blanks = [] ∧ x.digits.length = 2

/-- The year has four digits, or a sign and six, and no blanks. -/
def LooseYear.IsTight (x : LooseYear) : Prop :=
  x.blanks = [] ∧ x.digits.length = if x.sign = none then 4 else 6

/-- The offset has no blanks, and just one colon. -/
def LooseZone.IsTight : LooseZone → Prop
  | offset x => x.blanks = [] ∧ x.gap = [':']
  | _ => True

/-- All numbers have the documented widths, and there are no blanks but one that separates date
and time. -/
structure LooseText.IsTight (x : LooseText) : Prop where
  year : x.year.IsTight
  month : x.month.IsTight
  day : x.day.IsTight
  hour_blanks : x.time.hour.blanks = if x.lettered then [] else [' ']
  hour_digits : x.time.hour.digits.length = 2
  minute : x.time.minute.IsTight
  second : ∀ r ∈ x.time.second, r.1.IsTight
  zone : x.time.zone.IsTight

theorem LooseNumber.exists_padded (x : LooseNumber) (h : x.digits.length = 2) :
    ∃ n : Fin 100, x.digits = padded 2 n := by
  obtain ⟨hlt, hdigits⟩ := eq_padded (by decide) x.isDigit h
  exact ⟨⟨_, hlt⟩, hdigits⟩

theorem LooseNumber.IsTight.exists_padded {x : LooseNumber} (h : x.IsTight) :
    ∃ n : Fin 100, x.text = padded 2 n := by
  obtain ⟨n, hn⟩ := x.exists_padded h.2
  refine ⟨n, ?_⟩
  rw [text, h.1, hn, List.nil_append]

/-- A sign and six digits are a year. -/
theorem isYearForm_six {c : Char} (hc : c ∈ ['+', '-']) {ds : List Char}
    (hds : ∀ d ∈ ds, d.isDigit) (hlen : ds.length = 6) : IsYearForm (c :: ds) := by
  obtain ⟨hlt, hpadded⟩ := eq_padded (by decide) hds hlen
  simp only [List.mem_cons, List.not_mem_nil, or_false] at hc
  rw [hpadded]
  rcases hc with rfl | rfl
  · exact .inl ⟨.six false ⟨_, hlt⟩ (fun h => nomatch h.1), rfl⟩
  · by_cases hzero : natOfDigits ds = 0
    · rw [hzero]
      exact .inr rfl
    · exact .inl ⟨.six true ⟨_, hlt⟩ (fun h => hzero h.2), rfl⟩

theorem LooseYear.IsTight.isYearForm {x : LooseYear} (h : x.IsTight) : IsYearForm x.text := by
  obtain ⟨hblanks, hlen⟩ := h
  rw [text, hblanks, List.nil_append]
  cases hsign : x.sign with
  | none =>
    rw [if_pos hsign] at hlen
    obtain ⟨hlt, hdigits⟩ := eq_padded (by decide) x.isDigit hlen
    rw [hdigits]
    exact .inl ⟨.four ⟨_, hlt⟩, rfl⟩
  | some c =>
    rw [if_neg (by rw [hsign]; exact Option.some_ne_none c)] at hlen
    exact isYearForm_six (x.sign_mem c hsign) x.isDigit hlen

theorem LooseZone.IsTight.exists_zoneText {x : LooseZone} (h : x.IsTight) :
    ∃ z : ZoneText, x.text = z.text := by
  cases x with
  | absent => exact ⟨.absent, rfl⟩
  | letter => exact ⟨.upper, rfl⟩
  | offset x =>
    refine ⟨.offset x.sign x.hours (x.minutes.castLE (by decide)), ?_⟩
    show x.text = _
    rw [LooseOffset.text, h.1, h.2]
    rfl

/-- **Without slack a loose form is a documented one.** -/
theorem LooseText.IsTight.isStandard {x : LooseText} (h : x.IsTight) : IsStandard x.text := by
  obtain ⟨month, hmonth⟩ := h.month.exists_padded
  obtain ⟨day, hday⟩ := h.day.exists_padded
  obtain ⟨hour, hhour⟩ := x.time.hour.exists_padded h.hour_digits
  obtain ⟨minute, hminute⟩ := h.minute.exists_padded
  obtain ⟨zone, hzone⟩ := h.zone.exists_zoneText
  obtain ⟨second, hsecond⟩ : ∃ second, LooseTime.secondText x.time.second = secondText second := by
    cases hsecond : x.time.second with
    | none => exact ⟨none, rfl⟩
    | some r =>
      obtain ⟨n, hn⟩ := (h.second r hsecond).exists_padded
      refine ⟨some (n, r.2), ?_⟩
      show ':' :: (r.1.text ++ fractionText r.2) = _
      rw [hn]
      rfl
  let standard : DateTimeText :=
    ⟨month, day, if x.lettered then .upper else .space, hour, minute, second, zone⟩
  have hseparator : x.separator ++ x.time.hour.blanks =
      [(if x.lettered then Separator.upper else .space).char] := by
    rw [separator, h.hour_blanks]
    cases x.lettered <;> rfl
  have htext : x.text = x.year.text ++ standard.text := by
    rw [text, hmonth, hday, LooseTime.text, LooseNumber.text, hhour, hminute, hsecond, hzone,
      List.append_assoc, ← List.append_assoc x.separator, hseparator]
    rfl
  exact ⟨_, _, htext, h.year.isYearForm, .time standard⟩

/-! ## Only one way to take a loose text apart -/

namespace LooseNumber

/-- A number of two digits. -/
def ofFin (blanks : List Char) (h : ∀ c ∈ blanks, Text.isBlank c) (n : Fin 100) :
    LooseNumber where
  blanks := blanks
  digits := padded 2 n
  isBlank := h
  isDigit _ := isDigit_of_mem_padded
  length_pos := by rw [length_padded (by decide) n.isLt]; decide
  length_le := (length_padded (by decide) n.isLt).le

variable {x : LooseNumber} {rest' : List Char}

theorem takeWhile_text (x : LooseNumber) : x.text.takeWhile Text.isBlank = x.blanks := by
  obtain ⟨d, ds, hdigits, hd⟩ := exists_digit_cons x.length_pos x.isDigit
  rw [text, List.takeWhile_append_of_pos x.isBlank, hdigits, List.takeWhile_cons,
    isBlank_of_isDigit hd]
  exact List.append_nil _

/-- The same text has the same blanks and as many digits. -/
theorem eq_of_append_eq {y : LooseNumber} (hx : x.EndsBefore rest) (hy : y.EndsBefore rest')
    (h : x.text ++ rest = y.text ++ rest') :
    x.blanks = y.blanks ∧ x.digits = y.digits ∧ rest = rest' := by
  obtain ⟨htext, hrest⟩ := Item.Takes.unique (i := .loose .day) ⟨x, rfl, hx⟩ ⟨y, rfl, hy⟩ h
  have hblanks : x.blanks = y.blanks := by rw [← x.takeWhile_text, htext, y.takeWhile_text]
  rw [text, text, hblanks] at htext
  exact ⟨hblanks, List.append_cancel_left htext, hrest⟩

/-- A number that stands where one of two digits does is that number. -/
theorem eq_of_append_padded (blanks : List Char) (hblanks : ∀ c ∈ blanks, Text.isBlank c)
    {n : Fin 100} (hx : x.EndsBefore rest)
    (h : x.text ++ rest = blanks ++ (padded 2 n ++ rest')) :
    x.blanks = blanks ∧ x.digits.length = 2 ∧ rest = rest' := by
  have hlen : (padded 2 n.val).length = 2 := length_padded (by decide) n.isLt
  have htext : (ofFin blanks hblanks n).text ++ rest' = blanks ++ (padded 2 n ++ rest') :=
    List.append_assoc ..
  obtain ⟨hx', hdigits, hrest⟩ := eq_of_append_eq hx (.inl hlen) (h.trans htext.symm)
  exact ⟨hx', by rw [hdigits]; exact hlen, hrest⟩

theorem isTight_of_append_padded {n : Fin 100} (hx : x.EndsBefore rest)
    (h : x.text ++ rest = padded 2 n ++ rest') : x.IsTight ∧ rest = rest' := by
  obtain ⟨hblanks, hlen, hrest⟩ := eq_of_append_padded [] (List.forall_mem_nil _) hx h
  exact ⟨⟨hblanks, hlen⟩, hrest⟩

end LooseNumber

theorem LooseZone.isTight_of_text_eq {x : LooseZone} {z : ZoneText} (h : x.text = z.text) :
    x.IsTight := by
  cases x with
  | absent => trivial
  | letter => trivial
  | offset x =>
    have htwo : ∀ n : Fin 100, (padded 2 n.val).length = 2 := fun n =>
      length_padded (by decide) n.isLt
    have hminutes : (padded 2 x.minutes.val).length = 2 :=
      length_padded (by decide) (x.minutes.isLt.trans (by decide))
    change x.text = z.text at h
    have hlen := congrArg List.length h
    simp only [LooseOffset.text, List.length_append, List.length_cons, htwo, hminutes] at hlen
    cases z with
    | absent => cases hlen
    | upper =>
      change _ = 1 at hlen
      omega
    | lower =>
      change _ = 1 at hlen
      omega
    | offset sign hours minutes =>
      rw [LooseOffset.text] at h
      have hblanks : x.blanks = [] := by
        cases hcons : x.blanks with
        | nil => rfl
        | cons c cs =>
          rw [hcons] at h
          have hc : isBlank c := x.isBlank c (by rw [hcons]; exact List.mem_cons_self)
          rw [(List.cons.inj h).1] at hc
          cases sign <;> exact absurd hc (by decide)
      rw [hblanks] at h
      have hbehind := List.append_inj_right (List.cons.inj h).2 (by rw [htwo, htwo])
      have hgap : x.gap ++ padded 2 x.minutes = [':'] ++ padded 2 minutes := hbehind
      exact ⟨hblanks, List.append_inj_left' hgap (by rw [htwo, hminutes])⟩

namespace LooseYear

theorem takeWhile_text (x : LooseYear) : x.text.takeWhile Text.isBlank = x.blanks := by
  rw [text, List.takeWhile_append_of_pos x.isBlank]
  cases hsign : x.sign with
  | none =>
    obtain ⟨d, ds, hdigits, hd⟩ := exists_digit_cons x.length_pos x.isDigit
    rw [hdigits, Option.toList_none, List.nil_append, List.takeWhile_cons, isBlank_of_isDigit hd]
    exact List.append_nil _
  | some c =>
    have hc : Text.isBlank c = false := eq_false_of_mem (by decide) (x.sign_mem c hsign)
    rw [Option.toList_some, List.cons_append, List.takeWhile_cons, hc]
    exact List.append_nil _

/-- A year of four digits. -/
def ofFin (n : Fin 10000) : LooseYear where
  blanks := []
  sign := none
  digits := padded 4 n
  isBlank := List.forall_mem_nil _
  sign_mem c hc := absurd hc (Option.not_mem_none c)
  isDigit _ := isDigit_of_mem_padded
  length_pos := by rw [length_padded (by decide) n.isLt]; decide
  length_le _ := (length_padded (by decide) n.isLt).le

/-- A sign and six digits are a year without slack. -/
theorem exists_of_sign {c : Char} (hc : c ∈ ['+', '-']) {ds : List Char}
    (hds : ∀ d ∈ ds, d.isDigit) (hlen : ds.length = 6) :
    ∃ y : LooseYear, y.IsTight ∧ y.text = c :: ds := by
  let y : LooseYear :=
    { blanks := []
      sign := some c
      digits := ds
      isBlank := List.forall_mem_nil _
      sign_mem := fun _ hd => Option.some.inj hd ▸ hc
      isDigit := hds
      length_pos := by rw [hlen]; decide
      length_le := fun h => absurd h (Option.some_ne_none c) }
  exact ⟨y, ⟨rfl, hlen⟩, rfl⟩

/-- The year of a documented form is a loose one without slack. -/
theorem exists_of_isYearForm {year : List Char} (h : IsYearForm year) :
    ∃ y : LooseYear, y.IsTight ∧ y.text = year := by
  have hsix : ∀ {c : Char}, c ∈ ['+', '-'] → ∀ n : Fin 1000000,
      ∃ y : LooseYear, y.IsTight ∧ y.text = c :: padded 6 n := fun hc n =>
    exists_of_sign hc (fun _ => isDigit_of_mem_padded) (length_padded (by decide) n.isLt)
  rcases h with ⟨y, rfl⟩ | rfl
  · cases y with
    | four year => exact ⟨ofFin year, ⟨rfl, length_padded (by decide) year.isLt⟩, rfl⟩
    | six negative year ne =>
      have hsign : (if negative then '-' else '+') ∈ ['+', '-'] := by
        cases negative <;> decide
      exact hsix hsign year
  · exact hsix (by decide) 0

/-- The same text has the same parts. -/
theorem isTight_of_text_eq {x y : LooseYear} (h : x.text = y.text) (hy : y.IsTight) :
    x.IsTight := by
  have hblanks : x.blanks = y.blanks := by rw [← x.takeWhile_text, h, y.takeWhile_text]
  rw [text, text, hblanks] at h
  have hrest := List.append_cancel_left h
  -- a sign is no digit
  have hdigit : ∀ (z : LooseYear) {c : Char} {cs : List Char}, c ∈ ['+', '-'] →
      z.digits ≠ c :: cs := by
    intro z c cs hc heq
    have hd := z.isDigit c (by rw [heq]; exact List.mem_cons_self)
    rw [eq_false_of_mem (p := Char.isDigit) (by decide) hc] at hd
    cases hd
  refine ⟨hblanks.trans hy.1, ?_⟩
  have hlen := hy.2
  cases hx : x.sign with
  | none =>
    cases hy' : y.sign with
    | none =>
      rw [hx, hy'] at hrest
      rw [hy'] at hlen
      exact (congrArg List.length hrest).trans hlen
    | some c =>
      rw [hx, hy'] at hrest
      exact absurd hrest (hdigit x (y.sign_mem c hy'))
  | some c =>
    cases hy' : y.sign with
    | none =>
      rw [hx, hy'] at hrest
      exact absurd hrest.symm (hdigit y (x.sign_mem c hx))
    | some d =>
      rw [hx, hy'] at hrest
      rw [hy'] at hlen
      exact (congrArg List.length (List.cons.inj hrest).2).trans hlen

theorem isTight_of_append_eq {x : LooseYear} {year rest' : List Char} (hyear : IsYearForm year)
    (hx : NoDigitAhead rest) (hy : NoDigitAhead rest') (h : x.text ++ rest = year ++ rest') :
    x.IsTight ∧ rest = rest' := by
  obtain ⟨y, htight, rfl⟩ := exists_of_isYearForm hyear
  obtain ⟨htext, hrest⟩ :=
    Item.Takes.unique (i := .looseYear) ⟨x, rfl, .inr hx⟩ ⟨y, rfl, .inr hy⟩ h
  exact ⟨isTight_of_text_eq htext htight, hrest⟩

end LooseYear

namespace LooseTime

variable {x : LooseTime}

/-- Where a documented time has a second, or none, so has a loose one with the same text. -/
theorem isTight_of_secondText_eq {second : Option (Fin 100 × List (Fin 10))} {zone : ZoneText}
    (h : secondText x.second ++ x.zone.text = DateText.secondText second ++ zone.text) :
    (∀ r ∈ x.second, r.1.IsTight) ∧ x.zone.IsTight := by
  cases hx : x.second with
  | none =>
    cases second with
    | none =>
      rw [hx] at h
      exact ⟨nofun, LooseZone.isTight_of_text_eq h⟩
    | some r =>
      rw [hx] at h
      have hcolon := x.zone.head_mem (congrArg List.head? h)
      exact absurd hcolon (by decide)
  | some r =>
    cases second with
    | none =>
      rw [hx] at h
      have hcolon := zone.head_mem (congrArg List.head? h.symm)
      exact absurd hcolon (by decide)
    | some r' =>
      rw [hx] at h
      simp only [secondText, DateText.secondText, List.cons_append, List.append_assoc,
        List.cons.injEq, true_and] at h
      obtain ⟨hsecond, hfraction⟩ := LooseNumber.isTight_of_append_padded
        (.inr (noDigitAhead_fractionText x.zone.noDigitAhead_text r.2)) h
      obtain ⟨-, hzone⟩ := Item.Takes.unique (i := .fraction)
        ⟨r.2, rfl, fractionEndsBefore x.zone.noDigitAhead_text x.zone.head?_text_ne_point r.2⟩
        ⟨r'.2, rfl, fractionEndsBefore zone.noDigitAhead_text zone.head?_text_ne_point r'.2⟩
        hfraction
      refine ⟨fun q hq => ?_, LooseZone.isTight_of_text_eq hzone⟩
      obtain rfl := Option.some.inj hq
      exact hsecond

/-- Behind the minute there is no digit. -/
theorem noDigitAhead_secondText (x : LooseTime) :
    NoDigitAhead (secondText x.second ++ x.zone.text) := by
  cases x.second with
  | none => exact x.zone.noDigitAhead_text
  | some r => exact noDigitAhead_cons rfl _

theorem isTight_of_text_eq {y : DateTimeText} (blanks : List Char)
    (hblanks : ∀ c ∈ blanks, isBlank c) (h : x.text = blanks ++ y.timeText) :
    (x.hour.blanks = blanks ∧ x.hour.digits.length = 2) ∧ x.minute.IsTight ∧
      (∀ r ∈ x.second, r.1.IsTight) ∧ x.zone.IsTight := by
  obtain ⟨hhour, hlen, hrest⟩ :=
    LooseNumber.eq_of_append_padded blanks hblanks (.inr (noDigitAhead_cons rfl _)) h
  obtain ⟨hminute, hrest⟩ := LooseNumber.isTight_of_append_padded
    (.inr x.noDigitAhead_secondText) (List.cons.inj hrest).2
  exact ⟨⟨hhour, hlen⟩, hminute, isTight_of_secondText_eq hrest⟩

/-- A time starts with a blank or a digit. -/
theorem starts_text {c : Char} (h : x.text = c :: cs) :
    Item.starts c (.loose .hour) := by
  have htakes : (Item.loose .hour).Takes x.hour.text
      (':' :: (x.minute.text ++ (secondText x.second ++ x.zone.text))) :=
    ⟨x.hour, rfl, .inr (noDigitAhead_cons rfl _)⟩
  obtain ⟨s, hs⟩ := (Item.exists_read_iff (s := {})).mpr ⟨_, h.symm, htakes⟩
  exact Item.starts_of_read hs

end LooseTime

/-- **A loose form is a documented one exactly if it has no slack.** -/
theorem LooseText.isStandard_iff {x : LooseText} : IsStandard x.text ↔ x.IsTight := by
  refine ⟨?_, IsTight.isStandard⟩
  rintro ⟨year, rest, htext, hyear, hrest⟩
  have hahead : NoDigitAhead rest := by
    cases hrest with
    | nothing => exact noDigitAhead_nil
    | month m => exact noDigitAhead_cons rfl _
    | day m d => exact noDigitAhead_cons rfl _
    | time y => exact noDigitAhead_cons rfl _
  obtain ⟨hy, hbehind⟩ :=
    LooseYear.isTight_of_append_eq hyear (noDigitAhead_cons rfl _) hahead htext
  have hmonth : ∀ cs, x.month.EndsBefore ('-' :: cs) := fun cs => .inr (noDigitAhead_cons rfl cs)
  have hday : x.day.EndsBefore (x.separator ++ x.time.text) := by
    have hapart := x.apart
    rw [separator]
    cases hlettered : x.lettered with
    | true => exact .inr (noDigitAhead_cons rfl _)
    | false =>
      rw [hlettered] at hapart
      exact (hapart.resolve_left Bool.false_ne_true).imp_right x.time.noDigitAhead_text_iff.mpr
  cases hrest with
  | nothing => cases hbehind
  | month m =>
    obtain ⟨-, hnil⟩ := LooseNumber.isTight_of_append_padded (hmonth _)
      ((List.cons.inj hbehind).2.trans (List.append_nil _).symm)
    cases hnil
  | day m d =>
    obtain ⟨-, hcons⟩ := LooseNumber.isTight_of_append_padded (hmonth _) (List.cons.inj hbehind).2
    obtain ⟨-, hnil⟩ := LooseNumber.isTight_of_append_padded hday
      ((List.cons.inj hcons).2.trans (List.append_nil _).symm)
    simp [LooseTime.text] at hnil
  | time y =>
    obtain ⟨hm, hcons⟩ := LooseNumber.isTight_of_append_padded (hmonth _) (List.cons.inj hbehind).2
    obtain ⟨hd, htime⟩ := LooseNumber.isTight_of_append_padded hday (List.cons.inj hcons).2
    obtain ⟨⟨hblanks, hlen⟩, hminute, hsecond, hzone⟩ :
        (x.time.hour.blanks = (if x.lettered then [] else [' ']) ∧
          x.time.hour.digits.length = 2) ∧ x.time.minute.IsTight ∧
          (∀ r ∈ x.time.second, r.1.IsTight) ∧ x.time.zone.IsTight := by
      rw [separator] at htime
      cases hlettered : x.lettered with
      | true =>
        rw [hlettered] at htime
        exact LooseTime.isTight_of_text_eq [] (List.forall_mem_nil _)
          (List.cons.inj htime).2
      | false =>
        rw [hlettered] at htime
        have hstarts := LooseTime.starts_text htime
        cases hsep : y.separator with
        | upper => rw [hsep] at hstarts; cases hstarts
        | lower => rw [hsep] at hstarts; cases hstarts
        | space =>
          rw [hsep] at htime
          have hblank : isBlank ' ' := by decide
          exact LooseTime.isTight_of_text_eq [' '] (List.forall_mem_singleton.mpr hblank) htime
    exact ⟨hy, hm, hd, hblanks, hlen, hminute, hsecond, hzone⟩

end DateText

end Conform
