import Conform.Proofs.WrittenTimes

/-!
# The spellings of one date and time

Between date and time may stand a `T` or a space, the seconds may be left out, and so may the
zone, which may also be a letter or an offset. The layouts are a table, with a row for each
combination, and the table has gaps.

- `DateTimeText`: a date and time behind a year, in all these spellings;
- `exists_layout_iff`: the date and the separator are read first, and what is left is read by
  the layouts of times;
- `DateTimeText.stamp?_text`: **a spelling is read, field by field, if a layout covers it**;
- `YearText.millis?_eq`: with a year of any form, a text is read as with a year of four digits;
- `spellings_agree`: **all spellings that are covered are read alike**, and the others not at all.
-/

namespace Conform

namespace DateText

open Text

/-! ## Spellings -/

/-- What stands between date and time. -/
inductive Separator where
  | upper
  | lower
  | space
deriving DecidableEq

def Separator.char : Separator → Char
  | upper => 'T'
  | lower => 't'
  | space => ' '

/-- The sign of an offset. There are two characters for minus. -/
inductive OffsetSign where
  | plus
  | hyphen
  | minus
deriving DecidableEq

namespace OffsetSign

def char : OffsetSign → Char
  | plus => '+'
  | hyphen => '-'
  | minus => '\u2212'

/-- Local time is behind Universal Time. -/
def behind : OffsetSign → Bool
  | plus => false
  | _ => true

theorem sign?_char (sign : OffsetSign) (cs : List Char) :
    sign? (sign.char :: cs) = some (sign.behind, cs) := by
  cases sign <;> rfl

theorem exists_of_mem_signs {c : Char} (hc : c ∈ signs) : ∃ sign : OffsetSign, sign.char = c := by
  simp only [signs, List.mem_cons, List.not_mem_nil, or_false] at hc
  rcases hc with rfl | rfl | rfl
  · exact ⟨.plus, rfl⟩
  · exact ⟨.hyphen, rfl⟩
  · exact ⟨.minus, rfl⟩

end OffsetSign

/-- The zone of a time: none, a letter, or an offset in hours and minutes of two digits. -/
inductive ZoneText where
  | absent
  | upper
  | lower
  | offset (sign : OffsetSign) (hours minutes : Fin 100)
deriving DecidableEq

namespace ZoneText

def text : ZoneText → List Char
  | absent => []
  | upper => ['Z']
  | lower => ['z']
  | offset sign hours minutes => sign.char :: (padded 2 hours ++ ':' :: padded 2 minutes)

/-- Minutes by which local time is ahead. -/
def minutesAhead : ZoneText → Int
  | offset sign hours minutes =>
    if sign.behind then -((hours.val : Int) * 60 + minutes.val)
    else (hours.val : Int) * 60 + minutes.val
  | _ => 0

def isOffset : ZoneText → Bool
  | offset .. => true
  | _ => false

/-- The minutes of an offset are less than an hour. -/
def inRange : ZoneText → Bool
  | offset _ _ minutes => minutes.val < 60
  | _ => true

/-- The zone as an offset. -/
def asOffset : ZoneText → ZoneText
  | offset sign hours minutes => offset sign hours minutes
  | _ => offset .plus 0 0

theorem head_mem (z : ZoneText) {c : Char} (hc : z.text.head? = some c) :
    c ∈ 'Z' :: 'z' :: signs := by
  cases z with
  | absent => cases hc
  | upper =>
    obtain rfl := Option.some.inj hc
    decide
  | lower =>
    obtain rfl := Option.some.inj hc
    decide
  | offset sign hours minutes =>
    obtain rfl := Option.some.inj hc
    cases sign <;> decide

theorem noDigitAhead_text (z : ZoneText) : NoDigitAhead z.text :=
  fun _ hc => eq_false_of_mem (by decide) (z.head_mem hc)

theorem head?_text_ne_point (z : ZoneText) : z.text.head? ≠ some '.' :=
  fun hc => absurd (z.head_mem hc) (by decide)

end ZoneText

/-- A fraction; without digits it has no point. -/
def fractionText (fraction : List (Fin 10)) : List Char :=
  if fraction = [] then [] else '.' :: fractionDigits fraction

/-- The second and its fraction, or nothing. -/
def secondText : Option (Fin 100 × List (Fin 10)) → List Char
  | none => []
  | some (second, fraction) => ':' :: (padded 2 second ++ fractionText fraction)

/-- A month, a day and a time as they stand behind a year, with two digits for each field and
any number of digits in the fraction. -/
structure DateTimeText where
  month : Fin 100
  day : Fin 100
  separator : Separator
  hour : Fin 100
  minute : Fin 100
  /-- the second and the digits of its fraction, if they are not left out -/
  second : Option (Fin 100 × List (Fin 10))
  zone : ZoneText

namespace DateTimeText

variable (x : DateTimeText)

/-- What stands behind the separator. -/
def timeText : List Char :=
  padded 2 x.hour ++ ':' :: (padded 2 x.minute ++ (secondText x.second ++ x.zone.text))

def text : List Char :=
  '-' :: (padded 2 x.month ++ '-' :: (padded 2 x.day ++ x.separator.char :: x.timeText))

/-- The second and its fraction; left out, they are the start of the minute. -/
def secondAndFraction : Fin 100 × List (Fin 10) :=
  x.second.getD (0, [])

/-- The same with a `T`, with the second, and with an offset. -/
def canonical : DateTimeText :=
  { x with separator := .upper, second := some x.secondAndFraction, zone := x.zone.asOffset }

/-- The stamp of what is written. -/
def stamp (year : Int) : Stamp where
  year := year
  month := x.month
  day := x.day
  hour := x.hour
  minute := x.minute
  second := x.secondAndFraction.1
  nanos := nanosOfDigits (fractionDigits x.secondAndFraction.2)
  offset := x.zone.minutesAhead

/-- A layout covers the spelling: the internet standard layout where there are second and zone,
and else a lenient one. These have a row for `Z` without second behind a `T`, but none behind a
space. -/
def IsCovered : Prop :=
  (x.second.isSome ∧ x.zone ≠ .absent) ∨
  (x.separator ≠ .lower ∧ (x.zone = .absent ∨ x.zone.isOffset)) ∨
  (x.separator = .upper ∧ x.second = none ∧ x.zone = .upper)

instance : Decidable x.IsCovered :=
  inferInstanceAs (Decidable (_ ∨ _))

/-- With capital letters one form is left out. -/
theorem not_isCovered_iff (hsep : x.separator ≠ .lower) (hzone : x.zone ≠ .lower) :
    ¬ x.IsCovered ↔ x.separator = .space ∧ x.second = none ∧ x.zone = .upper := by
  unfold IsCovered
  cases hz : x.zone with
  | absent => simp [hsep]
  | lower => exact absurd hz hzone
  | offset sign hours minutes => simp [hsep, ZoneText.isOffset]
  | upper =>
    cases hs : x.separator with
    | lower => exact absurd hs hsep
    | upper => simp [ZoneText.isOffset]
    | space => simp [ZoneText.isOffset]

theorem canonical_isCovered : x.canonical.IsCovered := by
  refine .inl ⟨rfl, ?_⟩
  show x.zone.asOffset ≠ .absent
  cases x.zone <;> nofun

theorem canonical_stamp (year : Int) : x.canonical.stamp year = x.stamp year := by
  have hzone : x.zone.asOffset.minutesAhead = x.zone.minutesAhead := by
    cases x.zone <;> rfl
  show { x.stamp year with offset := x.zone.asOffset.minutesAhead } = x.stamp year
  rw [hzone]
  rfl

theorem canonical_inRange : x.canonical.zone.inRange = x.zone.inRange := by
  show x.zone.asOffset.inRange = x.zone.inRange
  cases x.zone <;> rfl

end DateTimeText

/-! ## Dates and separators

The date is read alike by all layouts of dates and times, and the separator sorts them. -/

namespace Layout

/-- What the lenient layouts read behind the separator, be it a letter or blanks. -/
def times : List Layout :=
  [toSecond ++ [.looseOffset], toMinute ++ [.looseOffset], toSecond, toMinute]

/-- What one of them reads only behind a letter. -/
def lettered : Layout :=
  toMinute ++ [char 'Z']

/-- What the internet standard layout reads behind the separator. -/
def internetTime : Layout :=
  [.fixed .hour, char ':', .fixed .minute, char ':', .fixed .second, .fraction, .fixedOffset]

theorem internet_eq :
    internet = calendarDay ++ .oneOf ['T', 't', ' '] :: internetTime := rfl

theorem mem_lenient_iff {a : Layout} :
    a ∈ lenient ↔ a ∈ (lettered :: times).map (fun t => looseDate ++ char 'T' :: t) ++
      times.map fun t => looseDate ++ .blanks :: t := by
  have hsub : ∀ a ∈ lenient, a ∈ (lettered :: times).map (fun t => looseDate ++ char 'T' :: t) ++
      times.map fun t => looseDate ++ .blanks :: t := by decide
  have hsup : ∀ a ∈ (lettered :: times).map (fun t => looseDate ++ char 'T' :: t) ++
      times.map fun t => looseDate ++ .blanks :: t, a ∈ lenient := by decide
  exact ⟨hsub a, hsup a⟩

/-- A lenient layout is a date, a separator and a time. -/
theorem exists_lenient_iff {p : Layout → Prop} :
    (∃ a ∈ lenient, p a) ↔ (∃ t ∈ lettered :: times, p (looseDate ++ char 'T' :: t)) ∨
      ∃ t ∈ times, p (looseDate ++ .blanks :: t) := by
  simp only [mem_lenient_iff, List.mem_append, List.mem_map, or_and_right, exists_or,
    exists_exists_and_eq_and]

theorem exists_table_iff {p : Layout → Prop} :
    (∃ a ∈ table, p a) ↔ p internet ∨ (∃ a ∈ lenient, p a) ∨ ∃ a ∈ calendar, p a := by
  have htable : table = internet :: lenient ++ calendar := rfl
  simp only [htable, List.cons_append, List.mem_cons, List.mem_append, or_and_right, exists_or,
    exists_eq_left]

/-- A time has a second or not, and behind it an offset or nothing. -/
theorem exists_mem_times_iff {p : Layout → Prop} :
    (∃ t ∈ times, p t) ↔ ∃ a ∈ [[.looseOffset], []], p (toSecond ++ a) ∨ p (toMinute ++ a) := by
  have htimes : times = [toSecond ++ [.looseOffset], toMinute ++ [.looseOffset], toSecond ++ [],
    toMinute ++ []] := rfl
  simp only [htimes, List.mem_cons, exists_eq_or_imp, List.not_mem_nil, or_false, exists_eq_left,
    or_assoc]

theorem head?_of_mem_times : ∀ t ∈ times, t.head? = some (.loose .hour) := by
  decide

end Layout

section

variable (s : Stamp) (a : Layout) (rest : List Char)

/-- Numbers of full width are read by the items that ask for less, too. -/
theorem read_looseYear_padded {n : Nat} (hn : n < 10000) :
    Layout.read (.looseYear :: a) s (padded 4 n ++ rest) = a.read (s.withYear n) rest := by
  have hnumber : number? 4 4 (padded 4 n ++ rest) = some (n, rest) :=
    number?_padded (by decide) hn rest
  refine Layout.read_cons_of_read (r := (s.withYear n, rest)) (Item.read_looseYear ?_)
  simp only [Item.read, hnumber, Option.map_some]
  rfl

theorem read_loose_padded (f : Field) {n : Nat} (hn : n < 100) :
    Layout.read (.loose f :: a) s (padded 2 n ++ rest) = a.read (s.set n f) rest := by
  have hnumber : twoDigits? (padded 2 n ++ rest) = some (n, rest) :=
    number?_padded (by decide) hn rest
  refine Layout.read_cons_of_read (r := (s.set n f, rest)) (Item.read_loose ?_)
  simp only [Item.read, hnumber, Option.map_some]

variable {year : Nat} (hyear : year < 10000) (m d : Fin 100)

include hyear

theorem stamp?_looseDate :
    (Layout.looseDate ++ a).stamp?
        (padded 4 year ++ '-' :: (padded 2 m ++ '-' :: (padded 2 d ++ rest))) =
      a.read { year, month := m, day := d } rest := by
  show Layout.read (.looseYear :: Layout.char '-' :: .loose .month :: Layout.char '-' ::
    .loose .day :: a) {} _ = _
  rw [read_looseYear_padded _ _ _ hyear, read_char_cons, read_loose_padded _ _ _ _ m.isLt,
    read_char_cons, read_loose_padded _ _ _ _ d.isLt]
  rfl

theorem stamp?_fixedDate :
    (Layout.calendarDay ++ a).stamp?
        (padded 4 year ++ '-' :: (padded 2 m ++ '-' :: (padded 2 d ++ rest))) =
      a.read { year, month := m, day := d } rest := by
  show Layout.read (.fixedYear :: Layout.char '-' :: .fixed .month :: Layout.char '-' ::
    .fixed .day :: a) {} _ = _
  rw [read_fixedYear_padded _ _ _ hyear, read_char_cons, read_fixed_padded _ _ _ _ m.isLt,
    read_char_cons, read_fixed_padded _ _ _ _ d.isLt]
  rfl

/-- A date with more behind it is no calendar date. -/
theorem stamp?_calendar_of_separator (sep : Separator) :
    ∀ a ∈ Layout.calendar, a.stamp?
      (padded 4 year ++ '-' :: (padded 2 m ++ '-' :: (padded 2 d ++ sep.char :: rest))) = none := by
  intro a ha
  simp only [Layout.calendar, List.mem_cons, List.not_mem_nil, or_false] at ha
  rcases ha with rfl | rfl | rfl
  · rw [Layout.stamp?, Layout.calendarYear, read_fixedYear_padded _ _ _ hyear]
    rfl
  · rw [Layout.stamp?, Layout.calendarMonth, read_fixedYear_padded _ _ _ hyear, read_char_cons,
      read_fixed_padded _ _ _ _ m.isLt]
    rfl
  · rw [← List.append_nil Layout.calendarDay, stamp?_fixedDate _ _ hyear]
    rfl

end

section

variable (s : Stamp) (sep : Separator) (rest : List Char)

theorem read_letter_separator (t : Layout) :
    Layout.read (Layout.char 'T' :: t) s (sep.char :: rest) =
      if sep = .upper then t.read s rest else none := by
  cases sep with
  | upper => exact read_char_cons s t rest 'T'
  | lower => exact Layout.read_of_not_starts rfl
  | space => exact Layout.read_of_not_starts rfl

theorem read_blanks_separator {t : Layout} (ht : t ∈ Layout.times) :
    Layout.read (.blanks :: t) s (sep.char :: rest) =
      if sep = .space then t.read s rest else none := by
  obtain ⟨tail, rfl⟩ := List.head?_eq_some_iff.mp (Layout.head?_of_mem_times t ht)
  -- the hour skips blanks itself
  have hskip : Layout.read (.blanks :: .loose .hour :: tail) s (sep.char :: rest) =
      Layout.read (.loose .hour :: tail) s (sep.char :: rest) :=
    Layout.read_skipBlanks rfl s _
  rw [hskip]
  cases sep with
  | upper => exact Layout.read_of_not_starts rfl
  | lower => exact Layout.read_of_not_starts rfl
  | space =>
    have hblank : isBlank ' ' = true := by decide
    show Layout.read (.loose .hour :: tail) s (' ' :: rest) =
      Layout.read (.loose .hour :: tail) s rest
    rw [← Layout.read_skipBlanks rfl, skipBlanks_cons_of_blank hblank, Layout.read_skipBlanks rfl]

end

/-- **Behind a date and a separator the layouts of times decide**, whatever is left. -/
theorem exists_layout_iff {year : Nat} (hyear : year < 10000) (m d : Fin 100) (sep : Separator)
    (rest : List Char) {st : Stamp} :
    (∃ a ∈ Layout.table, a.stamp? (padded 4 year ++ '-' :: (padded 2 m ++ '-' ::
        (padded 2 d ++ sep.char :: rest))) = some st) ↔
      Layout.internetTime.read { year, month := m, day := d } rest = some st ∨
      (sep = .upper ∧ ∃ t ∈ Layout.lettered :: Layout.times,
        t.read { year, month := m, day := d } rest = some st) ∨
      (sep = .space ∧ ∃ t ∈ Layout.times,
        t.read { year, month := m, day := d } rest = some st) := by
  have hsep : sep.char ∈ ['T', 't', ' '] := by
    cases sep <;> decide
  have hcalendar : ¬ ∃ a ∈ Layout.calendar, a.stamp? (padded 4 year ++ '-' :: (padded 2 m ++
      '-' :: (padded 2 d ++ sep.char :: rest))) = some st := by
    rintro ⟨a, ha, h⟩
    rw [stamp?_calendar_of_separator rest hyear m d sep a ha] at h
    cases h
  rw [Layout.exists_table_iff, Layout.exists_lenient_iff, or_iff_left hcalendar,
    Layout.internet_eq, stamp?_fixedDate _ _ hyear, read_oneOf_cons _ _ _ hsep]
  simp only [stamp?_looseDate _ _ hyear]
  refine or_congr_right (or_congr ?_ ?_)
  · simp only [read_letter_separator, Option.ite_none_right_eq_some]
    constructor
    · rintro ⟨t, ht, hupper, h⟩
      exact ⟨hupper, t, ht, h⟩
    · rintro ⟨hupper, t, ht, h⟩
      exact ⟨t, ht, hupper, h⟩
  · constructor
    · rintro ⟨t, ht, h⟩
      rw [read_blanks_separator _ _ _ ht, Option.ite_none_right_eq_some] at h
      exact ⟨h.1, t, ht, h.2⟩
    · rintro ⟨hspace, t, ht, h⟩
      refine ⟨t, ht, ?_⟩
      rw [read_blanks_separator _ _ _ ht, if_pos hspace]
      exact h

/-! ## Zones

Each end of a layout reads some zones, and then takes the offset that they say. -/

/-- An offset with a colon is read if its minutes are less than an hour. -/
theorem offset?_colon_written {separator : List Char → Option (List Char)} {sign : OffsetSign}
    {hours minutes : Fin 100}
    (hsep : separator (':' :: padded 2 minutes) = some (padded 2 minutes)) :
    offset? separator (sign.char :: (padded 2 hours ++ ':' :: padded 2 minutes)) =
      if minutes.val < 60 then
        some (ZoneText.minutesAhead (.offset sign hours minutes), [])
      else none := by
  have hhours : twoDigits? (padded 2 hours ++ ':' :: padded 2 minutes) =
      some (hours.val, ':' :: padded 2 minutes) :=
    number?_padded (by decide) hours.isLt _
  have hminutes : twoDigits? (padded 2 minutes) = some (minutes.val, []) := by
    rw [← List.append_nil (padded 2 minutes)]
    exact number?_padded (by decide) minutes.isLt []
  simp only [offset?, OffsetSign.sign?_char, hhours, hsep, hminutes, Option.bind_eq_bind,
    Option.bind_some, guard]
  split <;> rfl

theorem colonsAndBlanks_padded (minutes : Fin 100) :
    colonsAndBlanks (':' :: padded 2 minutes) = padded 2 minutes := by
  have hnumber : twoDigits? (padded 2 minutes ++ []) = some (minutes.val, []) :=
    number?_padded (by decide) minutes.isLt []
  obtain ⟨d, ds, hcons, hd⟩ := exists_of_twoDigits? hnumber
  rw [List.append_nil] at hcons
  rw [hcons, colonsAndBlanks_colon_cons hd]

section

variable {s st : Stamp}

/-- An item at the end that reads an offset, reads it if it is in range. -/
theorem read_offset_iff {i : Item} {sign : OffsetSign} {hours minutes : Fin 100}
    (separator : List Char → Option (List Char))
    (hsep : separator (':' :: padded 2 minutes) = some (padded 2 minutes))
    (hitem : i.read s (ZoneText.text (.offset sign hours minutes)) =
      (offset? separator (ZoneText.text (.offset sign hours minutes))).map fun r =>
        ({ s with offset := r.1 }, r.2)) :
    Layout.read [i] s (ZoneText.text (.offset sign hours minutes)) = some st ↔
      ZoneText.inRange (.offset sign hours minutes) ∧
        { s with offset := ZoneText.minutesAhead (.offset sign hours minutes) } = st := by
  have hread := hitem.trans (congrArg (Option.map _) (offset?_colon_written hsep))
  show (i.read s (ZoneText.text (.offset sign hours minutes))).bind _ = some st ↔ _
  rw [hread, ZoneText.inRange, decide_eq_true_iff]
  split
  · next h =>
    rw [and_iff_right h]
    exact Option.some_inj
  · next h => exact iff_of_false nofun fun hrange => h hrange.1

variable (z : ZoneText)

theorem read_nil_zone : Layout.read [] s z.text = some st ↔ z = .absent ∧ s = st := by
  rw [Layout.read_nil_iff]
  cases z <;> simp [ZoneText.text]

/-- What starts with a letter or a sign. -/
theorem read_letter_zone :
    Layout.read [Layout.char 'Z'] s z.text = some st ↔ z = .upper ∧ s = st := by
  rw [Layout.read_char_iff]
  cases z with
  | absent => simp [ZoneText.text]
  | upper => simp [ZoneText.text, Layout.read_nil_iff]
  | lower => simp [ZoneText.text]
  | offset sign hours minutes => cases sign <;> simp [ZoneText.text, OffsetSign.char]

theorem read_looseOffset_zone :
    Layout.read [.looseOffset] s z.text = some st ↔
      (z.isOffset ∧ z.inRange) ∧ { s with offset := z.minutesAhead } = st := by
  cases z with
  | absent =>
    have hnone : Layout.read [.looseOffset] s (ZoneText.text .absent) = none :=
      Layout.read_nil_text rfl
    rw [hnone]
    exact iff_of_false nofun fun h => nomatch h.1.1
  | upper =>
    have hnone : Layout.read [.looseOffset] s (ZoneText.text .upper) = none :=
      Layout.read_of_not_starts rfl
    rw [hnone]
    exact iff_of_false nofun fun h => nomatch h.1.1
  | lower =>
    have hnone : Layout.read [.looseOffset] s (ZoneText.text .lower) = none :=
      Layout.read_of_not_starts rfl
    rw [hnone]
    exact iff_of_false nofun fun h => nomatch h.1.1
  | offset sign hours minutes =>
    have hstay : skipBlanks (ZoneText.text (.offset sign hours minutes)) =
        ZoneText.text (.offset sign hours minutes) :=
      skipBlanks_cons_of_not (by cases sign <;> decide) _
    have hoffset : ZoneText.isOffset (.offset sign hours minutes) = true := rfl
    rw [and_iff_right hoffset]
    refine read_offset_iff (fun cs => some (colonsAndBlanks cs))
      (congrArg some (colonsAndBlanks_padded minutes)) ?_
    simp only [Item.read, hstay]

theorem read_fixedOffset_zone (hs : s.offset = 0) :
    Layout.read [.fixedOffset] s z.text = some st ↔
      (z ≠ .absent ∧ z.inRange) ∧ { s with offset := z.minutesAhead } = st := by
  have hstay : ({ s with offset := 0 } : Stamp) = s := by
    obtain ⟨⟩ := s
    obtain rfl := hs
    rfl
  cases z with
  | absent => exact iff_of_false nofun fun h => h.1.1 rfl
  | upper =>
    have hread : Layout.read [.fixedOffset] s (ZoneText.text .upper) = some s := rfl
    rw [hread, Option.some_inj, and_iff_right ⟨nofun, rfl⟩]
    exact iff_of_eq (congrArg (· = st) hstay.symm)
  | lower =>
    have hread : Layout.read [.fixedOffset] s (ZoneText.text .lower) = some s := rfl
    rw [hread, Option.some_inj, and_iff_right ⟨nofun, rfl⟩]
    exact iff_of_eq (congrArg (· = st) hstay.symm)
  | offset sign hours minutes =>
    rw [and_iff_right (nofun : ZoneText.offset sign hours minutes ≠ .absent)]
    refine read_offset_iff colon? rfl ?_
    cases sign <;> rfl

end

/-! ## Times -/

namespace DateTimeText

variable (x : DateTimeText) (year : Int)

/-- The stamp of the date. -/
def dateStamp : Stamp :=
  { year, month := x.month, day := x.day }

/-- The stamp of the date, the hour and the minute. -/
def minuteStamp : Stamp :=
  { x.dateStamp year with hour := x.hour, minute := x.minute }

/-- The stamp of all that stands before the zone. -/
def localStamp : Stamp :=
  { x.minuteStamp year with
    second := x.secondAndFraction.1
    nanos := nanosOfDigits (fractionDigits x.secondAndFraction.2) }

theorem localStamp_of_second_eq_none (h : x.second = none) :
    x.localStamp year = x.minuteStamp year := by
  rw [localStamp, secondAndFraction, h]
  rfl

theorem read_looseMinute (a : Layout) :
    Layout.read (Layout.toMinute ++ a) (x.dateStamp year) x.timeText =
      a.read (x.minuteStamp year) (secondText x.second ++ x.zone.text) := by
  show Layout.read (.loose .hour :: Layout.char ':' :: .loose .minute :: a) _ _ = _
  rw [timeText, read_loose_padded _ _ _ _ x.hour.isLt, read_char_cons,
    read_loose_padded _ _ _ _ x.minute.isLt]
  rfl

theorem read_fixedMinute (a : Layout) :
    Layout.read (.fixed .hour :: Layout.char ':' :: .fixed .minute :: a) (x.dateStamp year)
        x.timeText =
      a.read (x.minuteStamp year) (secondText x.second ++ x.zone.text) := by
  rw [timeText, read_fixed_padded _ _ _ _ x.hour.isLt, read_char_cons,
    read_fixed_padded _ _ _ _ x.minute.isLt]
  rfl

/-- An end of a layout that has a second needs one in the text. -/
theorem read_second {i : Item} {a : Layout} {st : Stamp}
    (hi : ∀ (n : Fin 100) rest, Layout.read (i :: .fraction :: a) (x.minuteStamp year)
        (padded 2 n ++ rest) =
      Layout.read (.fraction :: a) ((x.minuteStamp year).set n .second) rest) :
    Layout.read (Layout.char ':' :: i :: .fraction :: a) (x.minuteStamp year)
        (secondText x.second ++ x.zone.text) = some st ↔
      x.second.isSome ∧ a.read (x.localStamp year) x.zone.text = some st := by
  cases hsecond : x.second with
  | none =>
    rw [Layout.read_char_iff]
    refine iff_of_false ?_ nofun
    rintro ⟨rest, htext, -⟩
    have hcolon := x.zone.head_mem (congrArg List.head? htext)
    exact absurd hcolon (by decide)
  | some r =>
    obtain ⟨n, fraction⟩ := r
    have hfraction : Item.fraction.read ((x.minuteStamp year).set n .second)
        (fractionText fraction ++ x.zone.text) = some (x.localStamp year, x.zone.text) := by
      rw [localStamp, secondAndFraction, hsecond]
      exact read_fraction rfl fraction x.zone.noDigitAhead_text x.zone.head?_text_ne_point
    rw [secondText, List.cons_append, List.append_assoc, read_char_cons, hi,
      Layout.read_cons_of_read hfraction]
    exact (and_iff_right rfl).symm

/-- An end of a layout that has no second needs a text without one. -/
theorem read_no_second {a : Layout} {st : Stamp} (ha : a.head?.all fun i => !i.starts ':') :
    a.read (x.minuteStamp year) (secondText x.second ++ x.zone.text) = some st ↔
      x.second = none ∧ a.read (x.localStamp year) x.zone.text = some st := by
  cases hsecond : x.second with
  | none =>
    rw [x.localStamp_of_second_eq_none year hsecond]
    exact (and_iff_right rfl).symm
  | some r =>
    refine iff_of_false (fun h => ?_) nofun
    cases a with
    | nil => cases h
    | cons i is =>
      have hcolon : i.starts ':' = false := (Bool.not_eq_true' _).mp ha
      rw [secondText, List.cons_append, Layout.read_of_not_starts hcolon] at h
      cases h

/-- The internet standard layout reads times with a second and a zone. -/
theorem read_internetTime_iff {st : Stamp} :
    Layout.internetTime.read (x.dateStamp year) x.timeText = some st ↔
      x.second.isSome ∧ (x.zone ≠ .absent ∧ x.zone.inRange) ∧ x.stamp year = st := by
  show Layout.read (.fixed .hour :: Layout.char ':' :: .fixed .minute :: Layout.char ':' ::
    .fixed .second :: .fraction :: [.fixedOffset]) _ _ = some st ↔ _
  rw [read_fixedMinute, read_second _ _ fun n rest => read_fixed_padded _ _ rest _ n.isLt,
    read_fixedOffset_zone _ rfl]
  rfl

/-- The letter is read behind the minute only. -/
theorem read_lettered_iff {st : Stamp} :
    Layout.lettered.read (x.dateStamp year) x.timeText = some st ↔
      x.second = none ∧ x.zone = .upper ∧ x.stamp year = st := by
  rw [Layout.lettered, read_looseMinute, read_no_second _ _ (by decide), read_letter_zone]
  refine and_congr_right fun _ => and_congr_right fun hzone => ?_
  rw [localStamp, stamp, hzone]
  rfl

/-- The lenient layouts of times read them with an offset, or without a zone. -/
theorem exists_times_iff {st : Stamp} :
    (∃ t ∈ Layout.times, t.read (x.dateStamp year) x.timeText = some st) ↔
      (x.zone = .absent ∨ x.zone.isOffset ∧ x.zone.inRange) ∧ x.stamp year = st := by
  have hsecond : ∀ a : Layout, Layout.read (Layout.toSecond ++ a) (x.dateStamp year) x.timeText =
      some st ↔ x.second.isSome ∧ a.read (x.localStamp year) x.zone.text = some st := by
    intro a
    rw [Layout.toSecond, List.append_assoc, read_looseMinute]
    exact x.read_second year fun n rest => read_loose_padded _ _ rest _ n.isLt
  have hminute : ∀ a : Layout, (a.head?.all fun i => !i.starts ':') →
      (Layout.read (Layout.toMinute ++ a) (x.dateStamp year) x.timeText = some st ↔
        x.second = none ∧ a.read (x.localStamp year) x.zone.text = some st) := by
    intro a ha
    rw [read_looseMinute]
    exact x.read_no_second year ha
  have hends : (∃ t ∈ Layout.times, t.read (x.dateStamp year) x.timeText = some st) ↔
      Layout.read [.looseOffset] (x.localStamp year) x.zone.text = some st ∨
        Layout.read [] (x.localStamp year) x.zone.text = some st := by
    simp only [Layout.exists_mem_times_iff, List.mem_cons, exists_eq_or_imp, List.not_mem_nil,
      or_false, exists_eq_left, hsecond, hminute [.looseOffset] (by decide),
      hminute [] (by decide)]
    cases x.second <;> simp
  rw [hends, read_looseOffset_zone, read_nil_zone]
  have hnone : x.zone = .absent → x.localStamp year = x.stamp year := by
    intro hzone
    rw [localStamp, stamp, hzone]
    rfl
  constructor
  · rintro (⟨hzone, rfl⟩ | ⟨hzone, rfl⟩)
    · exact ⟨.inr hzone, rfl⟩
    · exact ⟨.inl hzone, (hnone hzone).symm⟩
  · rintro ⟨hzone | hzone, rfl⟩
    · exact .inr ⟨hzone, hnone hzone⟩
    · exact .inl ⟨hzone, rfl⟩

theorem isCovered_inRange_iff :
    x.IsCovered ∧ x.zone.inRange ↔
      (x.second.isSome ∧ x.zone ≠ .absent ∧ x.zone.inRange) ∨
      (x.separator = .upper ∧ x.second = none ∧ x.zone = .upper) ∨
      (x.separator ≠ .lower ∧ (x.zone = .absent ∨ x.zone.isOffset ∧ x.zone.inRange)) := by
  constructor
  · rintro ⟨⟨hsecond, hzone⟩ | ⟨hsep, hzone | hzone⟩ | hletter, hrange⟩
    · exact .inl ⟨hsecond, hzone, hrange⟩
    · exact .inr (.inr ⟨hsep, .inl hzone⟩)
    · exact .inr (.inr ⟨hsep, .inr ⟨hzone, hrange⟩⟩)
    · exact .inr (.inl hletter)
  · rintro (⟨hsecond, hzone, hrange⟩ | hletter | ⟨hsep, hzone | ⟨hzone, hrange⟩⟩)
    · exact ⟨.inl ⟨hsecond, hzone⟩, hrange⟩
    · exact ⟨.inr (.inr hletter), by rw [hletter.2.2]; rfl⟩
    · exact ⟨.inr (.inl ⟨hsep, .inl hzone⟩), by rw [hzone]; rfl⟩
    · exact ⟨.inr (.inl ⟨hsep, .inr hzone⟩), hrange⟩

/-- **A spelling is read, field by field, if a layout covers it**, and not at all else. -/
theorem stamp?_text {year : Nat} (hyear : year < 10000) :
    stamp? (padded 4 year ++ x.text) =
      if x.IsCovered ∧ x.zone.inRange then some (x.stamp year) else none := by
  have hmessage : messageDate? (padded 4 year ++ x.text) = none :=
    messageDate?_of_exactNumber? (exactNumber?_padded (by decide) hyear) _
  have hsep : x.separator ≠ .lower ↔ x.separator = .upper ∨ x.separator = .space := by
    cases x.separator <;> decide
  refine Option.ext fun st => ?_
  rw [Option.ite_none_right_eq_some, isCovered_inRange_iff, hsep, Option.some_inj,
    stamp?_eq_some_iff, exists_alternative_iff, hmessage, or_iff_left nofun, text,
    exists_layout_iff hyear]
  show Layout.internetTime.read (x.dateStamp year) x.timeText = some st ∨
    (_ ∧ ∃ t ∈ Layout.lettered :: Layout.times, t.read (x.dateStamp year) x.timeText = some st) ∨
    (_ ∧ ∃ t ∈ Layout.times, t.read (x.dateStamp year) x.timeText = some st) ↔ _
  simp only [List.mem_cons, exists_eq_or_imp, read_internetTime_iff, read_lettered_iff,
    exists_times_iff]
  constructor
  · rintro (⟨hsecond, hzone, h⟩ | ⟨hupper, ⟨hnone, hzone, h⟩ | ⟨hzone, h⟩⟩ | ⟨hspace, hzone, h⟩)
    · exact ⟨.inl ⟨hsecond, hzone⟩, h⟩
    · exact ⟨.inr (.inl ⟨hupper, hnone, hzone⟩), h⟩
    · exact ⟨.inr (.inr ⟨.inl hupper, hzone⟩), h⟩
    · exact ⟨.inr (.inr ⟨.inr hspace, hzone⟩), h⟩
  · rintro ⟨⟨hsecond, hzone⟩ | ⟨hupper, hnone, hzone⟩ | ⟨hupper | hspace, hzone⟩, h⟩
    · exact .inl ⟨hsecond, hzone, h⟩
    · exact .inr (.inl ⟨hupper, .inl ⟨hnone, hzone, h⟩⟩)
    · exact .inr (.inl ⟨hupper, .inr ⟨hzone, h⟩⟩)
    · exact .inr (.inr ⟨hspace, hzone, h⟩)

end DateTimeText

/-! ## Years of any form -/

namespace YearText

/-- Whole cycles of the calendar from the year of four digits that a text is read with. -/
def cycles : YearText → Int
  | four _ => 0
  | y => cyclesTo y.year

/-- The year of four digits that a text is read with. -/
def readYear (y : YearText) : Nat :=
  (y.year - 400 * y.cycles).toNat

theorem readYear_lt (y : YearText) : y.readYear < 10000 := by
  cases y with
  | four year =>
    have hyear := year.isLt
    simp only [readYear, YearText.year, cycles]
    omega
  | six negative year ne =>
    simp only [readYear, cycles, cyclesTo]
    omega

/-- **With a year of any form a text is read as with a year of four digits**; whole cycles are
added to the milliseconds. -/
theorem millis?_eq (y : YearText) {rest : List Char} (hrest : rest = [] ∨ rest.head? = some '-') :
    millis? (y.text ++ rest) = (instant? (padded 4 y.readYear ++ rest)).bind fun t =>
      epochMillis (.ofInt (t.millis + y.cycles * cycleMillis)) := by
  cases y with
  | four year =>
    have hrule : extendedMillis? (padded 4 year ++ rest) = none := by
      have hpos : 1 ≤ (padded 4 year.val).length := by
        rw [length_padded (by decide) year.isLt]
        decide
      obtain ⟨c, cs, hcons, hc⟩ := exists_digit_cons hpos fun _ => isDigit_of_mem_padded
      rw [hcons]
      exact extendedMillis?_of_isDigit hc _
    have hyear : readYear (four year) = year.val := by
      simp only [readYear, YearText.year, cycles]
      omega
    show millis? (padded 4 year ++ rest) = _
    rw [millis?, hrule, hyear]
    simp only [cycles, Int.zero_mul, Int.add_zero]
  | six negative year ne =>
    let x : ExtendedText :=
      ⟨negative, padded 6 year, rest, fun _ => isDigit_of_mem_padded,
        length_padded (by decide) year.isLt, hrest⟩
    have hvalue : natOfDigits x.digits = year := natOfDigits_padded 6 year
    have hzero : ¬ x.IsMinusZero := by
      rintro ⟨hnegative, hdigits⟩
      exact ne ⟨hnegative, hvalue.symm.trans hdigits⟩
    have hyear : x.year = YearText.year (.six negative year ne) := by
      rw [ExtendedText.year, hvalue]
      rfl
    have htext : YearText.text (.six negative year ne) ++ rest = x.text := rfl
    rw [htext, x.millis?_of_not_isMinusZero hzero, x.extendedMillis?_eq hzero,
      ExtendedText.shifted, ExtendedText.cycleYear, hyear]
    rfl

end YearText

/-- **All spellings of a date and time that are covered are read alike**: as the one with a `T`,
with the second, and with an offset. The others are not read at all, and with capital letters
there is only one such form. -/
theorem spellings_agree (y : YearText) (x : DateTimeText) :
    (millis? (y.text ++ x.text) =
      if x.IsCovered then millis? (y.text ++ x.canonical.text) else none) ∧
    (x.separator ≠ .lower → x.zone ≠ .lower →
      (¬ x.IsCovered ↔ x.separator = .space ∧ x.second = none ∧ x.zone = .upper)) := by
  have hread : ∀ x : DateTimeText, millis? (y.text ++ x.text) =
      (if x.IsCovered ∧ x.zone.inRange then some (x.stamp y.readYear) else none).bind fun st =>
        st.instant?.bind fun t => epochMillis (.ofInt (t.millis + y.cycles * cycleMillis)) := by
    intro x
    rw [y.millis?_eq (.inr rfl), instant?_eq_bind, x.stamp?_text y.readYear_lt, Option.bind_assoc]
  refine ⟨?_, fun hsep hzone => ?_⟩
  · rw [hread x, hread x.canonical, x.canonical_stamp, x.canonical_inRange]
    by_cases hcovered : x.IsCovered
    · simp only [hcovered, x.canonical_isCovered, true_and, if_true]
    · simp only [hcovered, false_and, if_false, Option.bind_none]
  · exact x.not_isCovered_iff hsep hzone

/-- A date and an hour and minute in Universal Time, with a space. -/
def spacedMinute : DateTimeText :=
  ⟨11, 11, .space, 19, 11, none, .upper⟩

/-- Behind a space the letter is not read, behind a `T` it is. -/
theorem not_separators_agree_spacedMinute :
    (YearText.four 2017).text ++ spacedMinute.text = "2017-11-11 19:11Z".toList ∧
      millis? "2017-11-11 19:11Z".toList = none ∧
      millis? "2017-11-11T19:11Z".toList = some (.ofInt 1510427460000) ∧
      ¬ ∀ (y : YearText) (x : DateTimeText), millis? (y.text ++ x.text) =
        millis? (y.text ++ { x with separator := .upper }.text) := by
  have hspace : millis? "2017-11-11 19:11Z".toList = none := by decide +kernel
  have hupper : millis? "2017-11-11T19:11Z".toList = some (.ofInt 1510427460000) := by
    decide +kernel
  have htext : (YearText.four 2017).text ++ spacedMinute.text = "2017-11-11 19:11Z".toList := by
    decide
  have htext' : (YearText.four 2017).text ++ { spacedMinute with separator := .upper }.text =
      "2017-11-11T19:11Z".toList := by decide
  refine ⟨htext, hspace, hupper, fun h => ?_⟩
  have hsame := h (.four 2017) spacedMinute
  rw [htext, htext', hspace, hupper] at hsame
  cases hsame

end DateText

end Conform
