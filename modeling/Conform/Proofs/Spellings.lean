import Conform.Proofs.Alternatives

/-!
# Spellings of dates and times

Dates and times in their standard spellings, and what the readers make of them: a year of four
digits, or of a sign and six; then nothing, a month, a month and a day, or a month, a day and a
time with any number of digits in its fraction, and a zone.

- `YearText`, `Zone`, `TimeOfDay`, `AfterYear`: the spellings;
- `stamp?_written`: **what is written after a year of four digits is read, field by field**.
-/

namespace Conform

namespace DateText

open Text

/-! ## Spellings -/

/-- A year, with four digits, or with a sign and six; but there is no year minus zero. -/
inductive YearText where
  | four (year : Fin 10000)
  | six (negative : Bool) (year : Fin 1000000) (ne : ¬(negative = true ∧ year.val = 0))

namespace YearText

def text : YearText → List Char
  | four year => padded 4 year
  | six negative year _ => (if negative then '-' else '+') :: padded 6 year

def year : YearText → Int
  | four year => year.val
  | six negative year _ => if negative then -(year.val : Int) else year.val

end YearText

/-- A zone: Universal Time, or hours and minutes by which local time is ahead of it or behind. -/
inductive Zone where
  | universal
  | offset (behind : Bool) (hours : Fin 24) (minutes : Fin 60)

namespace Zone

def text : Zone → List Char
  | universal => ['Z']
  | offset behind hours minutes =>
    (if behind then '-' else '+') :: (padded 2 hours ++ ':' :: padded 2 minutes)

/-- Minutes by which local time is ahead. -/
def minutesAhead : Zone → Int
  | universal => 0
  | offset behind hours minutes =>
    if behind then -((hours.val : Int) * 60 + minutes.val) else (hours.val : Int) * 60 + minutes.val

end Zone

/-- The digits of a number's fraction. -/
def fractionDigits (fraction : List (Fin 10)) : List Char :=
  fraction.map fun d => d.val.digitChar

/-- A time of day, with a fraction of a second. -/
structure TimeOfDay where
  hour : Fin 24
  minute : Fin 60
  second : Fin 60
  fraction : List (Fin 10)
  zone : Zone

namespace TimeOfDay

/-- The start of the day, in Universal Time. -/
def midnight : TimeOfDay := ⟨0, 0, 0, [], .universal⟩

/-- A time in its spelling; a fraction without digits has no point. -/
def text (τ : TimeOfDay) : List Char :=
  padded 2 τ.hour ++ ':' :: (padded 2 τ.minute ++ ':' :: (padded 2 τ.second ++
    ((if τ.fraction = [] then [] else '.' :: fractionDigits τ.fraction) ++ τ.zone.text)))

end TimeOfDay

/-- What follows the year. -/
inductive AfterYear where
  | nothing
  | month (month : Fin 100)
  | day (month day : Fin 100)
  | time (month day : Fin 100) (time : TimeOfDay)

namespace AfterYear

def text : AfterYear → List Char
  | nothing => []
  | month m => '-' :: padded 2 m
  | day m d => '-' :: (padded 2 m ++ '-' :: padded 2 d)
  | time m d τ => '-' :: (padded 2 m ++ '-' :: (padded 2 d ++ 'T' :: τ.text))

/-! What is left out is the first month, the first day and midnight. -/

def monthNumber : AfterYear → Nat
  | nothing => 1
  | month m => m
  | day m _ => m
  | time m _ _ => m

def dayNumber : AfterYear → Nat
  | nothing => 1
  | month _ => 1
  | day _ d => d
  | time _ d _ => d

def timeOfDay : AfterYear → TimeOfDay
  | time _ _ τ => τ
  | _ => .midnight

/-- The stamp of what is written. -/
def stamp (r : AfterYear) (year : Int) : Stamp where
  year := year
  month := r.monthNumber
  day := r.dayNumber
  hour := r.timeOfDay.hour
  minute := r.timeOfDay.minute
  second := r.timeOfDay.second
  nanos := nanosOfDigits (fractionDigits r.timeOfDay.fraction)
  offset := r.timeOfDay.zone.minutesAhead

/-- Without a time the stamp is that of the date. -/
theorem stamp_of_midnight {r : AfterYear} (h : r.timeOfDay = .midnight) (year : Int) :
    r.stamp year = { year, month := r.monthNumber, day := r.dayNumber } := by
  rw [stamp, h]
  rfl

end AfterYear

/-! ## Reading -/

theorem exactNumber?_padded {width n : Nat} (hwidth : 0 < width) (h : n < 10 ^ width) :
    exactNumber? width (padded width n) = some n :=
  exactNumber?_eq_some_iff.mpr
    ⟨length_padded hwidth h, fun _ => isDigit_of_mem_padded, natOfDigits_padded width n⟩

theorem exactNumber?_two (n : Fin 100) : exactNumber? 2 (padded 2 n) = some n.val :=
  exactNumber?_padded (by decide) n.isLt

theorem isDigit_of_mem_fractionDigits {fraction : List (Fin 10)} {d : Char}
    (h : d ∈ fractionDigits fraction) : d.isDigit := by
  obtain ⟨n, -, rfl⟩ := List.mem_map.mp h
  rw [Nat.isDigit_digitChar]
  exact decide_eq_true n.isLt

theorem exists_digitChar {d : Char} (hd : d.isDigit) : ∃ n : Fin 10, n.val.digitChar = d := by
  obtain ⟨hlow, hhigh⟩ := Char.isDigit_iff_toNat.mp hd
  have h0 : '0'.toNat = 48 := rfl
  have h9 : '9'.toNat = 57 := rfl
  have hlt : d.toNat - 48 < 10 := by omega
  refine ⟨⟨d.toNat - 48, hlt⟩, Char.toNat_inj.mp ?_⟩
  rw [Nat.toNat_digitChar_of_lt_ten hlt]
  omega

theorem exists_fractionDigits {ds : List Char} (hds : ∀ d ∈ ds, d.isDigit) :
    ∃ fraction : List (Fin 10), fractionDigits fraction = ds := by
  induction ds with
  | nil => exact ⟨[], rfl⟩
  | cons d ds ih =>
    obtain ⟨n, rfl⟩ := exists_digitChar (hds d List.mem_cons_self)
    obtain ⟨fraction, rfl⟩ := ih fun e he => hds e (List.mem_cons_of_mem _ he)
    exact ⟨n :: fraction, rfl⟩

/-- A zone starts with a letter or a sign. -/
theorem Zone.head_mem (z : Zone) {c : Char} (hc : z.text.head? = some c) :
    c ∈ ['Z', '+', '-'] := by
  cases z with
  | universal =>
    obtain rfl := Option.some.inj hc
    decide
  | offset behind hours minutes =>
    obtain rfl := Option.some.inj hc
    cases behind <;> decide

/-- A zone goes on with no fraction. -/
theorem Zone.noDigitAhead_text (z : Zone) : NoDigitAhead z.text :=
  fun _ hc => eq_false_of_mem (by decide) (z.head_mem hc)

theorem Zone.head?_text_ne_point (z : Zone) : z.text.head? ≠ some '.' :=
  fun hc => absurd (z.head_mem hc) (by decide)

section Layouts

variable (s : Stamp) (a : Layout) (rest : List Char)

theorem read_fixedYear_padded {n : Nat} (hn : n < 10000) :
    Layout.read (.fixedYear :: a) s (padded 4 n ++ rest) = a.read (s.withYear n) rest := by
  have hnumber : number? 4 4 (padded 4 n ++ rest) = some (n, rest) :=
    number?_padded (by decide) hn rest
  refine Layout.read_cons_of_read (r := (s.withYear n, rest)) ?_
  simp only [Item.read, hnumber, Option.map_some]
  rfl

theorem read_fixed_padded (f : Field) {n : Nat} (hn : n < 100) :
    Layout.read (.fixed f :: a) s (padded 2 n ++ rest) = a.read (s.set n f) rest := by
  have hnumber : twoDigits? (padded 2 n ++ rest) = some (n, rest) :=
    number?_padded (by decide) hn rest
  refine Layout.read_cons_of_read (r := (s.set n f, rest)) ?_
  simp only [Item.read, hnumber, Option.map_some]

theorem read_oneOf_cons {allowed : List Char} {c : Char} (hc : c ∈ allowed) :
    Layout.read (.oneOf allowed :: a) s (c :: rest) = a.read s rest :=
  Layout.read_cons_of_read (r := (s, rest)) (Item.read_oneOf.mpr ⟨c, hc, rfl, rfl⟩)

theorem read_char_cons (c : Char) :
    Layout.read (Layout.char c :: a) s (c :: rest) = a.read s rest :=
  read_oneOf_cons s a rest (List.mem_singleton_self c)

end Layouts

/-- Without a point there is no fraction to read. -/
theorem read_fraction_of_ne (s : Stamp) {c : Char} (hc : c ≠ '.') (cs : List Char) :
    Item.fraction.read s (c :: cs) = some (s, c :: cs) := by
  simp only [Item.read]
  split
  · next heq => exact absurd (List.cons.inj heq).1 hc
  · rfl

/-- Behind a point all digits are read; the nanoseconds are those of the first nine. -/
theorem read_fraction_digits (s : Stamp) {ds cs : List Char} (hne : ds ≠ [])
    (hds : ∀ d ∈ ds, d.isDigit) (hcs : NoDigitAhead cs) :
    Item.fraction.read s ('.' :: (ds ++ cs)) = some ({ s with nanos := nanosOfDigits ds }, cs) := by
  have hrun : (ds ++ cs).takeWhile Char.isDigit = ds := takeWhile_isDigit_append hds hcs
  have hrest : (ds ++ cs).dropWhile Char.isDigit = cs := by
    have hsplit := spanDigits_append (ds ++ cs)
    simp only [spanDigits, hrun] at hsplit
    exact List.append_cancel_left hsplit
  have hsome : ds.isEmpty = false := Bool.eq_false_iff.mpr fun h => hne (List.isEmpty_iff.mp h)
  simp only [Item.read, spanDigits, hrun, hrest, hsome, Bool.false_eq_true, if_false]

/-- A fraction of any length is read, or none, up to what cannot belong to it. -/
theorem read_fraction {s : Stamp} (hs : s.nanos = 0) (fraction : List (Fin 10))
    {rest : List Char} (hdigit : NoDigitAhead rest) (hpoint : rest.head? ≠ some '.') :
    Item.fraction.read s
        ((if fraction = [] then [] else '.' :: fractionDigits fraction) ++ rest) =
      some ({ s with nanos := nanosOfDigits (fractionDigits fraction) }, rest) := by
  by_cases hnone : fraction = []
  · subst hnone
    have hstay : ({ s with nanos := nanosOfDigits (fractionDigits []) } : Stamp) = s := by
      obtain ⟨⟩ := s
      obtain rfl := hs
      rfl
    rw [if_pos rfl, List.nil_append, hstay]
    cases rest with
    | nil => rfl
    | cons c cs => exact read_fraction_of_ne s (fun h => hpoint (congrArg some h)) cs
  · rw [if_neg hnone, List.cons_append]
    exact read_fraction_digits s (fun h => hnone (List.map_eq_nil_iff.mp h))
      (fun _ => isDigit_of_mem_fractionDigits) hdigit

/-- The zone is read, and is the end. -/
theorem read_zone {s : Stamp} (hs : s.offset = 0) (z : Zone) :
    Item.fixedOffset.read s z.text = some ({ s with offset := z.minutesAhead }, []) := by
  cases z with
  | universal =>
    obtain ⟨⟩ := s
    obtain rfl := hs
    rfl
  | offset behind hours minutes =>
    have hhours : twoDigits? (padded 2 hours ++ ':' :: padded 2 minutes) =
        some (hours.val, ':' :: padded 2 minutes) :=
      number?_padded (by decide) (hours.isLt.trans (by decide)) _
    have hminutes : twoDigits? (padded 2 minutes) = some (minutes.val, []) := by
      rw [← List.append_nil (padded 2 minutes)]
      exact number?_padded (by decide) (minutes.isLt.trans (by decide)) []
    have hsign : sign? (Zone.text (.offset behind hours minutes)) =
        some (behind, padded 2 hours ++ ':' :: padded 2 minutes) := by
      cases behind <;> rfl
    have hoffset : offset? colon? (Zone.text (.offset behind hours minutes)) =
        some (Zone.minutesAhead (.offset behind hours minutes), []) :=
      offset?_eq_some_iff.mpr
        ⟨_, _, _, _, hsign, hhours, rfl, hminutes, minutes.isLt, rfl⟩
    have hletter : ∀ cs, Zone.text (.offset behind hours minutes) ≠ 'Z' :: cs ∧
        Zone.text (.offset behind hours minutes) ≠ 'z' :: cs := by
      intro cs
      cases behind <;> exact ⟨nofun, nofun⟩
    simp only [Item.read]
    split
    · next heq => exact absurd heq (hletter _).1
    · next heq => exact absurd heq (hletter _).2
    · rw [hoffset]
      rfl

/-- **What is written after a year of four digits is read, field by field.** -/
theorem stamp?_written {year : Nat} (hyear : year < 10000) (r : AfterYear) :
    stamp? (padded 4 year ++ r.text) = some (r.stamp year) := by
  have hy : exactNumber? 4 (padded 4 year) = some year := exactNumber?_padded (by decide) hyear
  cases r with
  | nothing =>
    rw [AfterYear.text, List.append_nil]
    exact stamp?_of_layout (a := Layout.calendarYear) (by decide)
      (Layout.stamp?_calendarYear_iff.mpr ⟨year, hy,
        (AfterYear.stamp_of_midnight (r := .nothing) rfl year).symm⟩)
  | month m =>
    exact stamp?_of_layout (a := Layout.calendarMonth) (by decide)
      (Layout.stamp?_calendarMonth_iff.mpr ⟨_, year, _, m.val, hy, exactNumber?_two m, rfl,
        (AfterYear.stamp_of_midnight (r := .month m) rfl year).symm⟩)
  | day m d =>
    exact stamp?_of_layout (a := Layout.calendarDay) (by decide)
      (Layout.stamp?_calendarDay_iff.mpr ⟨_, year, _, m.val, _, d.val, hy, exactNumber?_two m,
        exactNumber?_two d, rfl, (AfterYear.stamp_of_midnight (r := .day m d) rfl year).symm⟩)
  | time m d τ =>
    refine stamp?_of_layout (a := Layout.internet) (by decide) ?_
    simp only [Layout.stamp?, Layout.internet, AfterYear.text, TimeOfDay.text]
    rw [read_fixedYear_padded _ _ _ hyear, read_char_cons, read_fixed_padded _ _ _ _ m.isLt,
      read_char_cons, read_fixed_padded _ _ _ _ d.isLt, read_oneOf_cons _ _ _ (by decide),
      read_fixed_padded _ _ _ _ (τ.hour.isLt.trans (by decide)), read_char_cons,
      read_fixed_padded _ _ _ _ (τ.minute.isLt.trans (by decide)), read_char_cons,
      read_fixed_padded _ _ _ _ (τ.second.isLt.trans (by decide)),
      Layout.read_cons_of_read (read_fraction rfl τ.fraction τ.zone.noDigitAhead_text
        τ.zone.head?_text_ne_point),
      Layout.read_cons_of_read (read_zone rfl τ.zone)]
    rfl

end DateText

end Conform
