import Conform.DateText.Reading
import Conform.Proofs.LayoutReading

/-!
# The alternatives of reading a date

A text can be a date in a dozen ways, and many texts can be read in several. The readings
agree, so that the order in which they are tried does not matter.

- `calendarDate?_eq_some_iff`: calendar dates are read by layouts too;
- `layouts_agree`: the table of all layouts, checked pair by pair;
- `stamp_unique`: **a text has at most one stamp**, whichever alternatives read it;
- `instant?_eq_bind`: the instant of a text is that of its stamp;
- `alternatives_in_any_order`: no two alternatives come to different instants, and any order of
  them comes to the same one.
-/

namespace Conform

namespace DateText

open Text

variable {s st : Stamp} {cs rest : List Char}

/-! ## Calendar dates as layouts -/

theorem exactNumber?_eq_some_iff {width n : Nat} :
    exactNumber? width cs = some n ↔
      cs.length = width ∧ (∀ c ∈ cs, c.isDigit) ∧ natOfDigits cs = n := by
  rw [exactNumber?, Option.ite_none_right_eq_some, List.all_eq_true, and_assoc,
    Option.some.injEq]

/-- A number of a fixed width at the start of a text. -/
theorem number?_eq_some_iff_exact {width n : Nat} :
    number? width width cs = some (n, rest) ↔
      ∃ ds, cs = ds ++ rest ∧ exactNumber? width ds = some n := by
  constructor
  · intro h
    obtain ⟨ds, rfl, hdigits, hlow, hhigh, hn⟩ := exists_of_number? h
    exact ⟨ds, rfl, exactNumber?_eq_some_iff.mpr ⟨Nat.le_antisymm hhigh hlow, hdigits, hn⟩⟩
  · rintro ⟨ds, rfl, h⟩
    obtain ⟨hlen, hdigits, rfl⟩ := exactNumber?_eq_some_iff.mp h
    exact number?_append ⟨hdigits, hlen.ge, hlen.le, .inl hlen⟩

namespace Layout

/-- A number of a fixed width is read, stored, and the rest is read by the rest of the layout. -/
theorem bind_number?_iff {a : Layout} {width : Nat} (store : Nat → Stamp) :
    ((number? width width cs).map fun r => (store r.1, r.2)).bind (fun r => read a r.1 r.2) =
        some st ↔
      ∃ ds n rest, exactNumber? width ds = some n ∧ cs = ds ++ rest ∧
        read a (store n) rest = some st := by
  rw [Option.bind_map, Option.bind_eq_some_iff]
  constructor
  · rintro ⟨⟨n, rest⟩, hn, hrest⟩
    obtain ⟨ds, rfl, hds⟩ := number?_eq_some_iff_exact.mp hn
    exact ⟨ds, n, rest, hds, rfl, hrest⟩
  · rintro ⟨ds, n, rest, hds, rfl, hrest⟩
    exact ⟨(n, rest), number?_eq_some_iff_exact.mpr ⟨ds, rfl, hds⟩, hrest⟩

theorem read_fixedYear_iff {a : Layout} :
    read (.fixedYear :: a) s cs = some st ↔
      ∃ ds n rest, exactNumber? 4 ds = some n ∧ cs = ds ++ rest ∧
        read a { s with year := n } rest = some st :=
  bind_number?_iff fun n => { s with year := n }

theorem read_fixed_iff {f : Field} {a : Layout} :
    read (.fixed f :: a) s cs = some st ↔
      ∃ ds n rest, exactNumber? 2 ds = some n ∧ cs = ds ++ rest ∧
        read a (s.set n f) rest = some st :=
  bind_number?_iff fun n => s.set n f

theorem read_char_iff {c : Char} {a : Layout} :
    read (char c :: a) s cs = some st ↔ ∃ rest, cs = c :: rest ∧ read a s rest = some st := by
  change ((Item.oneOf [c]).read s cs).bind _ = some st ↔ _
  rw [Option.bind_eq_some_iff]
  constructor
  · rintro ⟨r, hr, hrest⟩
    obtain ⟨d, hd, rfl, rfl⟩ := Item.read_oneOf.mp hr
    exact ⟨r.2, by rw [List.mem_singleton.mp hd], hrest⟩
  · rintro ⟨rest, rfl, hrest⟩
    exact ⟨(s, rest), Item.read_oneOf.mpr ⟨c, List.mem_singleton_self c, rfl, rfl⟩, hrest⟩

theorem read_nil_iff : read [] s cs = some st ↔ cs = [] ∧ s = st := by
  constructor
  · exact read_nil
  · rintro ⟨rfl, rfl⟩
    rfl

/-! The three layouts of calendar dates, and the texts that they read. -/

/-- A year. -/
def calendarYear : Layout := [.fixedYear]

/-- A year and a month. -/
def calendarMonth : Layout := [.fixedYear, char '-', .fixed .month]

/-- A year, a month and a day. -/
def calendarDay : Layout := [.fixedYear, char '-', .fixed .month, char '-', .fixed .day]

/-- The layouts of calendar dates. -/
def calendar : List Layout :=
  [calendarYear, calendarMonth, calendarDay]

theorem stamp?_calendarYear_iff :
    calendarYear.stamp? cs = some st ↔
      ∃ year, exactNumber? 4 cs = some year ∧ { year := (year : Int) } = st := by
  simp only [stamp?, calendarYear, read_fixedYear_iff, read_nil_iff]
  constructor
  · rintro ⟨y, year, rest, hy, rfl, rfl, rfl⟩
    exact ⟨year, by rw [List.append_nil]; exact hy, rfl⟩
  · rintro ⟨year, hy, rfl⟩
    exact ⟨cs, year, [], hy, (List.append_nil cs).symm, rfl, rfl⟩

theorem stamp?_calendarMonth_iff :
    calendarMonth.stamp? cs = some st ↔
      ∃ y year m month, exactNumber? 4 y = some year ∧ exactNumber? 2 m = some month ∧
        cs = y ++ '-' :: m ∧ { year := (year : Int), month } = st := by
  simp only [stamp?, calendarMonth, read_fixedYear_iff, read_char_iff, read_fixed_iff,
    read_nil_iff]
  constructor
  · rintro ⟨y, year, _, hy, rfl, _, rfl, m, month, _, hm, rfl, rfl, rfl⟩
    exact ⟨y, year, m, month, hy, hm, by rw [List.append_nil], rfl⟩
  · rintro ⟨y, year, m, month, hy, hm, rfl, rfl⟩
    exact ⟨y, year, _, hy, rfl, m, rfl, m, month, [], hm, (List.append_nil m).symm, rfl, rfl⟩

theorem stamp?_calendarDay_iff :
    calendarDay.stamp? cs = some st ↔
      ∃ y year m month d day, exactNumber? 4 y = some year ∧ exactNumber? 2 m = some month ∧
        exactNumber? 2 d = some day ∧ cs = y ++ '-' :: (m ++ '-' :: d) ∧
        { year := (year : Int), month, day } = st := by
  simp only [stamp?, calendarDay, read_fixedYear_iff, read_char_iff, read_fixed_iff,
    read_nil_iff]
  constructor
  · rintro ⟨y, year, _, hy, rfl, _, rfl, m, month, _, hm, rfl, _, rfl, d, day, _, hd, rfl, rfl, rfl⟩
    exact ⟨y, year, m, month, d, day, hy, hm, hd, by rw [List.append_nil], rfl⟩
  · rintro ⟨y, year, m, month, d, day, hy, hm, hd, rfl, rfl⟩
    exact ⟨y, year, _, hy, rfl, _, rfl, m, month, _, hm, rfl, d, rfl, d, day, [], hd,
      (List.append_nil d).symm, rfl, rfl⟩

end Layout

/-- Digits hold no hyphen. -/
theorem hyphen_not_mem_of_exactNumber? {width n : Nat} (h : exactNumber? width cs = some n) :
    '-' ∉ cs :=
  fun hmem => nomatch (exactNumber?_eq_some_iff.mp h).2.1 '-' hmem

theorem splitHyphens_number {width n : Nat} (h : exactNumber? width cs = some n) :
    splitHyphens cs = [cs] :=
  List.splitOn_eq_singleton (hyphen_not_mem_of_exactNumber? h)

theorem splitHyphens_number_hyphen {width n : Nat} (h : exactNumber? width cs = some n)
    (rest : List Char) : splitHyphens (cs ++ '-' :: rest) = cs :: splitHyphens rest :=
  List.splitOn_append_cons_self_of_not_mem (hyphen_not_mem_of_exactNumber? h) rest

/-- **Calendar dates are what their layouts read.** -/
theorem calendarDate?_eq_some_iff :
    calendarDate? cs = some st ↔ ∃ a ∈ Layout.calendar, a.stamp? cs = some st := by
  constructor
  · intro h
    have hjoin : ['-'].intercalate (splitHyphens cs) = cs := List.intercalate_splitOn '-'
    unfold calendarDate? at h
    split at h
    · next y hsplit =>
      obtain ⟨year, hy, hst⟩ := Option.bind_eq_some_iff.mp h
      obtain rfl : y = cs := by simpa [hsplit] using hjoin
      exact ⟨Layout.calendarYear, by decide,
        Layout.stamp?_calendarYear_iff.mpr ⟨year, hy, Option.some.inj hst⟩⟩
    · next y m hsplit =>
      obtain ⟨year, hy, h⟩ := Option.bind_eq_some_iff.mp h
      obtain ⟨month, hm, hst⟩ := Option.bind_eq_some_iff.mp h
      have hcs : cs = y ++ '-' :: m := by rw [← hjoin, hsplit]; simp
      exact ⟨Layout.calendarMonth, by decide,
        Layout.stamp?_calendarMonth_iff.mpr ⟨y, year, m, month, hy, hm, hcs, Option.some.inj hst⟩⟩
    · next y m d hsplit =>
      obtain ⟨year, hy, h⟩ := Option.bind_eq_some_iff.mp h
      obtain ⟨month, hm, h⟩ := Option.bind_eq_some_iff.mp h
      obtain ⟨day, hd, hst⟩ := Option.bind_eq_some_iff.mp h
      have hcs : cs = y ++ '-' :: (m ++ '-' :: d) := by rw [← hjoin, hsplit]; simp
      exact ⟨Layout.calendarDay, by decide, Layout.stamp?_calendarDay_iff.mpr
        ⟨y, year, m, month, d, day, hy, hm, hd, hcs, Option.some.inj hst⟩⟩
    · cases h
  · rintro ⟨a, ha, h⟩
    simp only [Layout.calendar, List.mem_cons, List.not_mem_nil, or_false] at ha
    rcases ha with rfl | rfl | rfl
    · obtain ⟨year, hy, rfl⟩ := Layout.stamp?_calendarYear_iff.mp h
      simp only [calendarDate?, splitHyphens_number hy, hy]
      rfl
    · obtain ⟨y, year, m, month, hy, hm, rfl, rfl⟩ := Layout.stamp?_calendarMonth_iff.mp h
      have hsplit : splitHyphens (y ++ '-' :: m) = [y, m] := by
        rw [splitHyphens_number_hyphen hy, splitHyphens_number hm]
      simp only [calendarDate?, hsplit, hy, hm]
      rfl
    · obtain ⟨y, year, m, month, d, day, hy, hm, hd, rfl, rfl⟩ :=
        Layout.stamp?_calendarDay_iff.mp h
      have hsplit : splitHyphens (y ++ '-' :: (m ++ '-' :: d)) = [y, m, d] := by
        rw [splitHyphens_number_hyphen hy, splitHyphens_number_hyphen hm, splitHyphens_number hd]
      simp only [calendarDate?, hsplit, hy, hm, hd]
      rfl

/-! ## Message dates -/

/-- What is no letter stays the same in lower case. -/
theorem toLower_of_not_isAlpha {c : Char} (h : c.isAlpha = false) : c.toLower = c := by
  refine dif_neg fun hupper => ?_
  have hletter : c.isAlpha := Bool.or_eq_true_iff.mpr (.inl (decide_eq_true hupper))
  rw [hletter] at h
  cases h

/-- What is in lower case a letter that times have not is none of their letters itself. -/
theorem isTimeChar_of_toLower {c : Char} (h : isTimeChar c.toLower = false) :
    isTimeChar c = false := by
  by_contra hc
  rw [Bool.not_eq_false] at hc
  -- the four letters of times are looked up
  rcases Bool.or_eq_true_iff.mp hc with halpha | hmem
  · rw [toLower_of_not_isAlpha ((Bool.not_eq_true' _).mp halpha), hc] at h
    cases h
  · have hlower : isTimeChar c.toLower :=
      List.all_eq_true.mp (by decide : ['T', 't', 'Z', 'z'].all fun c => isTimeChar c.toLower) c
        (of_decide_eq_true hmem)
    rw [hlower] at h
    cases h

/-- A text with a name at its start has the name's first letter there, in either case. -/
theorem head_of_nameIndex? {names : List String} {r : Nat × List Char}
    (h : nameIndex? names cs = some r) :
    ∃ c ∈ cs.head?, ∃ name ∈ names, name.toList.head? = some c.toLower := by
  unfold nameIndex? at h
  split at h
  · next a b c rest =>
    obtain ⟨i, hi, -⟩ := Option.map_eq_some_iff.mp h
    have hmem : String.ofList [a.toLower, b.toLower, c.toLower] ∈ names :=
      List.isSome_idxOf?.mp (by rw [hi]; rfl)
    exact ⟨a, rfl, _, hmem, by rw [String.toList_ofList]; rfl⟩
  · cases h

/-- Months start with letters that times have not. -/
theorem exists_letter_of_month {r : Nat × List Char} (h : nameIndex? monthNames cs = some r) :
    ∃ c ∈ cs, isTimeChar c = false := by
  obtain ⟨c, hc, name, hname, hhead⟩ := head_of_nameIndex? h
  have hletter := List.all_eq_true.mp (by decide : monthNames.all fun name =>
    name.toList.head?.all fun c => !isTimeChar c) name hname
  rw [hhead, Option.all_some, Bool.not_eq_true'] at hletter
  exact ⟨c, List.mem_of_mem_head? hc, isTimeChar_of_toLower hletter⟩

theorem nameIndex?_suffix {names : List String} {r : Nat × List Char}
    (h : nameIndex? names cs = some r) : r.2 <:+ cs := by
  unfold nameIndex? at h
  split at h
  · next a b c rest =>
    obtain ⟨i, -, rfl⟩ := Option.map_eq_some_iff.mp h
    exact ⟨[a, b, c], rfl⟩
  · cases h

/-- A text that starts with no letter names no weekday. -/
theorem weekday?_of_not_isAlpha {c : Char} (h : c.isAlpha = false) (cs : List Char) :
    weekday? (c :: cs) = some (none, c :: cs) := by
  have hname : nameIndex? weekdayNames (c :: cs) = none := by
    by_contra hsome
    obtain ⟨r, hr⟩ := Option.ne_none_iff_exists'.mp hsome
    obtain ⟨d, hd, name, hname, hhead⟩ := head_of_nameIndex? hr
    obtain rfl := Option.some.inj hd
    have hletter := List.all_eq_true.mp (by decide : weekdayNames.all fun name =>
      name.toList.head?.all Char.isAlpha) name hname
    rw [hhead, Option.all_some, toLower_of_not_isAlpha h, h] at hletter
    cases hletter
  simp only [weekday?, hname]

theorem weekday?_suffix {r : Option Nat × List Char} (h : weekday? cs = some r) : r.2 <:+ cs := by
  unfold weekday? at h
  split at h
  · next day rest hname =>
    obtain rfl := Option.some.inj h
    exact (List.suffix_cons ',' rest).trans (nameIndex?_suffix hname)
  · cases h
  · obtain rfl := Option.some.inj h
    exact List.suffix_rfl

theorem someBlanks?_suffix (h : someBlanks? cs = some rest) : rest <:+ cs := by
  unfold someBlanks? at h
  split at h
  · next c cs =>
    split at h
    · obtain rfl := Option.some.inj h
      exact (List.dropWhile_suffix _).trans (List.suffix_cons c cs)
    · cases h
  · cases h

/-- A message date has a letter that no layout reads. -/
theorem exists_letter_of_messageDate (h : messageDate? cs = some st) :
    ∃ c ∈ cs, isTimeChar c = false := by
  obtain ⟨weekday, hweekday, h⟩ := Option.bind_eq_some_iff.mp h
  obtain ⟨day, hday, h⟩ := Option.bind_eq_some_iff.mp h
  obtain ⟨cs₁, hblanks, h⟩ := Option.bind_eq_some_iff.mp h
  obtain ⟨month, hmonth, -⟩ := Option.bind_eq_some_iff.mp h
  obtain ⟨c, hc, hletter⟩ := exists_letter_of_month hmonth
  have hsuffix : cs₁ <:+ cs := by
    obtain ⟨ds, hds, -⟩ := exists_of_number? hday
    have hrest : day.2 <:+ skipBlanks weekday.2 := ⟨ds, hds.symm⟩
    exact (someBlanks?_suffix hblanks).trans (hrest.trans ((List.dropWhile_suffix _).trans
      ((weekday?_suffix hweekday).trans (List.dropWhile_suffix _))))
  exact ⟨c, hsuffix.mem hc, hletter⟩

/-- A day has at most two digits in a message, so a message does not start with a year of
four. -/
theorem messageDate?_of_exactNumber? {n : Nat} (h : exactNumber? 4 cs = some n)
    (rest : List Char) : messageDate? (cs ++ rest) = none := by
  obtain ⟨hlen, hdigits, -⟩ := exactNumber?_eq_some_iff.mp h
  obtain ⟨a, b, c, d, rfl⟩ : ∃ a b c d, cs = [a, b, c, d] := by
    match cs, hlen with
    | [a, b, c, d], _ => exact ⟨a, b, c, d, rfl⟩
  have ha : a.isDigit := hdigits a (by simp)
  have hb : b.isDigit := hdigits b (by simp)
  have hc : c.isDigit := hdigits c (by simp)
  have hstay : skipBlanks (a :: b :: c :: d :: rest) = a :: b :: c :: d :: rest :=
    skipBlanks_cons_of_not (isBlank_of_isDigit ha) _
  have hweekday : weekday? (a :: b :: c :: d :: rest) = some (none, a :: b :: c :: d :: rest) :=
    weekday?_of_not_isAlpha (Bool.eq_false_iff.mpr (not_isAlpha_of_isDigit ha)) _
  have htakes : TakesDigits 1 2 [a, b] (c :: d :: rest) :=
    ⟨by simp [ha, hb], Nat.le_succ 1, Nat.le_refl 2, .inl rfl⟩
  have hday : number? 1 2 (a :: b :: c :: d :: rest) =
      some (natOfDigits [a, b], c :: d :: rest) := number?_append htakes
  have hblanks : someBlanks? (c :: d :: rest) = none := by
    rw [someBlanks?, isBlank_of_isDigit hc]
    rfl
  show (weekday? (skipBlanks (a :: b :: c :: d :: rest))).bind _ = none
  rw [hstay, hweekday, Option.bind_some]
  show (number? 1 2 (skipBlanks (a :: b :: c :: d :: rest))).bind _ = none
  rw [hstay, hday, Option.bind_some]
  show (someBlanks? (c :: d :: rest)).bind _ = none
  rw [hblanks, Option.bind_none]

/-! ## The table of layouts -/

namespace Layout

/-- All layouts. -/
def table : List Layout :=
  internet :: withOffset ++ withoutOffset ++ calendar

theorem isTimely_of_mem_table : ∀ a ∈ table, a.all Item.isTimely := by
  decide

/-- **No text is read differently by two of the layouts**, as their items tell. -/
theorem agrees_of_mem_table : ∀ a ∈ table, ∀ b ∈ table,
    agrees a.dropBlanks b.dropBlanks ∨ agrees b.dropBlanks a.dropBlanks := by
  decide

/-- A text has one stamp in all layouts. -/
theorem stamp?_unique {a b : Layout} (ha : a ∈ table) (hb : b ∈ table) {st' : Stamp}
    (h : a.stamp? cs = some st) (h' : b.stamp? cs = some st') : st = st' := by
  rw [stamp?, ← read_dropBlanks] at h h'
  rcases agrees_of_mem_table a ha b hb with hab | hba
  · exact read_unique hab h h'
  · exact (read_unique hba h' h).symm

end Layout

/-! ## The alternatives agree -/

/-- What is read, is read by a layout or as a message date. -/
theorem exists_alternative_iff :
    (∃ read ∈ alternatives, read cs = some st) ↔
      (∃ a ∈ Layout.table, a.stamp? cs = some st) ∨ messageDate? cs = some st := by
  simp only [alternatives, Layout.table, List.cons_append, List.mem_cons, List.mem_append,
    List.mem_map, List.not_mem_nil, or_false]
  constructor
  · rintro ⟨read, rfl | (⟨a, ha, rfl⟩ | ⟨a, ha, rfl⟩) | rfl | rfl, h⟩
    · exact .inl ⟨_, .inl rfl, h⟩
    · exact .inl ⟨a, .inr (.inl (.inl ha)), h⟩
    · exact .inl ⟨a, .inr (.inl (.inr ha)), h⟩
    · obtain ⟨a, ha, h⟩ := calendarDate?_eq_some_iff.mp h
      exact .inl ⟨a, .inr (.inr ha), h⟩
    · exact .inr h
  · rintro (⟨a, rfl | (ha | ha) | ha, h⟩ | h)
    · exact ⟨_, .inl rfl, h⟩
    · exact ⟨_, .inr (.inl (.inl ⟨a, ha, rfl⟩)), h⟩
    · exact ⟨_, .inr (.inl (.inr ⟨a, ha, rfl⟩)), h⟩
    · exact ⟨_, .inr (.inr (.inl rfl)), calendarDate?_eq_some_iff.mpr ⟨a, ha, h⟩⟩
    · exact ⟨_, .inr (.inr (.inr rfl)), h⟩

/-- No layout reads a message date. -/
theorem messageDate?_eq_none_of_layout {a : Layout} (ha : a ∈ Layout.table)
    (h : a.stamp? cs = some st) : messageDate? cs = none := by
  by_contra hmessage
  obtain ⟨st', hst'⟩ := Option.ne_none_iff_exists'.mp hmessage
  obtain ⟨c, hc, hletter⟩ := exists_letter_of_messageDate hst'
  have htime := Layout.isTimeChar_of_read (Layout.isTimely_of_mem_table a ha) h c hc
  rw [hletter] at htime
  cases htime

/-- **A text has at most one stamp**, whichever alternatives read it. -/
theorem stamp_unique {read read' : List Char → Option Stamp} (hread : read ∈ alternatives)
    (hread' : read' ∈ alternatives) {st' : Stamp} (h : read cs = some st)
    (h' : read' cs = some st') : st = st' := by
  rcases exists_alternative_iff.mp ⟨read, hread, h⟩ with ⟨a, ha, hst⟩ | hst <;>
    rcases exists_alternative_iff.mp ⟨read', hread', h'⟩ with ⟨b, hb, hst'⟩ | hst'
  · exact Layout.stamp?_unique ha hb hst hst'
  · rw [messageDate?_eq_none_of_layout ha hst] at hst'
    cases hst'
  · rw [messageDate?_eq_none_of_layout hb hst'] at hst
    cases hst
  · exact Option.some.inj (hst.symm.trans hst')

/-- The first answer of several is any of their answers, if no two differ. -/
theorem findSome?_eq_some_iff_of_agree {α β : Type} {f : α → Option β} {xs : List α}
    (hagree : ∀ x ∈ xs, ∀ y ∈ xs, ∀ a b, f x = some a → f y = some b → a = b) {b : β} :
    xs.findSome? f = some b ↔ ∃ x ∈ xs, f x = some b := by
  constructor
  · exact List.exists_of_findSome?_eq_some
  · rintro ⟨x, hx, hb⟩
    cases hfirst : xs.findSome? f with
    | none => rw [← hb, List.findSome?_eq_none_iff.mp hfirst x hx]
    | some a =>
      obtain ⟨y, hy, ha⟩ := List.exists_of_findSome?_eq_some hfirst
      rw [hagree y hy x hx a b ha hb]

/-- The stamp of a text. -/
def stamp? (cs : List Char) : Option Stamp :=
  alternatives.findSome? (· cs)

theorem stamp?_eq_some_iff :
    stamp? cs = some st ↔ ∃ read ∈ alternatives, read cs = some st :=
  findSome?_eq_some_iff_of_agree fun _ hread _ hread' _ _ => stamp_unique hread hread'

/-- What a layout reads is the stamp of the text. -/
theorem stamp?_of_layout {a : Layout} (ha : a ∈ Layout.table) (h : a.stamp? cs = some st) :
    stamp? cs = some st :=
  stamp?_eq_some_iff.mpr (exists_alternative_iff.mpr (.inl ⟨a, ha, h⟩))

/-! ## The instant of a text -/

/-- Alternatives that come to an instant, come to the same one. -/
theorem instant_unique {read read' : List Char → Option Stamp} (hread : read ∈ alternatives)
    (hread' : read' ∈ alternatives) {t t' : Instant} (h : instantBy? read cs = some t)
    (h' : instantBy? read' cs = some t') : t = t' := by
  obtain ⟨st, hst, ht⟩ := Option.bind_eq_some_iff.mp h
  obtain ⟨st', hst', ht'⟩ := Option.bind_eq_some_iff.mp h'
  obtain rfl := stamp_unique hread hread' hst hst'
  exact Option.some.inj (ht.symm.trans ht')

/-- It does not matter which of some alternatives, tried in any order, is the first. -/
theorem findSome?_instantBy?_iff {order : List (List Char → Option Stamp)}
    (horder : order ⊆ alternatives) {t : Instant} :
    order.findSome? (instantBy? · cs) = some t ↔ ∃ read ∈ order, instantBy? read cs = some t :=
  findSome?_eq_some_iff_of_agree fun _ hread _ hread' _ _ =>
    instant_unique (horder hread) (horder hread')

/-- **The instant of a text is that of its stamp**: where the stamp denotes no instant, no
other alternative makes up for it. -/
theorem instant?_eq_bind (cs : List Char) : instant? cs = (stamp? cs).bind Stamp.instant? := by
  refine Option.ext fun t => ?_
  rw [instant?, findSome?_instantBy?_iff (List.Subset.refl alternatives), Option.bind_eq_some_iff]
  constructor
  · rintro ⟨read, hread, h⟩
    obtain ⟨st, hst, ht⟩ := Option.bind_eq_some_iff.mp h
    exact ⟨st, stamp?_eq_some_iff.mpr ⟨read, hread, hst⟩, ht⟩
  · rintro ⟨st, hst, ht⟩
    obtain ⟨read, hread, h⟩ := stamp?_eq_some_iff.mp hst
    exact ⟨read, hread, Option.bind_eq_some_iff.mpr ⟨st, h, ht⟩⟩

/-- **The order of the alternatives does not matter**: any two that come to an instant come to
the same one, and so the first that does is the same instant in every order. -/
theorem alternatives_in_any_order (cs : List Char) :
    (∀ read ∈ alternatives, ∀ read' ∈ alternatives, ∀ t t' : Instant,
        instantBy? read cs = some t → instantBy? read' cs = some t' → t = t') ∧
      ∀ order : List (List Char → Option Stamp), order.Perm alternatives →
        order.findSome? (instantBy? · cs) = instant? cs := by
  refine ⟨fun read hread read' hread' t t' => instant_unique hread hread', ?_⟩
  intro order hperm
  refine Option.ext fun t => ?_
  rw [findSome?_instantBy?_iff hperm.subset, instant?,
    findSome?_instantBy?_iff (List.Subset.refl alternatives)]
  exact exists_congr fun read => and_congr_left fun _ => hperm.mem_iff

/-- A leap second with a space before the time of day is read by the standard layout and by a
lenient one, and the last alternative may just as well be tried first. -/
theorem alternatives_in_any_order_reversed :
    let text := "2016-12-31 23:59:60.5+09:00".toList
    let lenient := Layout.looseDate ++ [.blanks] ++ Layout.toSecond ++ [.looseOffset]
    (∃ t, instantBy? Layout.internet.stamp? text = some t ∧
        instantBy? lenient.stamp? text = some t) ∧
      alternatives.reverse.findSome? (instantBy? · text) = instant? text := by
  intro text lenient
  obtain ⟨hpairs, horders⟩ := alternatives_in_any_order text
  have hinternet : Layout.internet.stamp? ∈ alternatives := List.mem_cons_self
  have hlenient : lenient.stamp? ∈ alternatives := by
    simp [alternatives, Layout.withOffset, lenient]
  obtain ⟨t, ht⟩ := Option.isSome_iff_exists.mp
    (by decide +kernel : (instantBy? Layout.internet.stamp? text).isSome)
  obtain ⟨t', ht'⟩ := Option.isSome_iff_exists.mp
    (by decide +kernel : (instantBy? lenient.stamp? text).isSome)
  obtain rfl := hpairs _ hinternet _ hlenient t t' ht ht'
  exact ⟨⟨t, ht, ht'⟩, horders _ (List.reverse_perm alternatives)⟩

end DateText

end Conform
