import Conform.Proofs.DateTimeSpellings

/-!
# The text of a year

How a year is written does not matter to what is read behind it, and neither does its place in
the calendar: the layouts find the same fields behind every year of four digits, and so, behind
years that are whole cycles apart, instants that are as many cycles apart.

- `stamp?_other_year`: what is read behind one year is read behind all;
- `instant?_other_year`: instants with years that are whole cycles apart;
- `millis?_congr_year`: **texts with the same year are read alike**, whatever the form of the
  year and whatever follows, also where nothing is read;
- `padded_years_read_alike`: years of four digits, and of six of which two are zeros.
-/

namespace Conform

namespace DateText

open Text

variable {st : Stamp} {t : Instant} {rest : List Char} {year other : Nat}

/-- Every layout starts with a year, of four digits or of any form, and has no other. -/
theorem year_of_table : ∀ a ∈ Layout.table,
    (a.head? = some .fixedYear ∨ a.head? = some .looseYear) ∧ a.tail.all (fun i => !i.isYear) := by
  decide

/-- A layout reads a year of four digits, and then what follows as if there were no year. -/
theorem stamp?_of_padded {a : Layout} (ha : a ∈ Layout.table) (hyear : year < 10000)
    (rest : List Char) :
    a.stamp? (padded 4 year ++ rest) =
      (Layout.read a.tail {} rest).map fun s => s.withYear year := by
  obtain ⟨hhead, hyearless⟩ := year_of_table a ha
  have hbehind := Layout.read_withYear hyearless {} year rest
  rcases hhead with hhead | hhead
  · obtain ⟨tail, rfl⟩ := List.head?_eq_some_iff.mp hhead
    rw [Layout.stamp?, read_fixedYear_padded _ _ _ hyear]
    exact hbehind
  · obtain ⟨tail, rfl⟩ := List.head?_eq_some_iff.mp hhead
    rw [Layout.stamp?, read_looseYear_padded _ _ _ hyear]
    exact hbehind

/-- **What is read behind one year of four digits is read behind all.** -/
theorem stamp?_other_year (hyear : year < 10000) (hother : other < 10000)
    (h : stamp? (padded 4 year ++ rest) = some st) :
    st.year = year ∧ stamp? (padded 4 other ++ rest) = some (st.withYear other) := by
  have hmessage : messageDate? (padded 4 year ++ rest) = none :=
    messageDate?_of_exactNumber? (exactNumber?_padded (by decide) hyear) rest
  rcases exists_alternative_iff.mp (stamp?_eq_some_iff.mp h) with ⟨a, ha, hst⟩ | hst
  · rw [stamp?_of_padded ha hyear] at hst
    obtain ⟨s, hs, rfl⟩ := Option.map_eq_some_iff.mp hst
    refine ⟨rfl, stamp?_of_layout ha ?_⟩
    rw [stamp?_of_padded ha hother, hs]
    rfl
  · rw [hmessage] at hst
    cases hst

/-- **Behind years that are whole cycles apart stand instants that are as many cycles apart.** -/
theorem instant?_other_year (hyear : year < 10000) (hother : other < 10000) {cycles : Int}
    (hcycles : (other : Int) = year + 400 * cycles)
    (h : instant? (padded 4 year ++ rest) = some t) :
    ∃ t', instant? (padded 4 other ++ rest) = some t' ∧
      t'.millis = t.millis + cycles * cycleMillis := by
  rw [instant?_eq_bind] at h
  obtain ⟨st, hst, ht⟩ := Option.bind_eq_some_iff.mp h
  obtain ⟨hstyear, hst'⟩ := stamp?_other_year hyear hother hst
  have hmoved : (other : Int) = st.year + 400 * cycles := by rw [hstyear, hcycles]
  obtain ⟨t', ht', hmillis⟩ := Stamp.instant?_add_cycles ht cycles (by omega) (by omega)
  refine ⟨t', ?_, hmillis⟩
  rw [instant?_eq_bind, hst', Option.bind_some, hmoved, ht']

/-- The same of milliseconds, and also where there is no instant. -/
theorem map_millis_other_year (hyear : year < 10000) (hother : other < 10000) {cycles : Int}
    (hcycles : (other : Int) = year + 400 * cycles) (rest : List Char) :
    (instant? (padded 4 other ++ rest)).map Instant.millis =
      (instant? (padded 4 year ++ rest)).map fun t => t.millis + cycles * cycleMillis := by
  cases ht : instant? (padded 4 year ++ rest) with
  | some t =>
    obtain ⟨t', ht', hmillis⟩ := instant?_other_year hyear hother hcycles ht
    rw [ht', Option.map_some, Option.map_some, hmillis]
  | none =>
    -- an instant behind the other year would be one behind this one
    cases ht' : instant? (padded 4 other ++ rest) with
    | none => rfl
    | some t' =>
      have hback : (year : Int) = other + 400 * -cycles := by omega
      obtain ⟨t, hsome, -⟩ := instant?_other_year hother hyear hback ht'
      rw [ht] at hsome
      cases hsome

/-- The year that a text is read with and its cycles make up the year. -/
theorem YearText.readYear_add_cycles (y : YearText) : y.readYear + 400 * y.cycles = y.year := by
  cases y with
  | four year =>
    simp only [readYear, YearText.year, cycles]
    omega
  | six negative year ne =>
    simp only [readYear, cycles, cyclesTo]
    omega

/-- Texts with the same year come to the same milliseconds, whatever is done with them. -/
theorem YearText.bind_millis_congr {α : Type} (f : Int → Option α) {y y' : YearText}
    (hyear : y.year = y'.year) (rest : List Char) :
    (instant? (padded 4 y.readYear ++ rest)).bind (fun t => f (t.millis + y.cycles * cycleMillis)) =
      (instant? (padded 4 y'.readYear ++ rest)).bind fun t =>
        f (t.millis + y'.cycles * cycleMillis) := by
  have hy := y.readYear_add_cycles
  have hy' := y'.readYear_add_cycles
  have hcycles : (y.readYear : Int) = y'.readYear + 400 * (y'.cycles - y.cycles) := by omega
  have hread := map_millis_other_year y'.readYear_lt y.readYear_lt hcycles rest
  rw [← bind_map_millis _ fun ms => f (ms + y.cycles * cycleMillis), hread, Option.bind_map]
  refine Option.bind_congr fun t _ => congrArg f ?_
  show t.millis + (y'.cycles - y.cycles) * cycleMillis + y.cycles * cycleMillis = _
  ring

/-- **Texts with the same year are read alike**, whatever the form of the year. -/
theorem millis?_congr_year {y y' : YearText} (hyear : y.year = y'.year)
    (hrest : rest = [] ∨ rest.head? = some '-') :
    millis? (y.text ++ rest) = millis? (y'.text ++ rest) := by
  rw [y.millis?_eq hrest, y'.millis?_eq hrest]
  exact YearText.bind_millis_congr (fun ms => epochMillis (.ofInt ms)) hyear rest

/-- Four digits with two zeros in front are the six digits of the same number. -/
theorem padded_six_eq (hyear : year < 10000) : padded 6 year = '0' :: '0' :: padded 4 year := by
  have hvalue : natOfDigits ('0' :: '0' :: padded 4 year) = year := natOfDigits_padded 4 year
  have hlength : ('0' :: '0' :: padded 4 year).length = 6 := by
    rw [List.length_cons, List.length_cons, length_padded (by decide) hyear]
  have hdigits : ∀ d ∈ '0' :: '0' :: padded 4 year, d.isDigit := by
    intro d hd
    rcases List.mem_cons.mp hd with rfl | hd
    · rfl
    · rcases List.mem_cons.mp hd with rfl | hd
      · rfl
      · exact isDigit_of_mem_padded hd
  have heq := (eq_padded (by decide) hdigits hlength).2
  rw [hvalue] at heq
  exact heq.symm

/-- **A year of four digits may be padded to six.** What follows the year need not be a date:
then neither text is read. -/
theorem padded_years_read_alike {digits : List Char} (hdigits : ∀ d ∈ digits, d.isDigit)
    (hlength : digits.length = 4) (hrest : rest = [] ∨ rest.head? = some '-') :
    millis? ("+00".toList ++ digits ++ rest) = millis? (digits ++ rest) := by
  obtain ⟨hyear, hpadded⟩ := eq_padded (by decide) hdigits hlength
  let four : YearText := .four ⟨natOfDigits digits, hyear⟩
  let six : YearText :=
    .six false ⟨natOfDigits digits, hyear.trans (by decide)⟩ fun h => nomatch h.1
  have hfour : digits = four.text := hpadded
  have hsix : "+00".toList ++ digits = six.text := by
    show '+' :: '0' :: '0' :: digits = '+' :: padded 6 (natOfDigits digits)
    rw [padded_six_eq hyear, ← hpadded]
  rw [hsix, hfour]
  exact millis?_congr_year rfl hrest

/-- The leap second at the end of 2016 in a zone ahead, with a fraction; and the 29th of February
of a year that has none. -/
theorem padded_years_read_alike_leap :
    let second := "-12-31T23:59:60.5+14:00".toList
    let day := "-02-29".toList
    millis? ("+00".toList ++ "2016".toList ++ second) = millis? ("2016".toList ++ second) ∧
      millis? ("2016".toList ++ second) = some (.ofInt 1483178400500) ∧
      millis? ("+00".toList ++ "1900".toList ++ day) = millis? ("1900".toList ++ day) ∧
      millis? ("1900".toList ++ day) = none := by
  intro second day
  refine ⟨padded_years_read_alike (List.all_eq_true.mp (by decide)) (by decide) (.inr rfl),
    by decide +kernel,
    padded_years_read_alike (List.all_eq_true.mp (by decide)) (by decide) (.inr rfl),
    by decide +kernel⟩

end DateText

end Conform
