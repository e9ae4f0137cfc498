import Conform.Text.Digits
import Mathlib.Data.List.TakeWhile
import Mathlib.Tactic.Ring

/-!
# Numbers in texts

What a reader of numbers takes from the start of a text, and what it makes of numbers that
are written with a fixed width.

- `number?_append`: it reads the number of the digits that it takes, and leaves the rest;
- `number?_eq_some_iff`: it takes as many as it may;
- `padded`: a number written with a fixed number of digits, and `number?_padded`, its reading.
-/

namespace Conform

namespace Text

/-! ## Reading -/

/-- A text does not start with a digit. -/
def NoDigitAhead (rest : List Char) : Prop :=
  ∀ c, rest.head? = some c → c.isDigit = false

theorem noDigitAhead_nil : NoDigitAhead [] := by
  rintro c ⟨⟩

theorem noDigitAhead_cons {c : Char} (h : c.isDigit = false) (cs : List Char) :
    NoDigitAhead (c :: cs) := by
  rintro d ⟨⟩
  exact h

/-- A reader of at least `least` and at most `most` digits takes just `ds` from the start of
`ds ++ rest`. -/
structure TakesDigits (least most : Nat) (ds rest : List Char) : Prop where
  digits : ∀ d ∈ ds, d.isDigit
  least_le : least ≤ ds.length
  le_most : ds.length ≤ most
  maximal : ds.length = most ∨ NoDigitAhead rest

/-- A run of digits ends where something else stands. -/
theorem takeWhile_isDigit_append {ds rest : List Char} (hds : ∀ d ∈ ds, d.isDigit)
    (hrest : NoDigitAhead rest) : (ds ++ rest).takeWhile Char.isDigit = ds := by
  rw [List.takeWhile_append_of_pos hds]
  cases rest with
  | nil => exact List.append_nil ds
  | cons c cs => rw [List.takeWhile_cons, hrest c rfl]; exact List.append_nil ds

/-- **A reader of numbers reads the number of the digits that it takes**, and leaves the
rest. -/
theorem number?_append {least most : Nat} {ds rest : List Char}
    (h : TakesDigits least most ds rest) :
    number? least most (ds ++ rest) = some (natOfDigits ds, rest) := by
  have htake : ((ds ++ rest).take most).takeWhile Char.isDigit = ds := by
    rw [List.take_append, List.take_of_length_le h.le_most]
    refine takeWhile_isDigit_append h.digits ?_
    rcases h.maximal with hlen | hrest
    · rw [hlen, Nat.sub_self, List.take_zero]
      exact noDigitAhead_nil
    · intro c hc
      rw [List.head?_take] at hc
      split at hc
      · cases hc
      · exact hrest c hc
  simp only [number?]
  rw [htake, if_neg (Nat.not_lt.mpr h.least_le), List.drop_left]

/-- What a reader of numbers reads are digits at the start of the text. -/
theorem exists_of_number? {least most n : Nat} {cs rest : List Char}
    (h : number? least most cs = some (n, rest)) :
    ∃ ds, cs = ds ++ rest ∧ (∀ d ∈ ds, d.isDigit) ∧ least ≤ ds.length ∧ ds.length ≤ most ∧
      natOfDigits ds = n := by
  simp only [number?] at h
  split at h
  · cases h
  · next hlen =>
    obtain ⟨hn, hrest⟩ := Prod.mk.inj (Option.some.inj h)
    have hprefix : (cs.take most).takeWhile Char.isDigit <+: cs :=
      (List.takeWhile_prefix _).trans (List.take_prefix _ _)
    have hmost : ((cs.take most).takeWhile Char.isDigit).length ≤ most :=
      ((List.takeWhile_prefix _).length_le).trans (List.length_take_le _ _)
    refine ⟨_, ?_, fun d hd => List.mem_takeWhile_imp hd, Nat.not_lt.mp hlen, hmost, hn⟩
    rw [← hrest]
    exact (List.prefix_iff_eq_append.mp hprefix).symm

/-- **What a reader of numbers reads**: as many digits as it may take. -/
theorem number?_eq_some_iff {least most n : Nat} {cs rest : List Char} :
    number? least most cs = some (n, rest) ↔
      ∃ ds, cs = ds ++ rest ∧ TakesDigits least most ds rest ∧ natOfDigits ds = n := by
  constructor
  · intro h
    obtain ⟨ds, rfl, hdigits, hleast, hmost, hn⟩ := exists_of_number? h
    refine ⟨ds, rfl, ⟨hdigits, hleast, hmost, ?_⟩, hn⟩
    by_contra hends
    obtain ⟨hlen, hahead⟩ := not_or.mp hends
    -- a digit ahead would have been taken as well
    obtain ⟨c, rest, rfl, hc⟩ : ∃ c rest', rest = c :: rest' ∧ c.isDigit := by
      simp only [NoDigitAhead, not_forall, Bool.not_eq_false] at hahead
      obtain ⟨c, hhead, hc⟩ := hahead
      obtain ⟨rest', rfl⟩ := List.head?_eq_some_iff.mp hhead
      exact ⟨c, rest', rfl, hc⟩
    obtain ⟨k, hk⟩ := Nat.exists_eq_add_of_lt (Nat.lt_of_le_of_ne hmost hlen)
    have htake : (ds ++ c :: rest).take most = ds ++ c :: rest.take k := by
      rw [List.take_append, List.take_of_length_le hmost, hk, Nat.add_assoc,
        Nat.add_sub_cancel_left, List.take_succ_cons]
    have hrun : ((ds ++ c :: rest).take most).takeWhile Char.isDigit =
        ds ++ c :: (rest.take k).takeWhile Char.isDigit := by
      rw [htake, List.takeWhile_append_of_pos hdigits, List.takeWhile_cons, if_pos hc]
    simp only [number?, hrun] at h
    split at h
    · cases h
    · have hrest := congrArg List.length (Prod.mk.inj (Option.some.inj h)).2
      simp only [List.length_drop, List.length_append, List.length_cons] at hrest
      omega
  · rintro ⟨ds, rfl, hds, rfl⟩
    exact number?_append hds

/-- A reader that asks for fewer digits reads as much. -/
theorem number?_of_le {least least' most : Nat} {cs : List Char} {r : Nat × List Char}
    (hle : least' ≤ least) (h : number? least most cs = some r) :
    number? least' most cs = some r := by
  simp only [number?] at h ⊢
  split at h
  · cases h
  · next hlen => rw [if_neg fun hlt => hlen (Nat.lt_of_lt_of_le hlt hle)]; exact h

/-- A number does not start with anything but a digit. -/
theorem number?_cons_of_not {least most : Nat} (hleast : 0 < least) {c : Char}
    (hc : c.isDigit = false) (cs : List Char) : number? least most (c :: cs) = none := by
  have htake : ((c :: cs).take most).takeWhile Char.isDigit = [] := by
    cases most with
    | zero => rfl
    | succ most => rw [List.take_succ_cons, List.takeWhile_cons, hc]; rfl
  simp only [number?, htake, List.length_nil, if_pos hleast]

/-- A number of any length is all the digits at the start of the text. -/
theorem anyNumber?_eq_some_iff {n : Nat} {cs rest : List Char} :
    anyNumber? cs = some (n, rest) ↔
      ∃ ds, cs = ds ++ rest ∧ (∀ d ∈ ds, d.isDigit) ∧ ds ≠ [] ∧ NoDigitAhead rest ∧
        natOfDigits ds = n := by
  rw [anyNumber?, number?_eq_some_iff]
  constructor
  · rintro ⟨ds, rfl, hds, rfl⟩
    refine ⟨ds, rfl, hds.digits, List.ne_nil_of_length_pos hds.least_le, ?_, rfl⟩
    rcases hds.maximal with hlen | hahead
    · rw [List.length_append, Nat.left_eq_add] at hlen
      rw [List.eq_nil_of_length_eq_zero hlen]
      exact noDigitAhead_nil
    · exact hahead
  · rintro ⟨ds, rfl, hdigits, hne, hahead, rfl⟩
    refine ⟨ds, rfl, ⟨hdigits, List.length_pos_iff.mpr hne, ?_, .inr hahead⟩, rfl⟩
    rw [List.length_append]
    exact Nat.le_add_right _ _

/-- All digits at the start are taken. -/
theorem noDigitAhead_spanDigits (cs : List Char) : NoDigitAhead (spanDigits cs).2 := by
  intro c hc
  have hstop := List.head?_dropWhile_not Char.isDigit cs
  change (cs.dropWhile Char.isDigit).head? = some c at hc
  rw [hc] at hstop
  exact hstop

/-- A number of any digits starts with one. -/
theorem exists_digit_cons {ds : List Char} (hpos : 1 ≤ ds.length) (hds : ∀ d ∈ ds, d.isDigit) :
    ∃ d ds', ds = d :: ds' ∧ d.isDigit := by
  obtain ⟨d, ds', rfl⟩ := List.exists_cons_of_length_pos hpos
  exact ⟨d, ds', rfl, hds d List.mem_cons_self⟩

/-! ## Values -/

/-- Behind more digits, digits are worth powers of ten more. -/
theorem natOfDigits_append (ds es : List Char) :
    natOfDigits (ds ++ es) = 10 ^ es.length * natOfDigits ds + natOfDigits es := by
  change Nat.ofDigitChars 10 (ds ++ es) 0 = _
  rw [Nat.ofDigitChars_append, Nat.ofDigitChars_eq_ofDigitChars_zero]
  rfl

/-- So many digits denote less than that power of ten. -/
theorem natOfDigits_lt {ds : List Char} (h : ∀ d ∈ ds, d.isDigit) :
    natOfDigits ds < 10 ^ ds.length := by
  induction ds with
  | nil => decide
  | cons d ds ih =>
    have hd := Char.isDigit_iff_toNat.mp (h d List.mem_cons_self)
    have hvalue : natOfDigits [d] ≤ 9 := by
      change 10 * 0 + (d.toNat - '0'.toNat) ≤ 9
      have h0 : '0'.toNat = 48 := rfl
      have h9 : '9'.toNat = 57 := rfl
      omega
    have hrest := ih fun e he => h e (List.mem_cons_of_mem d he)
    calc natOfDigits (d :: ds) = 10 ^ ds.length * natOfDigits [d] + natOfDigits ds :=
          natOfDigits_append [d] ds
      _ < 10 ^ ds.length * 9 + 10 ^ ds.length :=
          Nat.add_lt_add_of_le_of_lt (Nat.mul_le_mul_left _ hvalue) hrest
      _ = 10 ^ (d :: ds).length := by rw [List.length_cons, Nat.pow_succ]; ring

/-! ## Writing -/

/-- A number with at least so many digits, with zeros before it if need be. -/
def padded (width n : Nat) : List Char :=
  (Nat.toDigits 10 n).leftpad width '0'

theorem isDigit_of_mem_padded {width n : Nat} {d : Char} (h : d ∈ padded width n) : d.isDigit := by
  rcases List.mem_append.mp h with h | h
  · rw [(List.mem_replicate.mp h).2]
    decide
  · exact Nat.isDigit_of_mem_toDigits (by decide) (by decide) h

theorem length_padded {width n : Nat} (hwidth : 0 < width) (h : n < 10 ^ width) :
    (padded width n).length = width := by
  rw [padded, List.length_leftpad]
  exact Nat.max_eq_left ((Nat.length_toDigits_le_iff (by decide) hwidth).mpr h)

/-- The digits that a number is written with denote it. -/
theorem natOfDigits_padded (width n : Nat) : natOfDigits (padded width n) = n := by
  change Nat.ofDigitChars 10 (padded width n) 0 = n
  rw [padded, List.leftpad, Nat.ofDigitChars_append, Nat.ofDigitChars_replicate_zero,
    Nat.mul_zero, Nat.ofDigitChars_ten_toDigits]

/-- A number that is wide enough is written as it is. -/
theorem padded_eq_toDigits {width n : Nat} (hwidth : 0 < width) (h : 10 ^ width ≤ n) :
    padded (width + 1) n = Nat.toDigits 10 n := by
  have hlen : width + 1 ≤ (Nat.toDigits 10 n).length := by
    have := (Nat.length_toDigits_le_iff (b := 10) (by decide) hwidth).not.mpr (Nat.not_lt.mpr h)
    omega
  rw [padded, List.leftpad, Nat.sub_eq_zero_of_le hlen]
  rfl

/-- A number that is written with the width of its reader is taken whole. -/
theorem takesDigits_padded {width n : Nat} (hwidth : 0 < width) (h : n < 10 ^ width)
    (rest : List Char) : TakesDigits width width (padded width n) rest where
  digits _ := isDigit_of_mem_padded
  least_le := (length_padded hwidth h).ge
  le_most := (length_padded hwidth h).le
  maximal := .inl (length_padded hwidth h)

/-- **A number that is written with a fixed width is read back**, whatever follows. -/
theorem number?_padded {width n : Nat} (hwidth : 0 < width) (h : n < 10 ^ width)
    (rest : List Char) : number? width width (padded width n ++ rest) = some (n, rest) := by
  rw [number?_append (takesDigits_padded hwidth h rest), natOfDigits_padded]

/-- Digits of the same number are the same, if they are as many. -/
theorem eq_of_natOfDigits_eq {ds es : List Char} (hds : ∀ d ∈ ds, d.isDigit)
    (hes : ∀ e ∈ es, e.isDigit) (hlen : ds.length = es.length)
    (h : natOfDigits ds = natOfDigits es) : ds = es := by
  induction ds generalizing es with
  | nil => exact (List.eq_nil_of_length_eq_zero hlen.symm).symm
  | cons d ds ih =>
    obtain ⟨e, es, rfl⟩ := List.exists_cons_of_length_pos (Nat.lt_of_lt_of_eq (Nat.succ_pos _) hlen)
    have hd := Char.isDigit_iff_toNat.mp (hds d List.mem_cons_self)
    have he := Char.isDigit_iff_toNat.mp (hes e List.mem_cons_self)
    have hds' : ∀ d ∈ ds, d.isDigit := fun d' hd' => hds d' (List.mem_cons_of_mem d hd')
    have hes' : ∀ e ∈ es, e.isDigit := fun e' he' => hes e' (List.mem_cons_of_mem e he')
    have hlen' : ds.length = es.length := Nat.succ.inj hlen
    have hvalue : ∀ c : Char, natOfDigits [c] = c.toNat - '0'.toNat := by
      intro c
      show 10 * 0 + (c.toNat - '0'.toNat) = _
      rw [Nat.mul_zero, Nat.zero_add]
    have hlow := natOfDigits_lt hds'
    have hlow' := natOfDigits_lt hes'
    rw [← List.singleton_append, ← List.singleton_append (l := es), natOfDigits_append,
      natOfDigits_append, hvalue, hvalue, hlen'] at h
    rw [hlen'] at hlow
    have hpos : 0 < 10 ^ es.length := Nat.pow_pos (by decide)
    have hfirst : d.toNat - '0'.toNat = e.toNat - '0'.toNat := by
      have hdiv := congrArg (· / 10 ^ es.length) h
      simpa only [Nat.mul_add_div hpos, Nat.div_eq_of_lt hlow, Nat.div_eq_of_lt hlow',
        Nat.add_zero] using hdiv
    have hchar : d = e := by
      have h0 : '0'.toNat = 48 := rfl
      exact Char.toNat_inj.mp (by omega)
    rw [hfirst] at h
    rw [hchar, ih hds' hes' hlen' (Nat.add_left_cancel h)]

/-- Digits of full width are what their number is written with. -/
theorem eq_padded {width : Nat} {ds : List Char} (hwidth : 0 < width)
    (hds : ∀ d ∈ ds, d.isDigit) (hlen : ds.length = width) :
    natOfDigits ds < 10 ^ width ∧ ds = padded width (natOfDigits ds) := by
  have hlt : natOfDigits ds < 10 ^ width := hlen ▸ natOfDigits_lt hds
  refine ⟨hlt, eq_of_natOfDigits_eq hds (fun _ => isDigit_of_mem_padded) ?_ ?_⟩
  · rw [length_padded hwidth hlt, hlen]
  · rw [natOfDigits_padded]

/-- A reader of numbers of a fixed width reads just the numbers written with it. -/
theorem number?_eq_some_iff_padded {width n : Nat} (hwidth : 0 < width) {cs rest : List Char} :
    number? width width cs = some (n, rest) ↔ n < 10 ^ width ∧ cs = padded width n ++ rest := by
  constructor
  · intro h
    obtain ⟨ds, rfl, hdigits, hleast, hmost, rfl⟩ := exists_of_number? h
    obtain ⟨hlt, hds⟩ := eq_padded hwidth hdigits (Nat.le_antisymm hmost hleast)
    exact ⟨hlt, congrArg (· ++ rest) hds⟩
  · rintro ⟨hn, rfl⟩
    exact number?_padded hwidth hn rest

end Text

end Conform
