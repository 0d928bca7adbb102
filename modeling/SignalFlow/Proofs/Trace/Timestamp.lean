import Mathlib.Tactic.SplitIfs
import SignalFlow.Trace.Timestamp
/-!
# Timestamps survive their text

* `Timestamp.Valid`            a moment of the calendar, a leap second included;
* `Timestamp.ofText?_text`     the text of a valid timestamp reads back as that timestamp;
* `Timestamp.valid_of_ofText?` whatever is read is valid, also behind an offset that leads to another
                               day, month or year.

A number is written with zeros in front and read up to a character that is no digit, so each field of
the text is read by one lemma (`number?_padded`), whatever stands behind it.
-/

namespace SignalFlow

namespace Timestamp

/-! ## the calendar -/

/-- a day of the calendar continued in both directions, and a time on it -/
structure InCalendar (t : Timestamp) : Prop where
  month : 1 ≤ t.month ∧ t.month ≤ 12
  day : 1 ≤ t.day ∧ t.day ≤ daysIn t.year t.month
  hour : t.hour < 24
  minute : t.minute < 60
  second : t.second ≤ 60
  nanosecond : t.nanosecond < 1000000000

/-- a moment of a year that is told apart -/
structure Valid (t : Timestamp) : Prop extends InCalendar t where
  year : yearInRange t.year = true

theorem isDate_iff {year : Int} {month day : Nat} :
    isDate year month day = true ↔
      yearInRange year = true ∧ (1 ≤ month ∧ month ≤ 12) ∧ 1 ≤ day ∧ day ≤ daysIn year month := by
  simp only [isDate, Bool.and_eq_true, decide_eq_true_eq, and_assoc]

theorem le_daysIn (year : Int) (month : Nat) : 28 ≤ daysIn year month := by
  unfold daysIn
  split_ifs <;> decide

theorem daysIn_le (year : Int) (month : Nat) : daysIn year month ≤ 31 := by
  unfold daysIn
  split_ifs <;> decide

section
variable {t : Timestamp}

theorem InCalendar.dayAfter (h : t.InCalendar) : t.dayAfter.InCalendar := by
  unfold Timestamp.dayAfter
  split
  · next before => exact { h with day := ⟨Nat.succ_pos _, before⟩ }
  · have first (year : Int) (month : Nat) : 1 ≤ 1 ∧ 1 ≤ daysIn year month :=
      ⟨Nat.le_refl 1, Nat.le_trans (by decide) (le_daysIn year month)⟩
    split
    · next before => exact { h with month := ⟨Nat.succ_pos _, before⟩, day := first _ _ }
    · exact { h with month := ⟨Nat.le_refl 1, Nat.le_add_left 1 11⟩, day := first _ _ }

theorem InCalendar.dayBefore (h : t.InCalendar) : t.dayBefore.InCalendar := by
  unfold Timestamp.dayBefore
  split
  · next after =>
    exact { h with day := ⟨Nat.le_sub_one_of_lt after, Nat.le_trans (Nat.sub_le _ _) h.day.2⟩ }
  · split
    · next after =>
      have last : 1 ≤ daysIn t.year (t.month - 1) :=
        Nat.le_trans (by decide) (le_daysIn t.year (t.month - 1))
      exact { h with
        month := ⟨Nat.le_sub_one_of_lt after, Nat.le_trans (Nat.sub_le _ _) h.month.2⟩
        day := ⟨last, Nat.le_refl _⟩ }
    · exact { h with
        month := ⟨Nat.le_add_left 1 11, Nat.le_refl 12⟩, day := ⟨Nat.le_add_left 1 30, Nat.le_refl 31⟩ }

theorem InCalendar.ofLocal (h : t.InCalendar) (minutesAhead : Int) :
    (t.ofLocal minutesAhead).InCalendar := by
  unfold Timestamp.ofLocal
  extract_lets minutes within moved
  have inside : within < 1440 := by omega
  have there : moved.InCalendar :=
    { h with hour := show within / 60 < 24 by omega, minute := show within % 60 < 60 by omega }
  split
  · exact there.dayBefore
  · split
    · exact there.dayAfter
    · exact there

theorem InCalendar.ofLocal_zero (h : t.InCalendar) : t.ofLocal 0 = t := by
  have := h.hour
  have := h.minute
  unfold Timestamp.ofLocal
  extract_lets minutes within moved
  have hour : within / 60 = t.hour := by omega
  have minute : within % 60 = t.minute := by omega
  have same : moved = t := by
    show { t with hour := within / 60, minute := within % 60 } = t
    rw [hour, minute]
  rw [if_neg (by omega), if_neg (by omega), same]

end

/-! ## numbers -/

theorem isDigit_padded {width n : Nat} {c : Char} (h : c ∈ padded width n) : c.isDigit = true := by
  rcases List.mem_append.mp h with zero | digit
  · rw [List.eq_of_mem_replicate zero]
    rfl
  · exact Nat.isDigit_of_mem_toDigits (by decide) (by decide) digit

theorem padded_ne_nil (width n : Nat) : padded width n ≠ [] :=
  List.append_ne_nil_of_right_ne_nil _ (List.ne_nil_of_length_pos Nat.length_toDigits_pos)

theorem valueOf_padded (width n : Nat) : valueOf (padded width n) = n := by
  show Nat.ofDigitChars 10 _ 0 = n
  rw [padded, Nat.ofDigitChars_append, Nat.ofDigitChars_replicate_zero, Nat.mul_zero,
    Nat.ofDigitChars_toDigits (by decide) (by decide)]

theorem length_padded {width n : Nat} (positive : 0 < width) (fits : n < Nat.pow 10 width) :
    (padded width n).length = width := by
  have short := (Nat.length_toDigits_le_iff (b := 10) (by decide) positive).mpr fits
  simp only [padded, List.length_append, List.length_replicate]
  omega

theorem number?_padded {width : Nat} (w n : Nat) {rest : List Char}
    (room : (padded w n).length ≤ width) (stop : rest.takeWhile Char.isDigit = []) :
    number? width (padded w n ++ rest) = some (n, rest) := by
  have digits : ((padded w n ++ rest).take width).takeWhile Char.isDigit = padded w n := by
    rw [← List.take_takeWhile, List.takeWhile_append_of_pos fun c => isDigit_padded, stop,
      List.append_nil, List.take_of_length_le room]
  have filled : (padded w n).isEmpty = false := List.isEmpty_eq_false_iff.mpr (padded_ne_nil w n)
  simp only [number?, digits, filled, valueOf_padded, List.drop_left]
  rfl

/-- what is read as a number are digits, no more than there was room for -/
theorem digits_of_number? {width n : Nat} {cs rest : List Char}
    (read : number? width cs = some (n, rest)) :
    ∃ digits : List Char, digits.length ≤ width ∧ (∀ c ∈ digits, c.isDigit = true) ∧
      cs = digits ++ rest ∧ n = valueOf digits := by
  simp only [number?, Option.ite_none_left_eq_some, Option.some.injEq, Prod.mk.injEq] at read
  obtain ⟨-, rfl, rfl⟩ := read
  have front : (cs.take width).takeWhile Char.isDigit <+: cs :=
    (List.takeWhile_prefix _).trans (List.take_prefix _ _)
  exact ⟨_, Nat.le_trans (List.takeWhile_prefix _).length_le (List.length_take_le _ _),
    List.all_eq_true.mp List.all_takeWhile, (List.prefix_iff_eq_append.mp front).symm, rfl⟩

theorem valueOf_lt {digits : List Char} (h : ∀ c ∈ digits, c.isDigit = true) :
    valueOf digits < Nat.pow 10 digits.length := by
  have behind (before : Nat) :
      Nat.ofDigitChars 10 digits before < (before + 1) * 10 ^ digits.length := by
    induction digits generalizing before with
    | nil => simp
    | cons c digits ih =>
      obtain ⟨first, others⟩ := List.forall_mem_cons.mp h
      have small : c.toNat - '0'.toNat ≤ 9 := by
        have := (Char.isDigit_iff_toNat.mp first).2
        exact Nat.sub_le_sub_right this _
      rw [Nat.ofDigitChars_cons, List.length_cons, Nat.pow_succ']
      calc Nat.ofDigitChars 10 digits (10 * before + (c.toNat - '0'.toNat))
          < (10 * before + (c.toNat - '0'.toNat) + 1) * 10 ^ digits.length := ih others _
        _ ≤ ((before + 1) * 10) * 10 ^ digits.length := Nat.mul_le_mul_right _ (by omega)
        _ = (before + 1) * (10 * 10 ^ digits.length) := Nat.mul_assoc _ _ _
  calc valueOf digits < (0 + 1) * 10 ^ digits.length := behind 0
    _ = 10 ^ digits.length := by rw [Nat.zero_add, Nat.one_mul]

/-! ## reading what was written -/

theorem isBlank_of_isDigit {c : Char} (digit : c.isDigit = true) : Text.isBlank c = false := by
  have bounds : 48 ≤ c.toNat ∧ c.toNat ≤ 57 := Char.isDigit_iff_toNat.mp digit
  simp [Text.isBlank, Text.blankRanges]
  omega

theorem trimStart_cons {c : Char} (visible : Text.isBlank c = false) (cs : List Char) :
    Text.trimStart (c :: cs) = c :: cs :=
  List.dropWhile_cons_of_neg (by rw [visible]; exact Bool.false_ne_true)

theorem padded_eq_cons (width n : Nat) :
    ∃ c cs, padded width n = c :: cs ∧ c.isDigit = true := by
  obtain ⟨c, cs, shape⟩ := List.exists_cons_of_ne_nil (padded_ne_nil width n)
  exact ⟨c, cs, shape, isDigit_padded (shape ▸ List.mem_cons_self)⟩

theorem field?_padded {n : Nat} (fits : n < 100) {rest : List Char}
    (stop : rest.takeWhile Char.isDigit = []) :
    field? 2 (padded 2 n ++ rest) = some (n, rest) := by
  obtain ⟨c, cs, shape, digit⟩ := padded_eq_cons 2 n
  rw [field?, shape, List.cons_append, trimStart_cons (isBlank_of_isDigit digit),
    ← List.cons_append, ← shape,
    number?_padded 2 n (Nat.le_of_eq (length_padded Nat.two_pos fits)) stop]

/-- a year between 0 and 9999 has no sign and takes four digits, any other has one and takes all -/
theorem year?_yearText (year : Int) {rest : List Char} (stop : rest.takeWhile Char.isDigit = []) :
    year? (yearText year ++ rest) = some (year, rest) := by
  unfold yearText
  split
  · next plain =>
    simp only [Bool.and_eq_true, decide_eq_true_eq] at plain
    have read := number?_padded 4 year.toNat
      (Nat.le_of_eq (length_padded (by decide) (by omega : year.toNat < 10 ^ 4))) stop
    obtain ⟨c, cs, shape, digit⟩ := padded_eq_cons 4 year.toNat
    rw [shape, List.cons_append] at read
    rw [year?, shape, List.cons_append, trimStart_cons (isBlank_of_isDigit digit)]
    split
    · next same => cases same; cases digit
    · next same => cases same; cases digit
    · rw [read]
      show some ((year.toNat : Int), rest) = _
      rw [Int.toNat_of_nonneg plain.1]
  · have whole : (padded 4 year.natAbs).length ≤ (padded 4 year.natAbs ++ rest).length := by
      rw [List.length_append]
      exact Nat.le_add_right _ _
    have read := number?_padded 4 year.natAbs whole stop
    split
    · next negative =>
      show (number? (padded 4 year.natAbs ++ rest).length (padded 4 year.natAbs ++ rest)).map _ = _
      rw [read]
      show some (-(year.natAbs : Int), rest) = _
      rw [Int.ofNat_natAbs_of_nonpos (Int.le_of_lt negative), Int.neg_neg]
    · next positive =>
      show (number? (padded 4 year.natAbs ++ rest).length (padded 4 year.natAbs ++ rest)).map _ = _
      rw [read]
      show some ((year.natAbs : Int), rest) = _
      rw [Int.natAbs_of_nonneg (Int.not_lt.mp positive)]

theorem fraction?_padded {w n : Nat} (positive : 0 < w) (few : w ≤ 9) (fits : n < Nat.pow 10 w)
    {rest : List Char} (stop : rest.takeWhile Char.isDigit = []) :
    fraction? ('.' :: (padded w n ++ rest)) = some (n * Nat.pow 10 (9 - w), rest) := by
  have length := length_padded positive fits
  have gone : rest.dropWhile Char.isDigit = rest := by
    have := List.takeWhile_append_dropWhile (p := Char.isDigit) (l := rest)
    rwa [stop] at this
  show (number? 9 (padded w n ++ rest)).map _ = _
  rw [number?_padded w n (Nat.le_trans (Nat.le_of_eq length) few) stop]
  simp only [Option.map_some, gone, List.length_append, Nat.add_sub_cancel, length, Nat.pow_eq]

theorem fraction?_fractionText {nanosecond : Nat} (fits : nanosecond < 1000000000) :
    fraction? (fractionText nanosecond ++ ['Z']) = some (nanosecond, ['Z']) := by
  have read {w n : Nat} (positive : 0 < w) (few : w ≤ 9) (fits : n < 10 ^ w) :
      fraction? ('.' :: (padded w n ++ ['Z'])) = some (n * 10 ^ (9 - w), ['Z']) :=
    fraction?_padded positive few fits rfl
  unfold fractionText
  split_ifs with zero
  · subst zero
    rfl
  -- three, six and nine digits
  all_goals
    rw [List.cons_append, read (by decide) (by decide) (by omega)]
    congr 2
    omega

theorem separator?_cons {c : Char} (visible : Text.isBlank c = false) (cs : List Char) :
    separator? c (c :: cs) = some cs := by
  rw [separator?, trimStart_cons visible]
  exact if_pos rfl

/-- **The text of a timestamp reads back as that timestamp.** -/
theorem ofText?_text {t : Timestamp} (h : t.Valid) : ofText? t.text = some t := by
  have stop {c : Char} (cs : List Char) (other : c.isDigit = false) :
      (c :: cs).takeWhile Char.isDigit = [] := by rw [List.takeWhile_cons, other]; rfl
  have fraction : (fractionText t.nanosecond ++ ['Z']).takeWhile Char.isDigit = [] := by
    unfold fractionText
    split_ifs <;> rfl
  have dateEnd (cs : List Char) : dateEnd? ('T' :: cs) = some cs := rfl
  have day : t.day < 100 := by
    have := h.day.2
    have := daysIn_le t.year t.month
    omega
  have month : t.month < 100 := Nat.lt_of_le_of_lt h.month.2 (by decide)
  have hour : t.hour < 100 := Nat.lt_trans h.hour (by decide)
  have minute : t.minute < 100 := Nat.lt_trans h.minute (by decide)
  have second : t.second < 100 := Nat.lt_of_le_of_lt h.second (by decide)
  have date : isDate t.year t.month t.day = true := isDate_iff.mpr ⟨h.year, h.month, h.day⟩
  have shape : t.text.toList = yearText t.year ++ '-' :: (padded 2 t.month ++ '-' ::
      (padded 2 t.day ++ 'T' :: (padded 2 t.hour ++ ':' :: (padded 2 t.minute ++ ':' ::
        (padded 2 t.second ++ (fractionText t.nanosecond ++ ['Z'])))))) := by
    rw [text, String.toList_ofList]
    simp only [List.append_assoc, List.cons_append]
  unfold ofText?
  refine Option.bind_eq_some_iff.mpr ⟨_, shape ▸ year?_yearText t.year (stop _ rfl), ?_⟩
  refine Option.bind_eq_some_iff.mpr ⟨_, separator?_cons rfl _, ?_⟩
  refine Option.bind_eq_some_iff.mpr ⟨_, field?_padded month (stop _ rfl), ?_⟩
  refine Option.bind_eq_some_iff.mpr ⟨_, separator?_cons rfl _, ?_⟩
  refine Option.bind_eq_some_iff.mpr ⟨_, field?_padded day (stop _ rfl), ?_⟩
  refine Option.bind_eq_some_iff.mpr ⟨_, dateEnd _, ?_⟩
  refine Option.bind_eq_some_iff.mpr ⟨_, field?_padded hour (stop _ rfl), ?_⟩
  refine Option.bind_eq_some_iff.mpr ⟨_, separator?_cons rfl _, ?_⟩
  refine Option.bind_eq_some_iff.mpr ⟨_, field?_padded minute (stop _ rfl), ?_⟩
  refine Option.bind_eq_some_iff.mpr ⟨_, separator?_cons rfl _, ?_⟩
  refine Option.bind_eq_some_iff.mpr ⟨_, field?_padded second fraction, ?_⟩
  refine Option.bind_eq_some_iff.mpr ⟨_, fraction?_fractionText h.nanosecond, ?_⟩
  refine Option.bind_eq_some_iff.mpr ⟨(0, []), rfl, ?_⟩
  show (if _ then if _ then some (t.ofLocal 0) else none else none) = some t
  rw [if_pos, h.ofLocal_zero, if_pos h.year]
  simp only [date, h.hour, h.minute, h.second, decide_true, Bool.true_and]
  rfl

/-! ## what is read is valid -/

theorem lt_of_fraction? {cs rest : List Char} {n : Nat} (read : fraction? cs = some (n, rest)) :
    n < 1000000000 := by
  unfold fraction? at read
  split at read
  · next cs =>
    obtain ⟨⟨m, behind⟩, first, same⟩ := Option.map_eq_some_iff.mp read
    obtain ⟨digits, few, all, rfl, rfl⟩ := digits_of_number? first
    have length : (digits ++ behind).length - behind.length = digits.length := by
      rw [List.length_append, Nat.add_sub_cancel]
    cases same
    rw [length]
    calc valueOf digits * 10 ^ (9 - digits.length)
        < 10 ^ digits.length * 10 ^ (9 - digits.length) :=
          Nat.mul_lt_mul_of_pos_right (valueOf_lt all) (Nat.pow_pos (by decide))
      _ = 10 ^ 9 := by rw [← Nat.pow_add, Nat.add_sub_cancel' few]
  · cases read
    decide

/-- **Whatever is read is a moment of the calendar.** -/
theorem valid_of_ofText? {s : String} {t : Timestamp} (read : ofText? s = some t) : t.Valid := by
  unfold ofText? at read
  obtain ⟨⟨year, _⟩, -, read⟩ := Option.bind_eq_some_iff.mp read
  obtain ⟨_, -, read⟩ := Option.bind_eq_some_iff.mp read
  obtain ⟨⟨month, _⟩, -, read⟩ := Option.bind_eq_some_iff.mp read
  obtain ⟨_, -, read⟩ := Option.bind_eq_some_iff.mp read
  obtain ⟨⟨day, _⟩, -, read⟩ := Option.bind_eq_some_iff.mp read
  obtain ⟨_, -, read⟩ := Option.bind_eq_some_iff.mp read
  obtain ⟨⟨hour, _⟩, -, read⟩ := Option.bind_eq_some_iff.mp read
  obtain ⟨_, -, read⟩ := Option.bind_eq_some_iff.mp read
  obtain ⟨⟨minute, _⟩, -, read⟩ := Option.bind_eq_some_iff.mp read
  obtain ⟨_, -, read⟩ := Option.bind_eq_some_iff.mp read
  obtain ⟨⟨second, _⟩, -, read⟩ := Option.bind_eq_some_iff.mp read
  obtain ⟨⟨nanosecond, _⟩, fraction, read⟩ := Option.bind_eq_some_iff.mp read
  obtain ⟨⟨ahead, _⟩, -, read⟩ := Option.bind_eq_some_iff.mp read
  simp only [Option.ite_none_right_eq_some, Bool.and_eq_true, decide_eq_true_eq] at read
  obtain ⟨⟨⟨⟨⟨date, hours⟩, minutes⟩, seconds⟩, -⟩, inRange, same⟩ := read
  obtain ⟨-, months, days⟩ := isDate_iff.mp date
  cases same
  exact { (InCalendar.ofLocal ⟨months, days, hours, minutes, seconds, lt_of_fraction? fraction⟩
    ahead) with year := inRange }

end Timestamp

end SignalFlow
