import XmlBinding.Value.Calendar
import XmlBinding.Proofs.Value.Numerals
import Mathlib.Algebra.Ring.Nat

/-! # Dates and times are read as they are written

One pattern drives reading and writing, so that each field reads back what it wrote, provided that
the text goes on with something that is no digit.
-/
namespace XmlBinding.Value
open Text

theorem valueOfDigits_eq (digits : List Char) :
    valueOfDigits digits = Nat.ofDigitChars 10 digits 0 := by
  have hstep : (fun (n : Nat) c => n * 10 + digitValue c) =
      fun n c => 10 * n + (c.toNat - '0'.toNat) := by
    funext n c
    rw [Nat.mul_comm]
    rfl
  rw [valueOfDigits, Nat.ofDigitChars_eq_foldl, hstep]

/-- Text that does not go on with a digit. -/
def NoDigit (rest : List Char) : Prop := rest.head?.all (!·.isDigit) = true

theorem takeNumber_append {digits : List Char} (hd : ∀ c ∈ digits, c.isDigit = true)
    (hne : digits ≠ []) {most : Option Nat} (hlen : ∀ n ∈ most, digits.length ≤ n)
    {rest : List Char} (hr : NoDigit rest) :
    takeNumber most (digits ++ rest) = .ok (digits, rest) := by
  obtain ⟨c, cs, rfl⟩ := List.exists_cons_of_ne_nil hne
  have hrun : (c :: cs ++ rest).takeWhile Char.isDigit = c :: cs := by
    rw [List.takeWhile_append_of_pos hd]
    cases rest with
    | nil => simp
    | cons d rest =>
      have hdigit : d.isDigit = false := by simpa [NoDigit] using hr
      simp [hdigit]
  have hc : c.isDigit = true := hd c List.mem_cons_self
  rw [List.cons_append] at hrun ⊢
  simp only [takeNumber, hc, hrun, Bool.not_true, Bool.false_eq_true, if_false]
  cases most with
  | none => simp
  | some n =>
    have htake := List.take_of_length_le (hlen n rfl)
    simp [htake]

/-- The digits of a number behind as many zeros as make up a width. -/
def padded (width n : Nat) : List Char :=
  List.replicate (width - (Nat.toDigits 10 n).length) '0' ++ Nat.toDigits 10 n

section
variable (width n : Nat)

theorem valueOfDigits_padded : valueOfDigits (padded width n) = n := by
  rw [valueOfDigits_eq, padded, Nat.ofDigitChars_append, Nat.ofDigitChars_replicate_zero,
    Nat.mul_zero, Nat.ofDigitChars_toDigits (by decide) (by decide)]

theorem isDigit_padded {c : Char} (hc : c ∈ padded width n) : c.isDigit = true := by
  rcases List.mem_append.mp hc with hc | hc
  · rw [List.eq_of_mem_replicate hc]
    decide
  · exact Nat.isDigit_of_mem_toDigits (by decide) (by decide) hc

theorem exists_padded_eq_cons : ∃ c cs, padded width n = c :: cs ∧ c.isDigit = true := by
  have hne : padded width n ≠ [] := by simp [padded, Nat.toDigits_ne_nil]
  obtain ⟨c, cs, hc⟩ := List.exists_cons_of_ne_nil hne
  exact ⟨c, cs, hc, isDigit_padded width n (hc ▸ List.mem_cons_self)⟩

variable {width n}

theorem length_padded_le (hw : 0 < width) (h : n < 10 ^ width) :
    (padded width n).length ≤ width := by
  have hlen := (Nat.length_toDigits_le_iff (by decide) hw).mpr h
  rw [padded, List.length_append, List.length_replicate]
  omega

theorem takeNumber_padded {most : Option Nat} (hlen : ∀ k ∈ most, (padded width n).length ≤ k)
    {rest : List Char} (hr : NoDigit rest) :
    takeNumber most (padded width n ++ rest) = .ok (padded width n, rest) := by
  obtain ⟨c, cs, hc, -⟩ := exists_padded_eq_cons width n
  exact takeNumber_append (fun d hd => isDigit_padded width n hd) (by simp [hc]) hlen hr

theorem dropWhile_isBlank_padded (rest : List Char) :
    (padded width n ++ rest).dropWhile isBlank = padded width n ++ rest := by
  obtain ⟨c, cs, hc, hdigit⟩ := exists_padded_eq_cons width n
  simp [hc, not_isBlank_of_isDigit hdigit]

end

/-- Beyond the years of four digits there is a sign. -/
def yearSign (year : Int) : List Char :=
  if year < 0 then ['-'] else if 9999 < year then ['+'] else []

theorem yearText_eq (year : Int) : yearText year = yearSign year ++ padded 4 year.natAbs :=
  List.append_assoc ..

/-- The same moment with one field taken from another. -/
def Moment.adopt (m other : Moment) : CalendarPart → Moment
  | .year => { m with year := other.year }
  | .month => { m with month := other.month }
  | .day => { m with day := other.day }
  | .hour => { m with hour := other.hour }
  | .minute => { m with minute := other.minute }
  | .second => { m with second := other.second }

/-- The fields stay within what a text can say. -/
structure Moment.Sayable (m : Moment) : Prop where
  year : -(yearLimit : Int) < m.year ∧ m.year < yearLimit
  month : 1 ≤ m.month ∧ m.month ≤ 12
  day : 1 ≤ m.day ∧ m.day ≤ 31

section
variable {m other : Moment} {rest : List Char}

theorem readYear_unsigned {digits : List Char} {c : Char} {cs : List Char} (hc : digits = c :: cs)
    (hdigit : c.isDigit = true) :
    readYear digits m = (do
      let (digits, rest) ← takeNumber (some 4) digits
      let year : Int := valueOfDigits digits
      if year < -(yearLimit : Int) ∨ (yearLimit : Int) ≤ year then .error .outOfRange
      else .ok ({ m with year }, rest)) := by
  subst hc
  have hsign {d : Char} (hd : d.isDigit = false) (r : List Char) : c :: cs ≠ d :: r := by
    rintro ⟨⟩
    simp [hd] at hdigit
  rw [readYear]
  · rfl
  · exact hsign (by decide)
  · exact hsign (by decide)

theorem readYear_yearText (h : other.Sayable) (hr : NoDigit rest) :
    readYear (yearText other.year ++ rest) m = .ok ({ m with year := other.year }, rest) := by
  obtain ⟨hlow, hhigh⟩ := h.year
  have hrange : ¬ (other.year < -(yearLimit : Int) ∨ (yearLimit : Int) ≤ other.year) := by omega
  have hvalue := valueOfDigits_padded 4 other.year.natAbs
  rw [yearText_eq, List.append_assoc, yearSign]
  by_cases hneg : other.year < 0
  · -- the sign lets the year have any number of digits
    have habs : -(other.year.natAbs : Int) = other.year := by omega
    have htake := @takeNumber_padded 4 other.year.natAbs none (by simp) _ hr
    simp only [if_pos hneg, List.singleton_append, readYear, htake, bind, Except.bind, hvalue,
      if_true, habs, if_neg hrange]
  · have habs : (other.year.natAbs : Int) = other.year := by omega
    by_cases hlarge : 9999 < other.year
    · have htake := @takeNumber_padded 4 other.year.natAbs none (by simp) _ hr
      simp only [if_neg hneg, if_pos hlarge, List.singleton_append, readYear, htake, bind,
        Except.bind, hvalue, Bool.false_eq_true, if_false, habs, if_neg hrange]
    · have hfour := @length_padded_le 4 other.year.natAbs (by decide) (by omega)
      have htake := @takeNumber_padded _ _ (some 4) (by simpa using hfour) _ hr
      obtain ⟨c, cs, hc, hdigit⟩ := exists_padded_eq_cons 4 other.year.natAbs
      have hcons : padded 4 other.year.natAbs ++ rest = c :: (cs ++ rest) := by rw [hc]; rfl
      simp only [if_neg hneg, if_neg hlarge, List.nil_append, readYear_unsigned hcons hdigit, htake,
        bind, Except.bind, hvalue, habs, if_neg hrange]

theorem dropWhile_isBlank_yearText (year : Int) (rest : List Char) :
    (yearText year ++ rest).dropWhile isBlank = yearText year ++ rest := by
  rw [yearText_eq, List.append_assoc, yearSign]
  split
  · rfl
  · split
    · rfl
    · exact dropWhile_isBlank_padded rest

theorem readField_padded {f : CalendarPart} (hf : f ≠ .year) {n : Nat} (hn : n < 100) {m' : Moment}
    (hset : m.set f n = some m') (hr : NoDigit rest) :
    readField f (padded 2 n ++ rest) m = .ok (m', rest) := by
  have htwo : (padded 2 n).length ≤ 2 := length_padded_le (by decide) hn
  have htake := @takeNumber_padded _ _ (some 2) (by simpa using htwo) _ hr
  rw [readField]
  · simp only [dropWhile_isBlank_padded, htake, bind, Except.bind, valueOfDigits_padded, hset]
  · exact hf

theorem readField_fieldText (h : other.Sayable) (f : CalendarPart) (hr : NoDigit rest) :
    readField f (other.fieldText f ++ rest) m = .ok (m.adopt other f, rest) := by
  cases f with
  | year =>
    rw [readField]
    simp only [Moment.fieldText, dropWhile_isBlank_yearText]
    exact readYear_yearText h hr
  | month =>
    have hmonth := h.month
    exact readField_padded (by simp) (by omega) (if_pos hmonth) hr
  | day =>
    have hday := h.day
    exact readField_padded (by simp) (by omega) (if_pos hday) hr
  | hour => exact readField_padded (by simp) (by omega) (dif_pos other.hour.isLt) hr
  | minute => exact readField_padded (by simp) (by omega) (dif_pos other.minute.isLt) hr
  | second => exact readField_padded (by simp) (by omega) (dif_pos other.second.isLt) hr

/-- What reading a pattern takes from another moment. -/
def Moment.adoptAll (m other : Moment) : Pattern → Moment
  | [] => m
  | .field f :: p => (m.adopt other f).adoptAll other p
  | _ :: p => m.adoptAll other p

/-- Fields stand apart, and a fraction stands at the end behind a field. -/
def Pattern.Spaced : Pattern → Prop
  | [] => True
  | .field _ :: .field _ :: _ => False
  | .fraction :: _ :: _ => False
  | .mark c :: p => c.isDigit = false ∧ Spaced p
  | _ :: p => Spaced p

theorem Pattern.Spaced.tail {item : PatternItem} {p : Pattern} (h : Spaced (item :: p)) :
    Pattern.Spaced p := by
  match item, p, h with
  | .mark _, _, h => exact h.2
  | .field _, [], _ => trivial
  | .field _, .mark _ :: _, h => exact h
  | .field _, [.fraction], _ => trivial
  | .fraction, [], _ => trivial

theorem Pattern.noDigit_write {f : CalendarPart} {p : Pattern} (h : Spaced (.field f :: p)) :
    NoDigit (write p other) := by
  match p, h with
  | [], _ => rfl
  | .mark c :: p, h =>
    have hc : c.isDigit = false := h.1
    simp [NoDigit, write, hc]
  | [.fraction], _ => rfl

theorem Pattern.write_field (f : CalendarPart) (p : Pattern) (m : Moment) :
    write (.field f :: p) m = m.fieldText f ++ write p m := List.flatMap_cons

theorem Pattern.write_append (p q : Pattern) (m : Moment) :
    write (p ++ q) m = p.write m ++ write q m := List.flatMap_append

theorem Pattern.write_mark (c : Char) (p : Pattern) (m : Moment) :
    write (.mark c :: p) m = c :: write p m := List.flatMap_cons

/-- What is written by a pattern is read by it, but for fractions. -/
theorem Pattern.read_write (h : other.Sayable) : ∀ {p : Pattern} (m : Moment), p.Spaced →
    p.read (p.write other) m = .ok (m.adoptAll other p)
  | [], _, _ => rfl
  | .field f :: p, m, hp => by
    rw [write_field, read, readItem, readField_fieldText h f (noDigit_write hp)]
    exact read_write h (m.adopt other f) hp.tail
  | .mark c :: p, m, hp => by
    rw [write_mark, read, readItem, if_pos rfl]
    exact read_write h m hp.tail
  | [.fraction], _, _ => rfl

end

/-- The characters of dates and times. -/
def isCalendarChar (c : Char) : Bool := c.isDigit || ['-', '+', ':', 'T'].contains c

/-- What separates fields is of these characters as well. -/
def PatternItem.isCalendar : PatternItem → Bool
  | .mark c => isCalendarChar c
  | _ => true

theorem isCalendarChar_padded {width n : Nat} {c : Char} (hc : c ∈ padded width n) :
    isCalendarChar c = true := by
  rw [isCalendarChar, isDigit_padded width n hc, Bool.true_or]

theorem all_isCalendarChar_yearSign (year : Int) : (yearSign year).all isCalendarChar = true := by
  rw [yearSign]
  split
  · rfl
  · split <;> rfl

theorem isCalendarChar_fieldText (m : Moment) {f : CalendarPart} {c : Char}
    (hc : c ∈ m.fieldText f) : isCalendarChar c = true := by
  cases f with
  | year =>
    rw [Moment.fieldText, yearText_eq, List.mem_append] at hc
    rcases hc with hc | hc
    · exact List.all_eq_true.mp (all_isCalendarChar_yearSign m.year) c hc
    · exact isCalendarChar_padded hc
  | _ => exact isCalendarChar_padded hc

theorem isCalendarChar_write (m : Moment) {p : Pattern} (hp : p.all PatternItem.isCalendar = true)
    {c : Char} (hc : c ∈ p.write m) : isCalendarChar c = true := by
  obtain ⟨item, hitem, hc⟩ := List.mem_flatMap.mp hc
  cases item with
  | field f => exact isCalendarChar_fieldText m hc
  | mark d => exact List.mem_singleton.mp hc ▸ List.all_eq_true.mp hp _ hitem
  | fraction => cases hc

theorem not_isBlank_of_isCalendarChar {c : Char} (h : isCalendarChar c = true) :
    isBlank c = false := by
  rw [isCalendarChar, Bool.or_eq_true] at h
  rcases h with h | h
  · exact not_isBlank_of_isDigit h
  · have hmarks : ['-', '+', ':', 'T'].all (!isBlank ·) = true := by decide
    simpa using List.all_eq_true.mp hmarks c (List.contains_iff_mem.mp h)

/-- Blanks around a text and a mark of the zone behind it are left out. -/
theorem withoutZone_eq {s : String} {left chars zone right : List Char}
    (hs : s.toList = left ++ (chars ++ zone ++ right)) (hl : ∀ c ∈ left, isBlank c = true)
    (hr : ∀ c ∈ right, isBlank c = true) (h : ∀ c ∈ chars, isCalendarChar c = true)
    (hzone : zone = [] ∨ zone = ['Z']) : withoutZone s = chars := by
  have hz : isBlank 'Z' = false ∧ isCalendarChar 'Z' = false := by decide
  have hchars : ∀ c ∈ chars ++ zone, isBlank c = false := by
    intro c hc
    rcases List.mem_append.mp hc with hc | hc
    · exact not_isBlank_of_isCalendarChar (h c hc)
    · rcases hzone with rfl | rfl
      · cases hc
      · exact List.mem_singleton.mp hc ▸ hz.1
  rw [withoutZone, hs, trimList_append hl hr hchars]
  rcases hzone with rfl | rfl
  · have hlast : chars.getLast? ≠ some 'Z' := by
      intro hlast
      have hmark := h 'Z' (List.mem_of_getLast? hlast)
      simp [hz.2] at hmark
    rw [List.append_nil]
    split
    · next heq => exact absurd heq hlast
    · rfl
  · simp

theorem withoutZone_write (m : Moment) {p : Pattern} (hp : p.all PatternItem.isCalendar = true) :
    withoutZone (String.ofList (p.write m)) = p.write m := by
  have hchars : ∀ c ∈ p.write m, isCalendarChar c = true := fun c hc => isCalendarChar_write m hp hc
  have hs : (String.ofList (p.write m)).toList = [] ++ (p.write m ++ [] ++ []) := by simp
  exact withoutZone_eq hs (by simp) (by simp) hchars (.inl rfl)

/-- Readers see what is left of a text without its zone. -/
theorem readDate_congr {s t : String} (h : withoutZone s = withoutZone t) :
    readDate s = readDate t := by
  rw [readDate, h, readDate]

theorem readTime_congr {s t : String} (h : withoutZone s = withoutZone t) :
    readTime s = readTime t := by
  rw [readTime, h, readTime]

theorem readDateTime_congr {s t : String} (h : withoutZone s = withoutZone t) :
    readDateTime s = readDateTime t := by
  rw [readDateTime, h, readDateTime]

theorem sayable_of_dateExists {m : Moment} (h : dateExists m.year m.month m.day = true) :
    m.Sayable := by
  have hdays : daysInMonth m.year m.month ≤ 31 := by
    unfold daysInMonth
    split
    · split <;> decide
    all_goals decide
  simp only [dateExists, Bool.and_eq_true, decide_eq_true_eq] at h
  exact ⟨by rw [yearLimit]; omega, by omega, by omega⟩

/-- A date is read from its text. -/
theorem readDate_text (d : Date) : readDate d.text = .ok d := by
  have hz : withoutZone d.text = Pattern.date.write d.moment :=
    withoutZone_write d.moment (by decide)
  have hs : d.moment.Sayable := sayable_of_dateExists d.valid
  have hspaced : Pattern.date.Spaced := ⟨rfl, rfl, trivial⟩
  rw [readDate, hz, Pattern.read_write hs {} hspaced]
  exact dif_pos d.valid

theorem Pattern.write_fractional (p : Pattern) (m : Moment) :
    (Pattern.fractional p).write m = Pattern.write p m := by
  rw [fractional, write_append]
  exact List.append_nil _

/-- A time without a fraction of a second is read from its text. -/
theorem readTime_text {t : Time} (h : t.nanosecond = 0) : readTime t.text = .ok t := by
  have hz : withoutZone t.text = Pattern.time.fractional.write t.moment := by
    rw [Pattern.write_fractional]
    exact withoutZone_write t.moment (by decide)
  have hs : t.moment.Sayable := ⟨by simp [Time.moment, yearLimit], by simp [Time.moment],
    by simp [Time.moment]⟩
  obtain ⟨hour, minute, second, nanosecond⟩ := t
  subst h
  have hspaced : Pattern.time.fractional.Spaced := ⟨rfl, rfl, trivial⟩
  rw [readTime, hz, Pattern.read_write hs {} hspaced]
  rfl

theorem withoutZone_dateTime (d : DateTime) :
    withoutZone d.text = Pattern.dateTime.write d.moment :=
  withoutZone_write d.moment (by decide)

/-- And so is one on some day. -/
theorem readDateTime_text {d : DateTime} (h : d.time.nanosecond = 0) :
    readDateTime d.text = .ok d := by
  have hz := withoutZone_dateTime d
  rw [← Pattern.write_fractional] at hz
  have hs : d.moment.Sayable := @sayable_of_dateExists d.moment d.date.valid
  have hdate : (Moment.adoptAll {} d.moment Pattern.dateTime.fractional).date = .ok d.date :=
    dif_pos d.date.valid
  have htime : (Moment.adoptAll {} d.moment Pattern.dateTime.fractional).time = d.time := by
    have heta : d.time = ⟨d.time.hour, d.time.minute, d.time.second, 0⟩ := by rw [← h]
    rw [heta]
    rfl
  have hspaced : Pattern.dateTime.fractional.Spaced := ⟨rfl, rfl, rfl, rfl, rfl, trivial⟩
  rw [readDateTime, hz, Pattern.read_write hs {} hspaced]
  simp only [bind, Except.bind, hdate, htime]
  rfl

end XmlBinding.Value
