import XmlBinding.Tree.Blueprint
import XmlBinding.Proofs.Binding.Members
import XmlBinding.Proofs.Value.Calendar
import XmlBinding.Proofs.Xml.Escaping

/-! # Values are read as they are written

Every kind of value reads back what it wrote, as far as a text can say it: sentinels and the empty
set of flags have no text, and fractions of seconds are not written. Floats are left out here.
-/
namespace XmlBinding.Tree
open Schema Binding Value Xml Text

/-- The values that a kind has. -/
inductive ValueKind.Takes : ValueKind → Held → Prop
  | string (s : String) : Takes (.primitive .string) (.datum (.string s))
  | boolean (b : Bool) : Takes (.primitive .boolean) (.datum (.boolean b))
  | integer (t : IntegerType) {n : Int} (h : t.holds n) :
      Takes (.primitive (.integer t)) (.datum (.integer n))
  | float (f : FloatFormat) (x : FloatValue) : Takes (.primitive (.float f)) (.datum (.float f x))
  | dateTime (d : DateTime) : Takes (.primitive .dateTime) (.datum (.dateTime d))
  | date (d : Date) : Takes (.primitive .date) (.datum (.date d))
  | time (t : Time) : Takes (.primitive .time) (.datum (.time t))
  | symbol {e : Enumeration} {s : Symbol} (hf : e.form = .plain)
      (hs : s ∈ e.members.map (·.symbol)) : Takes (.enumeration e) (.symbol s)
  | flags {e : Enumeration} {bits : Nat} (hf : e.form = .flags)
      (hb : bits < 2 ^ e.literals.length) : Takes (.enumeration e) (.flags bits)

/-- Text that a document keeps as it is, within attributes as well. -/
def isPlainText (s : String) : Bool := isXmlText s && s.toList.all isKept

/-- The values that a document can say. -/
def ValueKind.Sayable : ValueKind → Held → Prop
  | _, .datum (.string s) => isPlainText s = true
  | _, .datum (.float ..) => False
  | _, .datum (.dateTime d) => d.time.nanosecond.val = 0
  | _, .datum (.time t) => t.nanosecond.val = 0
  | _, .datum _ => True
  | _, .symbol s => ∃ v, s = .literal v ∧ v ≠ "" ∧ isPlainText v = true
  | .enumeration e, .flags bits => bits ≠ 0 ∧ ∀ w ∈ e.flagLiterals bits,
      w ≠ "" ∧ isXmlText w = true ∧ ∀ c ∈ w.toList, isBlank c = false
  | .primitive _, .flags _ => False

theorem isPlainText_iff {s : String} :
    isPlainText s = true ↔ ∀ c ∈ s.toList, isXmlChar c = true ∧ isKept c = true := by
  simp [isPlainText, isXmlText, List.all_eq_true, forall_and]

/-- Visible characters of ASCII. -/
def isVisible (c : Char) : Bool := 0x20 < c.toNat && c.toNat < 0x7F

theorem isPlainText_of_isVisible {s : String} (h : ∀ c ∈ s.toList, isVisible c = true) :
    isPlainText s = true := by
  refine isPlainText_iff.mpr fun c hc => ?_
  have hv : 0x20 < c.toNat ∧ c.toNat < 0x7F := by simpa [isVisible] using h c hc
  have hne (d : Char) (hd : d.toNat ≤ 0x20) : c ≠ d := by
    rintro rfl
    omega
  constructor
  · rw [isXmlChar, if_neg (by omega)]
    simp
    omega
  · simp [isKept, hne]

theorem isVisible_of_isCalendarChar {c : Char} (h : isCalendarChar c = true) :
    isVisible c = true := by
  rw [isCalendarChar, Bool.or_eq_true] at h
  rcases h with h | h
  · have hc : 48 ≤ c.toNat ∧ c.toNat ≤ 57 := by
      simpa [Char.isDigit, UInt32.le_iff_toNat_le] using h
    simp [isVisible]
    omega
  · have hmarks : ['-', '+', ':', 'T'].all isVisible = true := by decide
    exact List.all_eq_true.mp hmarks c (List.contains_iff_mem.mp h)

theorem isPlainText_boolText (b : Bool) : isPlainText (boolText b) = true := by
  cases b <;> decide

theorem isPlainText_integerText (n : Int) : isPlainText (integerText n) = true := by
  refine isPlainText_of_isVisible fun c hc => isVisible_of_isCalendarChar ?_
  rcases mem_integerText hc with h | rfl
  · rw [isCalendarChar, h, Bool.true_or]
  · decide

theorem read_integerText {t : IntegerType} {n : Int} (h : t.holds n) :
    t.read (integerText n) = .ok n :=
  IntegerType.read_of_trimList h (trimList_eq_self fun _ hc => not_isBlank_of_mem_integerText hc)

theorem isPlainText_write (m : Moment) {p : Pattern} (hp : p.all PatternItem.isCalendar = true) :
    isPlainText (String.ofList (p.write m)) = true := by
  refine isPlainText_of_isVisible fun c hc => isVisible_of_isCalendarChar ?_
  rw [String.toList_ofList] at hc
  exact isCalendarChar_write m hp hc

theorem isPlainText_append {s t : String} (hs : isPlainText s = true) (ht : isPlainText t = true) :
    isPlainText (s ++ t) = true := by
  rw [isPlainText_iff] at *
  intro c hc
  rw [String.toList_append, List.mem_append] at hc
  exact hc.elim (hs c) (ht c)

theorem isPlainText_intercalate {ws : List String} (h : ∀ w ∈ ws, isPlainText w = true) :
    isPlainText (" ".intercalate ws) = true := by
  induction ws with
  | nil => decide
  | cons w ws ih =>
    obtain ⟨hw, hws⟩ := List.forall_mem_cons.mp h
    cases ws with
    | nil => exact String.intercalate_singleton ▸ hw
    | cons v ws =>
      rw [String.intercalate_cons_cons]
      exact isPlainText_append (isPlainText_append hw (by decide)) (ih hws)

/-- What is kept out of values are blanks. -/
theorem isPlainText_of_word {w : String} (hw : isXmlText w = true)
    (hb : ∀ c ∈ w.toList, isBlank c = false) : isPlainText w = true := by
  refine isPlainText_iff.mpr fun c hc => ⟨List.all_eq_true.mp hw c hc, ?_⟩
  have hne (d : Char) (hd : isBlank d = true) : c ≠ d := by
    rintro rfl
    rw [hb c hc] at hd
    cases hd
  simp [isKept, hne '\t' (by decide), hne '\n' (by decide), hne '\r' (by decide)]

/-- A value that a document can say is read from its text. -/
theorem ValueKind.exists_text {kind : ValueKind} {held : Held} (ht : kind.Takes held)
    (hs : kind.Sayable held) (hd : ∀ e, kind = .enumeration e → e.Distinct) :
    ∃ text, kind.text? held = some text ∧ isPlainText text = true ∧ kind.read text = .ok held := by
  cases ht with
  | string s => exact ⟨s, rfl, hs, rfl⟩
  | boolean b =>
    have hread : readBool (boolText b) = .ok b := readBool_of_trim (by cases b <;> decide)
    refine ⟨boolText b, rfl, isPlainText_boolText b, ?_⟩
    rw [read, Primitive.read, hread]
    rfl
  | integer t h =>
    refine ⟨_, rfl, isPlainText_integerText _, ?_⟩
    rw [read, Primitive.read, Datum.text, read_integerText h]
    rfl
  | float f x => exact hs.elim
  | dateTime d =>
    refine ⟨_, rfl, isPlainText_write _ (by decide), ?_⟩
    rw [read, Primitive.read, Datum.text, readDateTime_text (Fin.ext hs)]
    rfl
  | date d =>
    refine ⟨_, rfl, isPlainText_write _ (by decide), ?_⟩
    rw [read, Primitive.read, Datum.text, readDate_text]
    rfl
  | time t =>
    refine ⟨_, rfl, isPlainText_write _ (by decide), ?_⟩
    rw [read, Primitive.read, Datum.text, readTime_text (Fin.ext hs)]
    rfl
  | @symbol e _ hf hm =>
    obtain ⟨v, rfl, hne, hplain⟩ := hs
    refine ⟨v, rfl, hplain, ?_⟩
    have hv := Enumeration.exists_member.mp (List.mem_map.mp hm)
    simp only [read, hf, Enumeration.parse_literal hv hne]
  | @flags e bits hf hb =>
    obtain ⟨hne, hwords⟩ := hs
    have hdistinct := hd e rfl
    have hplain : isPlainText (" ".intercalate (e.flagLiterals bits)) = true :=
      isPlainText_intercalate fun w hw => isPlainText_of_word (hwords w hw).2.1 (hwords w hw).2.2
    refine ⟨_, Enumeration.flagsText_eq (Enumeration.flagLiterals_ne_nil hdistinct hb hne),
      hplain, ?_⟩
    have hread := Enumeration.readFlags_intercalate hdistinct hb hne
      fun w hw => ⟨(hwords w hw).1, (hwords w hw).2.2⟩
    simp only [read, hf, hread]

end XmlBinding.Tree
