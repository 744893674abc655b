import XmlBinding.Proofs.Tree.Values

/-! # Values are read from texts with blanks around them

Every value but strings and floats is read from its own text, over the whole of its range, wherever
blanks stand around the text and whether or not a date or a time has the mark of the zone behind it.
What a text does not say is the fraction of a second.
-/
namespace XmlBinding.Value
open Text XmlBinding.Tree

/-- Strings keep their blanks, and floats are read as near as they can be. -/
def Primitive.isExact : Primitive → Bool
  | .string | .float _ => false
  | _ => true

/-- What may follow the text of a value. -/
def Primitive.zones : Primitive → List String
  | .dateTime | .date | .time => ["", "Z"]
  | _ => [""]

def Time.wholeSeconds (t : Time) : Time := { t with nanosecond := ⟨0, by decide⟩ }

/-- The value without a fraction of a second. -/
def Datum.wholeSeconds : Datum → Datum
  | .dateTime d => .dateTime { d with time := d.time.wholeSeconds }
  | .time t => .time t.wholeSeconds
  | d => d

def Datum.nanosecond : Datum → Nat
  | .dateTime d => d.time.nanosecond
  | .time t => t.nanosecond
  | _ => 0

theorem Time.wholeSeconds_eq_self {t : Time} (h : t.nanosecond.val = 0) : t.wholeSeconds = t := by
  have hzero : t.nanosecond = ⟨0, by decide⟩ := Fin.ext h
  rw [wholeSeconds, ← hzero]

theorem Datum.wholeSeconds_eq_self {d : Datum} (h : d.nanosecond = 0) : d.wholeSeconds = d := by
  cases d with
  | dateTime d => rw [wholeSeconds, Time.wholeSeconds_eq_self h]
  | time t => rw [wholeSeconds, Time.wholeSeconds_eq_self h]
  | _ => rfl

/-- Fractions are not written. -/
theorem Datum.text_wholeSeconds (d : Datum) : d.wholeSeconds.text = d.text := by
  cases d <;> rfl

/-- What stands around the text of a value: blanks, and perhaps the mark of a zone. -/
structure Padding (p : Primitive) where
  left : String
  zone : String
  right : String
  left_blank : allBlank left = true
  zone_mem : zone ∈ p.zones
  right_blank : allBlank right = true

namespace Padding

variable {p : Primitive} (w : Padding p)

def around (text : String) : String := w.left ++ text ++ w.zone ++ w.right

theorem toList_around (text : String) :
    (w.around text).toList = w.left.toList ++ (text.toList ++ w.zone.toList ++ w.right.toList) := by
  simp [around]

/-- Where no zone can stand, blanks are all that is trimmed off. -/
theorem trimList_around (hp : p.zones = [""]) {text : String}
    (h : ∀ c ∈ text.toList, isBlank c = false) :
    trimList (w.around text).toList = text.toList := by
  have hz : w.zone = "" := by simpa [hp] using w.zone_mem
  rw [toList_around, hz, String.toList_empty, List.append_nil]
  apply trimList_append
  · exact List.all_eq_true.mp w.left_blank
  · exact List.all_eq_true.mp w.right_blank
  · exact h

theorem withoutZone_around (hp : p.zones = ["", "Z"]) (m : Moment) {q : Pattern}
    (hq : q.all PatternItem.isCalendar = true) :
    withoutZone (w.around (String.ofList (q.write m))) =
      withoutZone (String.ofList (q.write m)) := by
  rw [withoutZone_write m hq]
  have hlist := w.toList_around (String.ofList (q.write m))
  rw [String.toList_ofList] at hlist
  apply withoutZone_eq hlist
  · exact List.all_eq_true.mp w.left_blank
  · exact List.all_eq_true.mp w.right_blank
  · exact fun c hc => isCalendarChar_write m hq hc
  · have hz : w.zone = "" ∨ w.zone = "Z" := by simpa [hp] using w.zone_mem
    rcases hz with hz | hz <;> simp [hz]

/-- Dates and times are read as from their text alone. -/
theorem readDate_around (hp : p.zones = ["", "Z"]) (d : Date) :
    readDate (w.around d.text) = readDate d.text :=
  readDate_congr (w.withoutZone_around hp d.moment (by decide))

theorem readTime_around (hp : p.zones = ["", "Z"]) (t : Time) :
    readTime (w.around t.text) = readTime t.text :=
  readTime_congr (w.withoutZone_around hp t.moment (by decide))

theorem readDateTime_around (hp : p.zones = ["", "Z"]) (d : DateTime) :
    readDateTime (w.around d.text) = readDateTime d.text :=
  readDateTime_congr (w.withoutZone_around hp d.moment (by decide))

end Padding

/-- A text is read as a value, up to the fraction of a second. -/
structure Recovers (p : Primitive) (d : Datum) (s : String) : Prop where
  whole : p.read s = .ok d.wholeSeconds
  exact : d.nanosecond = 0 → p.read s = .ok d

/-- It is the value without the fraction that a text is read as. -/
theorem read_around {p : Primitive} {d : Datum} (hp : p.isExact = true)
    (hd : (ValueKind.primitive p).Takes (.datum d)) (w : Padding p) :
    p.read (w.around d.text) = .ok d.wholeSeconds := by
  cases hd with
  | string s => cases hp
  | float f x => cases hp
  | boolean b =>
    have hnone : (boolText b).toList.all (!isBlank ·) = true := by cases b <;> decide
    have hb : ∀ c ∈ (boolText b).toList, isBlank c = false := by simpa using hnone
    have htrim : trim (w.around (boolText b)) = boolText b := by
      rw [trim, w.trimList_around rfl hb, String.ofList_toList]
    rw [Primitive.read, Datum.text, readBool_of_trim htrim]
    rfl
  | @integer t n h =>
    have hn : ∀ c ∈ (integerText n).toList, isBlank c = false :=
      fun c hc => not_isBlank_of_mem_integerText hc
    have htrim := w.trimList_around rfl hn
    rw [Primitive.read, Datum.text, IntegerType.read_of_trimList h htrim]
    rfl
  | date d =>
    rw [Primitive.read, Datum.text, w.readDate_around rfl, readDate_text]
    rfl
  | dateTime d =>
    rw [← Datum.text_wholeSeconds, Datum.wholeSeconds, Datum.text, Primitive.read,
      w.readDateTime_around rfl, readDateTime_text rfl]
    rfl
  | time t =>
    rw [← Datum.text_wholeSeconds, Datum.wholeSeconds, Datum.text, Primitive.read,
      w.readTime_around rfl, readTime_text rfl]
    rfl

end XmlBinding.Value
