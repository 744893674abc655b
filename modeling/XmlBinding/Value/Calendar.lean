import XmlBinding.Text.Blank
import XmlBinding.Value.Fault
import XmlBinding.Value.Integer
/-!
# Dates and times without a zone

A pattern lists the fields and marks of a text in order; the same list drives reading and writing.
Reading checks each field against its own range at once and the day against its month at the end.
-/
namespace XmlBinding.Value
open Text

def isLeapYear (year : Int) : Bool :=
  year % 4 == 0 && (year % 100 != 0 || year % 400 == 0)

def daysInMonth (year : Int) (month : Nat) : Nat :=
  match month with
  | 2 => if isLeapYear year then 29 else 28
  | 4 | 6 | 9 | 11 => 30
  | _ => 31

/-- The proleptic Gregorian calendar from the year -262143 to the year 262142. -/
def dateExists (year : Int) (month day : Nat) : Bool :=
  -262143 ≤ year && year ≤ 262142 && 1 ≤ month && month ≤ 12 && 1 ≤ day &&
    day ≤ daysInMonth year month

structure Date where
  year : Int
  month : Nat
  day : Nat
  valid : dateExists year month day = true
deriving DecidableEq, Repr

/-- Second number 60 is a leap second, which any minute may have. -/
structure Time where
  hour : Fin 24
  minute : Fin 60
  second : Fin 61
  nanosecond : Fin 1000000000
deriving DecidableEq, Repr

structure DateTime where
  date : Date
  time : Time
deriving DecidableEq, Repr

/-- The fields of a text, checked one by one but not yet against each other. -/
structure Moment where
  year : Int := 0
  month : Nat := 1
  day : Nat := 1
  hour : Fin 24 := 0
  minute : Fin 60 := 0
  second : Fin 61 := 0
  nanosecond : Fin 1000000000 := 0

inductive CalendarPart where
  | year
  | month
  | day
  | hour
  | minute
  | second
deriving DecidableEq, Repr

/-- One piece of a pattern. A fraction is an optional point with digits after the seconds. -/
inductive PatternItem where
  | field (f : CalendarPart)
  | mark (c : Char)
  | fraction
deriving DecidableEq, Repr

abbrev Pattern := List PatternItem

def Pattern.date : Pattern :=
  [.field .year, .mark '-', .field .month, .mark '-', .field .day]

def Pattern.time : Pattern :=
  [.field .hour, .mark ':', .field .minute, .mark ':', .field .second]

def Pattern.dateTime : Pattern :=
  Pattern.date ++ .mark 'T' :: Pattern.time

/-- Readers also take a fraction of a second at the end. -/
def Pattern.fractional (p : Pattern) : Pattern :=
  p ++ [.fraction]

/-- Stores a field if it is in range. -/
def Moment.set (m : Moment) (f : CalendarPart) (n : Nat) : Option Moment :=
  match f with
  | .year => some { m with year := n }
  | .month => if 1 ≤ n ∧ n ≤ 12 then some { m with month := n } else none
  | .day => if 1 ≤ n ∧ n ≤ 31 then some { m with day := n } else none
  | .hour => if h : n < 24 then some { m with hour := ⟨n, h⟩ } else none
  | .minute => if h : n < 60 then some { m with minute := ⟨n, h⟩ } else none
  | .second => if h : n < 61 then some { m with second := ⟨n, h⟩ } else none

def valueOfDigits (digits : List Char) : Nat :=
  digits.foldl (fun n c => n * 10 + digitValue c) 0

/-- At least one digit and at most `most` (any number if absent), and what follows them. -/
def takeNumber (most : Option Nat) (s : List Char) : Except ValueFault (List Char × List Char) :=
  match s with
  | [] => .error .premature
  | c :: _ =>
    if !c.isDigit then .error .invalidCharacter
    else
      let run := s.takeWhile Char.isDigit
      let digits := match most with
        | some n => run.take n
        | none => run
      .ok (digits, s.drop digits.length)

/-- A year beyond this magnitude is refused before the text is read on. -/
def yearLimit : Nat := 0x80000000

def readYear (s : List Char) (m : Moment) : Except ValueFault (Moment × List Char) := do
  let (negative, most, s) : Bool × Option Nat × List Char := match s with
    | '-' :: r => (true, none, r)
    | '+' :: r => (false, none, r)
    | r => (false, some 4, r)
  let (digits, rest) ← takeNumber most s
  let n : Int := valueOfDigits digits
  let year := if negative then -n else n
  if year < -(yearLimit : Int) ∨ (yearLimit : Int) ≤ year then .error .outOfRange
  else .ok ({ m with year }, rest)

def readField (f : CalendarPart) (s : List Char) (m : Moment) :
    Except ValueFault (Moment × List Char) :=
  let s := s.dropWhile isBlank
  match f with
  | .year => readYear s m
  | f => do
    let (digits, rest) ← takeNumber (some 2) s
    match m.set f (valueOfDigits digits) with
    | some m => .ok (m, rest)
    | none => .error .outOfRange

/-- Digits beyond the ninth are dropped. -/
def nanoseconds (digits : List Char) : Fin 1000000000 :=
  Fin.ofNat 1000000000 (valueOfDigits ((digits ++ List.replicate 9 '0').take 9))

def readItem (item : PatternItem) (s : List Char) (m : Moment) :
    Except ValueFault (Moment × List Char) :=
  match item with
  | .field f => readField f s m
  | .mark c =>
    match s with
    | [] => .error .premature
    | d :: r => if d = c then .ok (m, r) else .error .invalidCharacter
  | .fraction =>
    match s with
    | '.' :: r => do
      let (digits, rest) ← takeNumber none r
      .ok ({ m with nanosecond := nanoseconds digits }, rest)
    | s => .ok (m, s)

/-- Reads a whole text; nothing may be left over. -/
def Pattern.read : Pattern → List Char → Moment → Except ValueFault Moment
  | [], [], m => .ok m
  | [], _ :: _, _ => .error .trailing
  | item :: p, s, m => do
    let (m, rest) ← readItem item s m
    Pattern.read p rest m

/-- Two digits at least. -/
def twoDigits (n : Nat) : List Char :=
  let d := Nat.toDigits 10 n
  List.replicate (2 - d.length) '0' ++ d

/-- Four digits at least; beyond the years 0 to 9999 the sign is written. -/
def yearText (year : Int) : List Char :=
  let d := Nat.toDigits 10 year.natAbs
  let sign := if year < 0 then ['-'] else if 9999 < year then ['+'] else []
  sign ++ List.replicate (4 - d.length) '0' ++ d

def Moment.fieldText (m : Moment) : CalendarPart → List Char
  | .year => yearText m.year
  | .month => twoDigits m.month
  | .day => twoDigits m.day
  | .hour => twoDigits m.hour
  | .minute => twoDigits m.minute
  | .second => twoDigits m.second

/-- Fractions are not written. -/
def Pattern.write (p : Pattern) (m : Moment) : List Char :=
  p.flatMap fun
    | .field f => m.fieldText f
    | .mark c => [c]
    | .fraction => []

/-- The text without blanks around it and without the zone mark `Z`. -/
def withoutZone (s : String) : List Char :=
  let t := trimList s.toList
  match t.getLast? with
  | some 'Z' => t.dropLast
  | _ => t

def Moment.date (m : Moment) : Except ValueFault Date :=
  if h : dateExists m.year m.month m.day = true then .ok ⟨m.year, m.month, m.day, h⟩
  else .error .outOfRange

def Moment.time (m : Moment) : Time :=
  ⟨m.hour, m.minute, m.second, m.nanosecond⟩

def Date.moment (d : Date) : Moment :=
  { year := d.year, month := d.month, day := d.day }

def Time.moment (t : Time) : Moment :=
  { hour := t.hour, minute := t.minute, second := t.second, nanosecond := t.nanosecond }

def DateTime.moment (d : DateTime) : Moment :=
  { d.time.moment with year := d.date.year, month := d.date.month, day := d.date.day }

def readDate (s : String) : Except ValueFault Date := do
  (← Pattern.date.read (withoutZone s) {}).date

def readTime (s : String) : Except ValueFault Time := do
  return (← Pattern.time.fractional.read (withoutZone s) {}).time

def readDateTime (s : String) : Except ValueFault DateTime := do
  let m ← Pattern.dateTime.fractional.read (withoutZone s) {}
  return ⟨← m.date, m.time⟩

def Date.text (d : Date) : String := String.ofList (Pattern.date.write d.moment)
def Time.text (t : Time) : String := String.ofList (Pattern.time.write t.moment)
def DateTime.text (d : DateTime) : String := String.ofList (Pattern.dateTime.write d.moment)

end XmlBinding.Value
