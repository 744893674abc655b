import XmlBinding.Text.Blank
import XmlBinding.Value.Fault
import XmlBinding.Value.Integer
/-!
# Binary floating point and its shortest decimal text

A finite value is a sign, a significand and the exponent of its unit. Reading rounds the exact
quotient to the nearest value, ties to the even significand. Writing takes the fewest digits that
read back, of those the nearest, and never an exponent mark.
-/
namespace XmlBinding.Value
open Text

/-- A binary format: digits of the significand, and the exponents its unit ranges over. -/
structure FloatFormat where
  precision : Nat
  least : Int
  greatest : Int
deriving DecidableEq, Repr

def FloatFormat.single : FloatFormat := ⟨24, -149, 104⟩
def FloatFormat.double : FloatFormat := ⟨53, -1074, 971⟩

inductive FloatValue where
  | nan
  | infinite (negative : Bool)
  | finite (negative : Bool) (significand : Nat) (exponent : Int)
deriving DecidableEq, Repr

/-- The quotient rounded to the nearest whole number, a tie to the even one. -/
def roundHalfEven (num den : Nat) : Nat :=
  let q := num / den
  let r := num % den
  if den < 2 * r ∨ (2 * r = den ∧ q % 2 = 1) then q + 1 else q

/-- The quotient `num / den` divided by `2 ^ e`, as a fraction. -/
def scaled (num den : Nat) (e : Int) : Nat × Nat :=
  if 0 ≤ e then (num, den * Nat.pow 2 e.toNat) else (num * Nat.pow 2 (-e).toNat, den)

/-- The value of the format nearest to `num / den`. -/
def FloatFormat.nearest (f : FloatFormat) (negative : Bool) (num den : Nat) : FloatValue :=
  if num = 0 then .finite negative 0 f.least
  else
    let guess := (num.log2 : Int) - den.log2 - f.precision
    let (n, d) := scaled num den guess
    let e := max f.least (if Nat.pow 2 f.precision ≤ n / d then guess + 1 else guess)
    let (n, d) := scaled num den e
    let m := roundHalfEven n d
    let (m, e) := if m = Nat.pow 2 f.precision then (m / 2, e + 1) else (m, e)
    if f.greatest < e then .infinite negative else .finite negative m e

/-- The digits and the exponent of ten of a numeral `123.45e6`. -/
structure Decimal where
  digits : Nat
  exponent : Int

/-- An exponent mark with its number, to the end of the text. -/
def readExponent : List Char → Option Int
  | [] => some 0
  | c :: r =>
    if c != 'e' && c != 'E' then none
    else
      let (negative, r) := match r with
        | '-' :: r => (true, r)
        | '+' :: r => (false, r)
        | r => (false, r)
      if r.isEmpty || !r.all Char.isDigit then none
      else
        let n : Int := r.foldl (fun n c => n * 10 + digitValue c) (0 : Nat)
        some (if negative then -n else n)

/-- Digits with at most one point among them and at least one digit, then an exponent. -/
def Decimal.read (s : List Char) : Option Decimal :=
  let whole := s.takeWhile Char.isDigit
  let rest := s.dropWhile Char.isDigit
  let (fraction, rest) := match rest with
    | '.' :: r => (r.takeWhile Char.isDigit, r.dropWhile Char.isDigit)
    | r => ([], r)
  if whole.isEmpty && fraction.isEmpty then none
  else (readExponent rest).map fun e =>
    ⟨(whole ++ fraction).foldl (fun n c => n * 10 + digitValue c) 0, e - fraction.length⟩

/-- Beyond this power of ten every format overflows or rounds to zero. -/
def farExponent : Int := 400

def Decimal.toFloat (f : FloatFormat) (negative : Bool) (d : Decimal) : FloatValue :=
  let size : Int := (Nat.toDigits 10 d.digits).length
  if d.digits = 0 ∨ d.exponent + size < -farExponent then .finite negative 0 f.least
  else if farExponent < d.exponent + size then .infinite negative
  else if 0 ≤ d.exponent then f.nearest negative (d.digits * Nat.pow 10 d.exponent.toNat) 1
  else f.nearest negative d.digits (Nat.pow 10 (-d.exponent).toNat)

/-- An unsigned numeral or the name of a special value, in any letter case. -/
def FloatFormat.readUnsigned (f : FloatFormat) (negative : Bool) (s : List Char) :
    Except ValueFault FloatValue :=
  match Decimal.read s with
  | some d => .ok (d.toFloat f negative)
  | none =>
    let name := String.ofList (s.map Char.toLower)
    if name = "inf" ∨ name = "infinity" then .ok (.infinite negative)
    else if name = "nan" then .ok .nan
    else .error .invalidFloat

def FloatFormat.read (f : FloatFormat) (s : String) : Except ValueFault FloatValue :=
  match trimList s.toList with
  | [] => .error .noFloat
  | '-' :: r => f.readUnsigned true r
  | '+' :: r => f.readUnsigned false r
  | r => f.readUnsigned false r

/-- Whether `candidate / den` reads back as the value `num / den` whose gaps to the midpoints
below and above are `below` and `above`, all over the same denominator. -/
def readsBack (closed : Bool) (num below above candidate : Nat) : Bool :=
  if closed then num ≤ candidate + below && candidate ≤ num + above
  else num < candidate + below && candidate < num + above

/-- The decimal nearest to `num / den` on the grid of the powers `10 ^ k`, if it reads back. A
grid point lies in the interval only if one of the value's two neighbours on the grid does. -/
def onGrid (closed : Bool) (num den below above : Nat) (k : Int) : Option Decimal :=
  let unit := if 0 ≤ k then den * Nat.pow 10 k.toNat else den
  let scale := if 0 ≤ k then 1 else Nat.pow 10 (-k).toNat
  let lower := num * scale / unit
  let low := lower * unit
  let high := (lower + 1) * unit
  let lowOk := 0 < lower && readsBack closed (num * scale) (below * scale) (above * scale) low
  let highOk := readsBack closed (num * scale) (below * scale) (above * scale) high
  if lowOk && highOk then
    some ⟨if high - num * scale ≤ num * scale - low then lower + 1 else lower, k⟩
  else if lowOk then some ⟨lower, k⟩
  else if highOk then some ⟨lower + 1, k⟩
  else none

/-- The least number of decimal digits before the point, negative for zeros after it. -/
def decimalPlaces (num den : Nat) : Int :=
  if den ≤ num then (Nat.toDigits 10 (num / den)).length
  else 1 - (Nat.toDigits 10 ((den - 1) / num)).length

/-- The first of the finer and finer grids that holds a decimal reading back as the value. -/
def shortestFrom (closed : Bool) (num den below above : Nat) : Nat → Int → Decimal
  | 0, k => ⟨num / den, k⟩
  | n + 1, k =>
    match onGrid closed num den below above k with
    | some d => d
    | none => shortestFrom closed num den below above n (k - 1)

/-- The shortest decimal of a positive finite value. Seventeen digits always suffice. -/
def FloatFormat.shortest (f : FloatFormat) (m : Nat) (e : Int) : Decimal :=
  -- four times the value, so that the midpoints are whole
  let unit := if 0 ≤ e then Nat.pow 2 e.toNat else 1
  let den := if 0 ≤ e then 4 else 4 * Nat.pow 2 (-e).toNat
  let num := 4 * m * unit
  let above := 2 * unit
  let below := if m = Nat.pow 2 (f.precision - 1) ∧ f.least < e then unit else 2 * unit
  shortestFrom (m % 2 = 0) num den below above 20 (decimalPlaces num den - 1)

/-- Positional notation without superfluous zeros. -/
def Decimal.text (d : Decimal) : List Char :=
  if 0 ≤ d.exponent then Nat.toDigits 10 d.digits ++ List.replicate d.exponent.toNat '0'
  else
    let digits := Nat.toDigits 10 d.digits
    let places := (-d.exponent).toNat
    let padded := List.replicate (places + 1 - digits.length) '0' ++ digits
    let fraction := ((padded.drop (padded.length - places)).reverse.dropWhile (· == '0')).reverse
    padded.take (padded.length - places) ++ if fraction.isEmpty then [] else '.' :: fraction

def FloatFormat.text (f : FloatFormat) : FloatValue → String
  | .nan => "NaN"
  | .infinite negative => if negative then "-INF" else "INF"
  | .finite negative m e =>
    let digits := if m = 0 then ['0'] else (f.shortest m e).text
    String.ofList (if negative then '-' :: digits else digits)

end XmlBinding.Value
