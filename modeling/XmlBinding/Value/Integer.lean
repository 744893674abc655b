import XmlBinding.Text.Blank
import XmlBinding.Value.Fault
/-!
# Integers of fixed width

A decimal numeral, with an optional sign where the type has one. Digits are read from the left and
the first thing wrong decides the fault, so a numeral can be too large before its end is seen.
-/
namespace XmlBinding.Value
open Text

structure IntegerType where
  signed : Bool
  bits : Nat
deriving DecidableEq, Repr

namespace IntegerType

def max (t : IntegerType) : Nat :=
  if t.signed then Nat.pow 2 (t.bits - 1) - 1 else Nat.pow 2 t.bits - 1

/-- The magnitude of the least value. -/
def negativeMax (t : IntegerType) : Nat :=
  if t.signed then Nat.pow 2 (t.bits - 1) else 0

def holds (t : IntegerType) (n : Int) : Prop :=
  -(t.negativeMax : Int) ≤ n ∧ n ≤ t.max

instance (t : IntegerType) (n : Int) : Decidable (t.holds n) :=
  inferInstanceAs (Decidable (_ ∧ _))

end IntegerType

def digitValue (c : Char) : Nat :=
  c.toNat - '0'.toNat

/-- Reads digits after `acc`; `fault` arises as soon as the number exceeds `limit`. -/
def readDigits (limit : Nat) (fault : ValueFault) : Nat → List Char → Except ValueFault Nat
  | acc, [] => .ok acc
  | acc, c :: r =>
    if !c.isDigit then .error .invalidDigit
    else
      let n := acc * 10 + digitValue c
      if limit < n then .error fault else readDigits limit fault n r

/-- What is read does not exceed the limit. -/
theorem readDigits_le {limit : Nat} {fault : ValueFault} {acc n : Nat} {s : List Char}
    (h : readDigits limit fault acc s = .ok n) (hacc : acc ≤ limit) : n ≤ limit := by
  induction s generalizing acc with
  | nil => simp only [readDigits, Except.ok.injEq] at h; omega
  | cons c r ih =>
    simp only [readDigits] at h
    split at h
    · cases h
    · split at h
      · cases h
      · exact ih h (by omega)

/-- A numeral without the blanks around it. -/
def IntegerType.readNumeral (t : IntegerType) : List Char → Except ValueFault Int
  | [] => .error .noInteger
  | ['+'] => .error .invalidDigit
  | ['-'] => .error .invalidDigit
  | '+' :: r => return (← readDigits t.max .tooLarge 0 r)
  | '-' :: r =>
    if t.signed then return -(← readDigits t.negativeMax .tooSmall 0 r)
    else .error .invalidDigit
  | s => return (← readDigits t.max .tooLarge 0 s)

def IntegerType.read (t : IntegerType) (s : String) : Except ValueFault Int :=
  t.readNumeral (trimList s.toList)

def integerText (n : Int) : String :=
  match n with
  | .ofNat n => String.ofList (Nat.toDigits 10 n)
  | .negSucc n => String.ofList ('-' :: Nat.toDigits 10 (n + 1))

end XmlBinding.Value
