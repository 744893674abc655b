/-!
# How often a particle may occur
-/
namespace XmlBinding.Schema

/-- The greatest bound that is told apart from greater ones. -/
def countLimit : Nat := 0xFFFFFFFFFFFFFFFF

inductive MaxOccurs where
  | unbounded
  | count (n : Nat)
deriving DecidableEq, Repr

namespace MaxOccurs

def one : MaxOccurs := .count 1

/-- The bound of a particle inside a group. Nothing occurs where either bound is zero; products
stop at the limit. -/
def mul : MaxOccurs → MaxOccurs → MaxOccurs
  | .count 0, _ => .count 0
  | _, .count 0 => .count 0
  | .unbounded, _ => .unbounded
  | _, .unbounded => .unbounded
  | .count a, .count b => .count (min (a * b) countLimit)

def count? : MaxOccurs → Option Nat
  | .unbounded => none
  | .count n => some n

def text : MaxOccurs → String
  | .unbounded => "unbounded"
  | .count n => String.ofList (Nat.toDigits 10 n)

theorem mul_comm (a b : MaxOccurs) : a.mul b = b.mul a := by
  cases a with
  | unbounded => cases b with
    | unbounded => rfl
    | count b => cases b <;> rfl
  | count a => cases b with
    | unbounded => cases a <;> rfl
    | count b =>
      cases a <;> cases b <;> simp [mul, Nat.mul_comm]

theorem count_mul_count (a b : Nat) : (count a).mul (count b) = count (min (a * b) countLimit) := by
  cases a with
  | zero => simp [mul]
  | succ a =>
    cases b with
    | zero => simp [mul]
    | succ b => rfl

end MaxOccurs

end XmlBinding.Schema
