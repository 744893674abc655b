import XmlBinding.Value.Boolean
import XmlBinding.Value.Calendar
import XmlBinding.Value.Float
/-!
# Primitive values

Each built-in type is represented by one of a few primitives. A text that is no value of the
primitive is refused with the reason.
-/
namespace XmlBinding.Value

inductive Primitive where
  | string
  | boolean
  | integer (t : IntegerType)
  | float (f : FloatFormat)
  | dateTime
  | date
  | time
deriving DecidableEq, Repr

/-- A value of some primitive. -/
inductive Datum where
  | string (s : String)
  | boolean (b : Bool)
  | integer (n : Int)
  | float (f : FloatFormat) (x : FloatValue)
  | dateTime (d : DateTime)
  | date (d : Date)
  | time (t : Time)
deriving DecidableEq, Repr

namespace Primitive

/-- Types without a closer counterpart are kept as text. -/
def ofBuiltin : String → Primitive
  | "boolean" => .boolean
  | "byte" => .integer ⟨true, 8⟩
  | "short" => .integer ⟨true, 16⟩
  | "int" => .integer ⟨true, 32⟩
  | "long" | "integer" | "nonPositiveInteger" | "negativeInteger" => .integer ⟨true, 64⟩
  | "unsignedByte" => .integer ⟨false, 8⟩
  | "unsignedShort" => .integer ⟨false, 16⟩
  | "unsignedInt" => .integer ⟨false, 32⟩
  | "unsignedLong" | "nonNegativeInteger" | "positiveInteger" => .integer ⟨false, 64⟩
  | "float" => .float .single
  | "double" | "decimal" => .float .double
  | "dateTime" | "dateTimeStamp" => .dateTime
  | "date" => .date
  | "time" => .time
  | _ => .string

def read (p : Primitive) (s : String) : Except ValueFault Datum :=
  match p with
  | .string => .ok (.string s)
  | .boolean => return .boolean (← readBool s)
  | .integer t => return .integer (← t.read s)
  | .float f => return .float f (← f.read s)
  | .dateTime => return .dateTime (← readDateTime s)
  | .date => return .date (← readDate s)
  | .time => return .time (← readTime s)

end Primitive

def Datum.text : Datum → String
  | .string s => s
  | .boolean b => boolText b
  | .integer n => integerText n
  | .float f x => f.text x
  | .dateTime d => d.text
  | .date d => d.text
  | .time t => t.text

end XmlBinding.Value
