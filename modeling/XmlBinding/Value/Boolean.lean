import XmlBinding.Text.Blank
import XmlBinding.Value.Fault
/-!
# Truth values

There are four spellings for two values; the two words are the ones written.
-/
namespace XmlBinding.Value
open Text

def boolText (b : Bool) : String :=
  if b then "true" else "false"

def readBool (s : String) : Except ValueFault Bool :=
  let t := trim s
  if t = "true" ∨ t = "1" then .ok true
  else if t = "false" ∨ t = "0" then .ok false
  else .error .notBoolean

end XmlBinding.Value
