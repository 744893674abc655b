/-!
# What can be wrong with a value's text
-/
namespace XmlBinding

inductive ValueFault where
  | notBoolean
  | noInteger
  | invalidDigit
  | tooLarge
  | tooSmall
  | noFloat
  | invalidFloat
  | premature
  | invalidCharacter
  | trailing
  | outOfRange
  | unknownLiteral
deriving DecidableEq, Repr

def ValueFault.message : ValueFault → String
  | .notBoolean => "expected true, false, 1 or 0"
  | .noInteger => "cannot parse integer from empty string"
  | .invalidDigit => "invalid digit found in string"
  | .tooLarge => "number too large to fit in target type"
  | .tooSmall => "number too small to fit in target type"
  | .noFloat => "cannot parse float from empty string"
  | .invalidFloat => "invalid float literal"
  | .premature => "premature end of input"
  | .invalidCharacter => "input contains invalid characters"
  | .trailing => "trailing input"
  | .outOfRange => "input is out of range"
  | .unknownLiteral => "not a list of known literals"

end XmlBinding
