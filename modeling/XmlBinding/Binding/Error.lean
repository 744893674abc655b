import XmlBinding.Schema.Error
import XmlBinding.Tree.Error
/-!
# Why a schema has no binding
-/
namespace XmlBinding.Binding
open Text

/-- What a reference in a schema may point to. -/
inductive Referent where
  | simpleType
  | complexType
  | baseType
  | element
  | attribute
  | attributeGroup
  | group
deriving DecidableEq, Repr

def Referent.message : Referent → String
  | .simpleType => "simple type"
  | .complexType => "complex type"
  | .baseType => "base type"
  | .element => "element"
  | .attribute => "attribute"
  | .attributeGroup => "attribute group"
  | .group => "group"

/-- Constructs of the schema language that have no binding. `nesting` is for what lies deeper than
references can lead; no schema that is read has it. -/
inductive Unsupported where
  | complexAsSimple (name : String)
  | builtinBase (name : String)
  | listOfOther
  | emptyUnion
  | patternBesideEnumeration
  | severalPatterns
  | nesting (kind : Referent) (name : String)
deriving DecidableEq, Repr

def Unsupported.message : Unsupported → String
  | .complexAsSimple name => "complex type " ++ quoted name ++ " where a simple type is expected"
  | .builtinBase name => "complex content derived from the built-in type " ++ name
  | .listOfOther => "lists whose item type is not an enumeration"
  | .emptyUnion => "unions without member types"
  | .patternBesideEnumeration => "restrictions mixing pattern and enumeration facets"
  | .severalPatterns => "restrictions with more than one pattern facet"
  | .nesting kind name => kind.message ++ " " ++ quoted name ++ " at this depth"

inductive BindingError where
  | unsupported (what : Unsupported)
  | unknown (kind : Referent) (name : String)
  | circular (kind : Referent) (name : String)
  | tooManyFlags (name : String) (count : Nat)
deriving DecidableEq, Repr

def BindingError.message : BindingError → String
  | .unsupported what => "xsdgen does not understand " ++ what.message
  | .unknown kind name => kind.message ++ " " ++ quoted name ++ " is referenced but not declared"
  | .circular kind name =>
    kind.message ++ " " ++ quoted name ++ " is defined in terms of itself"
  | .tooManyFlags name count =>
    "flags enumeration " ++ name ++ " has " ++ toString count ++ " members, at most 32 fit"

end XmlBinding.Binding
