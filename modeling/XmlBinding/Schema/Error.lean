import XmlBinding.Text.Quoted
import XmlBinding.Xml.Prolog
/-!
# What a schema document can have wrong
-/
namespace XmlBinding.Schema
open Text

/-- Why the value of a schema attribute is refused. -/
inductive AttributeFault where
  | notBoolean
  | notCount
  | unboundPrefix (pfx : String)
deriving DecidableEq, Repr

def unboundPrefixMessage (pfx : String) : String :=
  "failed to resolve prefix " ++ quoted pfx ++ " to a namespace URI"

def AttributeFault.message : AttributeFault → String
  | .notBoolean => "expected a boolean"
  | .notCount => "expected a non-negative integer"
  | .unboundPrefix pfx => unboundPrefixMessage pfx

/-- What an element must contain at least one of. -/
inductive Requirement where
  | variety
  | derivation
  | compositor
deriving DecidableEq, Repr

def Requirement.message : Requirement → String
  | .variety => "<restriction>, <list> or <union>"
  | .derivation => "<extension> or <restriction>"
  | .compositor => "<all>, <choice> or <sequence>"

/-- The symbol spaces in which names are unique. -/
inductive Kind where
  | type
  | element
  | attribute
  | attributeGroup
  | group
deriving DecidableEq, Repr

def Kind.message : Kind → String
  | .type => "type definition"
  | .element => "element declaration"
  | .attribute => "attribute declaration"
  | .attributeGroup => "attribute group definition"
  | .group => "model group definition"

inductive SchemaError where
  | unboundPrefix (pfx : String)
  | notASchema (tag : String)
  | missingAttribute (element attr : String)
  | invalidAttribute (element attr value : String) (fault : AttributeFault)
  | missingContent (element : String) (expected : Requirement)
  | unexpectedElement (parent child : String)
  | duplicate (kind : Kind) (name : String)
  | unsupported (tag : String)
  | document (e : Xml.ReadError)
deriving DecidableEq, Repr

def SchemaError.message : SchemaError → String
  | .unboundPrefix pfx => unboundPrefixMessage pfx
  | .notASchema tag => "the document element is <" ++ tag ++ ">, expected <schema>"
  | .missingAttribute element attr =>
    "<" ++ element ++ "> is missing the required attribute " ++ quoted attr
  | .invalidAttribute element attr value fault =>
    "<" ++ element ++ "> has an invalid value " ++ quoted value ++ " for " ++ quoted attr ++
      ": " ++ fault.message
  | .missingContent element expected =>
    "<" ++ element ++ "> must contain one of " ++ expected.message
  | .unexpectedElement parent child => "unexpected <" ++ child ++ "> inside <" ++ parent ++ ">"
  | .duplicate kind name => "duplicate " ++ kind.message ++ " " ++ quoted name
  | .unsupported tag => "xsdgen does not understand <" ++ tag ++ ">"
  | .document e => e.message

end XmlBinding.Schema
