import XmlBinding.Schema.Error
import XmlBinding.Xml.Document
/-!
# Names in schemas

A qualified name is resolved where it stands. References to types are kept by local name, since a
schema is one document, and only the built-in types are told apart by their namespace.
-/
namespace XmlBinding.Schema
open Xml

/-- The namespace of the schema language. -/
def schemaUri : String := "http://www.w3.org/2001/XMLSchema"

def builtinNames : List String :=
  ["anyType", "anySimpleType", "anyAtomicType", "string", "boolean", "decimal", "float", "double",
   "duration", "dateTime", "time", "date", "gYearMonth", "gYear", "gMonthDay", "gDay", "gMonth",
   "hexBinary", "base64Binary", "anyURI", "QName", "NOTATION", "normalizedString", "token",
   "language", "NMTOKEN", "NMTOKENS", "Name", "NCName", "ID", "IDREF", "IDREFS", "ENTITY",
   "ENTITIES", "integer", "nonPositiveInteger", "negativeInteger", "long", "int", "short", "byte",
   "nonNegativeInteger", "unsignedLong", "unsignedInt", "unsignedShort", "unsignedByte",
   "positiveInteger", "yearMonthDuration", "dayTimeDuration", "dateTimeStamp"]

def isBuiltinName (name : String) : Bool :=
  builtinNames.contains name

/-- Cuts at the first occurrence of `c`. -/
def splitFirst (c : Char) (s : List Char) : Option (List Char × List Char) :=
  match s.dropWhile (· != c) with
  | [] => none
  | _ :: rest => some (s.takeWhile (· != c), rest)

/-- Resolves a qualified name; one without a prefix takes the default namespace. -/
def resolveName (scope : Scope) (s : String) : Except AttributeFault ExpandedName :=
  match splitFirst ':' s.toList with
  | none => .ok ⟨scope.lookup none, s⟩
  | some (pfx, localName) =>
    let pfx := String.ofList pfx
    let uri := if pfx = "xml" then some xmlUri
      else scope.lookup (some pfx)
    match uri with
    | some uri => .ok ⟨some uri, String.ofList localName⟩
    | none => .error (.unboundPrefix pfx)

inductive TypeName where
  | builtin (name : String)
  | schema (name : String)
deriving DecidableEq, Repr

namespace TypeName

def ofExpanded (n : ExpandedName) : TypeName :=
  if n.uri = some schemaUri ∧ isBuiltinName n.localName then .builtin n.localName
  else .schema n.localName

def localName : TypeName → String
  | .builtin name => name
  | .schema name => name

def isBuiltin : TypeName → Bool
  | .builtin _ => true
  | .schema _ => false

/-- The type of everything. -/
def isAnyType (t : TypeName) : Bool :=
  t == .builtin "anyType"

def text : TypeName → String
  | .builtin name => "xs:" ++ name
  | .schema name => name

/-- Being built in changes nothing about the local name. -/
theorem localName_ofExpanded (n : ExpandedName) : (ofExpanded n).localName = n.localName := by
  unfold ofExpanded
  split <;> rfl

end TypeName

end XmlBinding.Schema
