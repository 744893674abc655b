import XmlBinding.Schema.Name
import XmlBinding.Schema.Occurs
/-!
# Components of a schema

Types, elements, attributes and groups as they are declared. References between them stay names.
-/
namespace XmlBinding.Schema

/-- One literal of an enumeration. -/
structure Facet where
  value : String
  documentation : Option String
deriving DecidableEq, Repr

mutual

/-- Anonymous when declared in place. -/
structure SimpleType where
  name : Option String
  documentation : Option String
  variety : Variety

inductive Variety where
  | restriction (r : Restriction)
  | list (item : SimpleTypeRef)
  | union (members : List SimpleTypeRef)

inductive SimpleTypeRef where
  | named (name : TypeName)
  | inline (t : SimpleType)

/-- `otherFacets` names the facets that have no bearing on a binding. -/
structure Restriction where
  base : SimpleTypeRef
  enumerations : List Facet
  patterns : List String
  otherFacets : List String

end

/-- The literals, if this is a restriction that has any. -/
def SimpleType.enumerations? (t : SimpleType) : Option (List Facet) :=
  match t.variety with
  | .restriction r => if r.enumerations.isEmpty then none else some r.enumerations
  | _ => none

structure AttributeDeclaration where
  name : String
  documentation : Option String
  type : Option SimpleTypeRef
  default : Option String
  fixed : Option String

inductive AttributeUse where
  | declaration (d : AttributeDeclaration) (required : Bool)
  | reference (name : String) (required : Bool)
  | group (name : String)

structure AttributeGroup where
  name : String
  uses : List AttributeUse

inductive Compositor where
  | all
  | choice
  | sequence
deriving DecidableEq, Repr

def Compositor.ofTag? : String → Option Compositor
  | "all" => some .all
  | "choice" => some .choice
  | "sequence" => some .sequence
  | _ => none

mutual

structure Particle where
  minimum : Nat
  maximum : MaxOccurs
  term : Term

inductive Term where
  | element (d : ElementDeclaration)
  | elementRef (name : String)
  | group (g : ModelGroup)
  | groupRef (name : String)
  | wildcard

structure ModelGroup where
  compositor : Compositor
  particles : List Particle

structure ElementDeclaration where
  name : String
  documentation : Option String
  type : ElementType
  isAbstract : Bool

/-- Without a type an element may contain anything. -/
inductive ElementType where
  | named (name : TypeName)
  | simple (t : SimpleType)
  | complex (t : ComplexType)
  | any

/-- `attributes` holds the uses declared here; those of a base type are found through the
content. -/
structure ComplexType where
  name : Option String
  documentation : Option String
  isAbstract : Bool
  mixed : Bool
  content : ComplexContent
  attributes : List AttributeUse

inductive ComplexContent where
  | empty
  | particle (p : Particle)
  | simpleExtension (base : TypeName)
  | simpleRestriction (r : Restriction)
  | extension (base : TypeName) (particle : Option Particle)

end

/-- A particle that cannot occur contributes nothing. -/
def Particle.isProhibited (p : Particle) : Bool :=
  p.maximum == .count 0

structure GroupDefinition where
  name : String
  documentation : Option String
  group : ModelGroup

/-- The top-level components by name, each table in document order. -/
structure Model where
  targetNamespace : Option String := none
  simpleTypes : List (String × SimpleType) := []
  complexTypes : List (String × ComplexType) := []
  elements : List (String × ElementDeclaration) := []
  attributes : List (String × AttributeDeclaration) := []
  attributeGroups : List (String × AttributeGroup) := []
  groups : List (String × GroupDefinition) := []

/-- The first entry of a table under a name. -/
def find {α : Type} (table : List (String × α)) (name : String) : Option α :=
  (table.find? (·.1 == name)).map (·.2)

namespace Model

def simpleType (m : Model) (name : String) : Option SimpleType := find m.simpleTypes name
def complexType (m : Model) (name : String) : Option ComplexType := find m.complexTypes name
def element (m : Model) (name : String) : Option ElementDeclaration := find m.elements name
def attribute? (m : Model) (name : String) : Option AttributeDeclaration := find m.attributes name
def attributeGroup (m : Model) (name : String) : Option AttributeGroup :=
  find m.attributeGroups name
def group (m : Model) (name : String) : Option GroupDefinition := find m.groups name

end Model

end XmlBinding.Schema
