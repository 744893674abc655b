import XmlBinding.Binding.Enumeration
import XmlBinding.Tree.Collection
import XmlBinding.Value.Primitive
/-!
# The module bound to a schema

A class for every kind of element, with the values its attributes and its text are kept as and the
children it may hold; the enumerations these values come from; and markers for abstract types.
-/
namespace XmlBinding.Binding
open Schema Value

/-- How a value is kept; enumerations are told by their place in the module. -/
inductive FieldType where
  | primitive (p : Primitive)
  | enumeration (place : Nat)
deriving DecidableEq, Repr

/-- An optional value set by an attribute. -/
structure Field where
  xmlName : String
  member : String
  type : FieldType
  documentation : Option String
deriving DecidableEq, Repr

mutual

/-- The children a class may hold. Every maximum is already multiplied by those of the groups
around it. -/
structure Membership where
  compositor : Tree.Compositor
  minimum : Nat
  maximum : MaxOccurs
  slots : List MemberSlot

inductive MemberSlot where
  | element (xmlName className : String) (maximum : MaxOccurs)
  | wildcard (maximum : MaxOccurs)
  | group (m : Membership)

end

/-- What a class was made for, in the order of the registry. -/
inductive Origin where
  | topLevel
  | localElement
  | complexType
deriving DecidableEq, Repr

/-- `content` is how the text of an element is kept, if it may have any. -/
structure ElementClass where
  name : String
  origin : Origin
  xmlName : String
  documentation : Option String
  content : Option FieldType
  fields : List Field
  membership : Option Membership
  markers : List String
  registered : Bool

/-- Stands for an abstract type. -/
structure Marker where
  name : String
  documentation : Option String
deriving DecidableEq, Repr

structure Module where
  targetNamespace : Option String
  enumerations : List Enumeration
  markers : List Marker
  classes : List ElementClass

mutual

/-- The collection a parent starts out with. -/
def Membership.collection : Membership → Tree.Collection
  | ⟨compositor, minimum, maximum, slots⟩ =>
    ⟨compositor, minimum, maximum.count?, slotEntries slots⟩

def MemberSlot.entry : MemberSlot → Tree.Entry
  | .element xmlName _ maximum => .slot ⟨some xmlName, maximum.count?, []⟩
  | .wildcard maximum => .slot ⟨none, maximum.count?, []⟩
  | .group m => .nested m.collection

def slotEntries : List MemberSlot → List Tree.Entry
  | [] => []
  | s :: ss => s.entry :: slotEntries ss

end

mutual

/-- The named slots at any depth, as pairs of an element and its class. -/
def Membership.named : Membership → List (String × String)
  | ⟨_, _, _, slots⟩ => namedSlots slots

def MemberSlot.named : MemberSlot → List (String × String)
  | .element xmlName className _ => [(xmlName, className)]
  | .wildcard _ => []
  | .group m => m.named

def namedSlots : List MemberSlot → List (String × String)
  | [] => []
  | s :: ss => s.named ++ namedSlots ss

end

/-- Keeps the first pair of every key. -/
def firstOfEach {α : Type} : List (String × α) → List (String × α)
  | [] => []
  | p :: r => p :: (firstOfEach r).filter fun q => q.1 ≠ p.1

/-- The children a class can create, each name once. -/
def Membership.creatable (m : Membership) : List (String × String) :=
  firstOfEach m.named

/-- Text content is set like an attribute of this name. -/
def contentName : String := "Content"

def contentMember : String := "content"

/-- The text content of a class as a field. -/
def ElementClass.contentField? (c : ElementClass) : Option Field :=
  c.content.map fun t => ⟨contentName, contentMember, t, none⟩

/-- All values of a class, text content first. -/
def ElementClass.values (c : ElementClass) : List Field :=
  c.contentField?.toList ++ c.fields

namespace Module

def class? (m : Module) (name : String) : Option ElementClass :=
  m.classes.find? (·.name = name)

/-- The class that holds the reading functions of an enumeration. Those of an owner that became no
class are held apart. -/
def home? (m : Module) (e : Enumeration) : Option String :=
  e.owner.filter fun owner => m.classes.any (·.name = owner)

/-- The classes in registry order: top-level elements, local elements, complex types. -/
def registered (m : Module) : List ElementClass :=
  let listed (o : Origin) := m.classes.filter fun c => c.registered && c.origin = o
  listed .topLevel ++ listed .localElement ++ listed .complexType

end Module

end XmlBinding.Binding
