import XmlBinding.Binding.Module
/-!
# Blueprints of elements

A blueprint says how a new element of some kind looks and behaves: its name, the children it may
hold and can create, and what becomes of values set by name. Kinds refer to each other by name.
-/
namespace XmlBinding.Tree
open Binding Value

/-- The name of a kind within a group of kinds. -/
structure Kind where
  group : String
  name : String
deriving DecidableEq, Repr

/-- What a value is read as. -/
inductive ValueKind where
  | primitive (p : Primitive)
  | enumeration (e : Enumeration)
deriving DecidableEq, Repr

/-- A value that is set. -/
inductive Held where
  | datum (d : Datum)
  | symbol (s : Symbol)
  | flags (bits : Nat)
deriving DecidableEq, Repr

/-- A value of an element, set and written under a name, or as its text. -/
structure ValueRule where
  name : String
  kind : ValueKind
  isText : Bool
deriving DecidableEq, Repr

/-- What becomes of values set by name: they are refused, recorded as they come, or read. -/
inductive AttributeRule where
  | refused
  | recorded
  | typed (rules : List ValueRule)
deriving DecidableEq, Repr

/-- Without a collection an element holds no children; without a list of what it can create it
creates none. -/
structure Blueprint where
  typeName : String
  elementName : String
  uri : Option String
  collection : Option Collection
  creatable : Option (List (String × Kind))
  attributes : AttributeRule

abbrev Blueprints := List (Kind × Blueprint)

def Blueprints.get? (bs : Blueprints) (kind : Kind) : Option Blueprint :=
  (bs.find? (·.1 = kind)).map (·.2)

/-- Reads a value. Of flags an unknown word is refused; a plain enumeration has a sentinel. -/
def ValueKind.read (kind : ValueKind) (s : String) : Except ValueFault Held :=
  match kind with
  | .primitive p => return .datum (← p.read s)
  | .enumeration e => match e.form with
    | .plain => .ok (.symbol (e.parse (some s)))
    | .flags => match e.readFlags (some s) with
      | some bits => .ok (.flags bits)
      | none => .error .unknownLiteral

/-- The text of a value, if it has one. -/
def ValueKind.text? (kind : ValueKind) : Held → Option String
  | .datum d => some d.text
  | .symbol s => s.text?
  | .flags bits => match kind with
    | .enumeration e => e.flagsText bits
    | .primitive _ => none

/-- The kinds of a module's classes, named after the classes. -/
def moduleBlueprints (group : String) (m : Module) : Blueprints :=
  let valueKind : FieldType → ValueKind
    | .primitive p => .primitive p
    | .enumeration place => match m.enumerations[place]? with
      | some e => .enumeration e
      | none => .primitive .string
  let rule (isText : Bool) (f : Field) : ValueRule := ⟨f.xmlName, valueKind f.type, isText⟩
  m.classes.map fun c =>
    (⟨group, c.name⟩,
      { typeName := group ++ "." ++ c.name
        elementName := c.xmlName
        uri := m.targetNamespace
        collection := c.membership.map Membership.collection
        creatable := c.membership.map fun ms =>
          ms.creatable.map fun (xmlName, className) => (xmlName, ⟨group, className⟩)
        attributes :=
          .typed (c.contentField?.toList.map (rule true) ++ c.fields.map (rule false)) })

end XmlBinding.Tree
