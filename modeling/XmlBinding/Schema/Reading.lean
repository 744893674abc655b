import XmlBinding.Schema.Component
import XmlBinding.Schema.Documentation
import XmlBinding.Value.Integer
import XmlBinding.Xml.Reading
/-!
# From elements to components

Each component is read from the element that declares it. Tags count by local name; the checks of
an element run in the order in which its attributes and children matter, so that the first fault
in that order is the one reported.
-/
namespace XmlBinding.Schema
open Text Xml Value

abbrev Result := Except SchemaError

/-- The value of an attribute as `convert` understands it, if the attribute is there. -/
def attributeAs {α : Type} (convert : String → Except AttributeFault α) (e : Element)
    (name : String) : Result (Option α) :=
  match e.attribute? name with
  | none => .ok none
  | some value =>
    match convert value with
    | .ok a => .ok (some a)
    | .error fault => .error (.invalidAttribute e.tag name value fault)

def requiredAs {α : Type} (convert : String → Except AttributeFault α) (e : Element)
    (name : String) : Result α := do
  match ← attributeAs convert e name with
  | some a => .ok a
  | none => .error (.missingAttribute e.tag name)

def convertBool (s : String) : Except AttributeFault Bool :=
  let t := trim s
  if t = "true" ∨ t = "1" then .ok true
  else if t = "false" ∨ t = "0" then .ok false
  else .error .notBoolean

def convertCount (s : String) : Except AttributeFault Nat :=
  match (IntegerType.mk false 64).read s with
  | .ok n => .ok n.toNat
  | .error _ => .error .notCount

def boolAttribute (e : Element) (name : String) : Result (Option Bool) :=
  attributeAs convertBool e name

def nameAttribute (e : Element) (name : String) : Result (Option ExpandedName) :=
  attributeAs (resolveName e.scope) e name

def requiredText (e : Element) (name : String) : Result String :=
  requiredAs .ok e name

def requiredName (e : Element) (name : String) : Result ExpandedName :=
  requiredAs (resolveName e.scope) e name

def unexpected (parent child : Element) : SchemaError :=
  .unexpectedElement parent.tag child.tag

/-- Facets that have no bearing on a binding. -/
def otherFacets : List String :=
  ["length", "minLength", "maxLength", "whiteSpace", "maxInclusive", "maxExclusive",
   "minInclusive", "minExclusive", "totalDigits", "fractionDigits", "explicitTimezone",
   "assertion"]

/-- What a restriction has read of its children. -/
structure Facets where
  enumerations : List Facet := []
  patterns : List String := []
  others : List String := []

def Facets.add (restriction : Element) (f : Facets) (c : Element) : Result Facets :=
  if c.tag = "enumeration" then do
    let value ← requiredText c "value"
    .ok { f with enumerations := f.enumerations ++ [⟨value, documentation c⟩] }
  else if c.tag = "pattern" then do
    .ok { f with patterns := f.patterns ++ [← requiredText c "value"] }
  else if otherFacets.contains c.tag then .ok { f with others := f.others ++ [c.tag] }
  else if ["annotation", "simpleType", "attribute", "attributeGroup", "anyAttribute"].contains c.tag
  then .ok f
  else .error (unexpected restriction c)

mutual

def readSimpleType (e : Element) : Result SimpleType := do
  let variety ← e.elements.attach.foldlM (fun (found : Option Variety) ⟨c, _⟩ =>
    if c.tag = "annotation" then .ok found
    else do
      let variety ← readVariety e.tag c
      if found.isSome then .error (unexpected e c) else .ok (some variety)) none
  match variety with
  | some variety => .ok ⟨e.attribute? "name", documentation e, variety⟩
  | none => .error (.missingContent "simpleType" .variety)
termination_by (sizeOf e, 3)
decreasing_by exact Prod.Lex.left _ _ (Element.sizeOf_lt_of_mem ‹_›)

def readVariety (parent : String) (e : Element) : Result Variety :=
  match e.tag with
  | "restriction" => do return .restriction (← readRestriction e)
  | "list" => do return .list (← readList e)
  | "union" => do return .union (← readUnion e)
  | tag => .error (.unexpectedElement parent tag)
termination_by (sizeOf e, 2)

def readRestriction (e : Element) : Result Restriction := do
  match ← readSimpleRef e "base" with
  | none => .error (.missingAttribute "restriction" "base")
  | some base =>
    let facets ← e.elements.foldlM (Facets.add e) {}
    .ok ⟨base, facets.enumerations, facets.patterns, facets.others⟩
termination_by (sizeOf e, 1)

def readList (e : Element) : Result SimpleTypeRef := do
  match ← readSimpleRef e "itemType" with
  | some item => .ok item
  | none => .error (.missingAttribute "list" "itemType")
termination_by (sizeOf e, 1)

def readUnion (e : Element) : Result (List SimpleTypeRef) := do
  let names ← attributeAs (fun s => (asciiWords s).mapM (resolveName e.scope)) e "memberTypes"
  let named := (names.getD []).map fun n => SimpleTypeRef.named (.ofExpanded n)
  let inline ← e.elements.attach.mapM fun ⟨c, _⟩ =>
    match c.tag with
    | "annotation" => .ok []
    | "simpleType" => do return [SimpleTypeRef.inline (← readSimpleType c)]
    | _ => .error (unexpected e c)
  .ok (named ++ inline.flatten)
termination_by (sizeOf e, 1)
decreasing_by exact Prod.Lex.left _ _ (Element.sizeOf_lt_of_mem ‹_›)

/-- The type an attribute names, or else the first one declared in place. -/
def readSimpleRef (e : Element) (name : String) : Result (Option SimpleTypeRef) := do
  match ← nameAttribute e name with
  | some n => .ok (some (.named (.ofExpanded n)))
  | none =>
    match _h : e.elements.find? (·.tag == "simpleType") with
    | some c => do return some (.inline (← readSimpleType c))
    | none => .ok none
termination_by (sizeOf e, 0)
decreasing_by exact Prod.Lex.left _ _ (Element.sizeOf_lt_of_mem (List.mem_of_find?_eq_some _h))

end

def readAttribute (e : Element) : Result AttributeDeclaration := do
  let name ← requiredText e "name"
  let type ← readSimpleRef e "type"
  .ok ⟨name, documentation e, type, e.attribute? "default", e.attribute? "fixed"⟩

/-- A use of an attribute or of an attribute group; prohibited uses are none. -/
def readAttributeUse (e : Element) : Result (Option AttributeUse) :=
  match e.tag with
  | "attribute" =>
    if e.attribute? "use" = some "prohibited" then .ok none
    else do
      let required := e.attribute? "use" = some "required"
      match ← nameAttribute e "ref" with
      | some n => .ok (some (.reference n.localName required))
      | none => do return some (.declaration (← readAttribute e) required)
  | "attributeGroup" => do return some (.group (← requiredName e "ref").localName)
  | tag => .error (.unsupported tag)

def readAttributeGroup (e : Element) : Result AttributeGroup := do
  let name ← requiredText e "name"
  let uses ← e.elements.mapM fun c =>
    match c.tag with
    | "annotation" | "anyAttribute" => .ok none
    | "attribute" | "attributeGroup" => readAttributeUse c
    | _ => .error (unexpected e c)
  .ok ⟨name, uses.filterMap id⟩

/-- What the children of a complex type have contributed so far. -/
structure ContentParts where
  content : Option ComplexContent := none
  particle : Option Particle := none
  uses : List AttributeUse := []
  mixed : Bool

/-- The extension or restriction inside of simple or complex content. -/
def derivation? (e : Element) : Option Element :=
  e.elements.find? fun c => c.tag == "extension" || c.tag == "restriction"

theorem mem_of_derivation? {e d : Element} (h : derivation? e = some d) : d ∈ e.elements :=
  List.mem_of_find?_eq_some h

def requiredBase (derivation : Element) : Result TypeName := do
  return .ofExpanded (← requiredName derivation "base")

def readMaximum (e : Element) : Result MaxOccurs :=
  if e.attribute? "maxOccurs" = some "unbounded" then .ok .unbounded
  else do return (← attributeAs convertCount e "maxOccurs").elim .one .count

mutual

/-- A particle inside of an element with the tag `parent`. -/
def readParticle (parent : String) (e : Element) : Result Particle := do
  let minimum := (← attributeAs convertCount e "minOccurs").getD 1
  let maximum ← readMaximum e
  let term ← readTerm parent e
  .ok ⟨minimum, maximum, term⟩
termination_by (sizeOf e, 2)

def readTerm (parent : String) (e : Element) : Result Term :=
  match e.tag with
  | "element" => do
    match ← nameAttribute e "ref" with
    | some n => .ok (.elementRef n.localName)
    | none => do return .element (← readElement e)
  | "group" => do
    match ← nameAttribute e "ref" with
    | some n => .ok (.groupRef n.localName)
    | none => .error (.unexpectedElement parent e.tag)
  | "any" => .ok .wildcard
  | tag =>
    if (Compositor.ofTag? tag).isSome then do return .group (← readModelGroup e)
    else .error (.unexpectedElement parent tag)
termination_by (sizeOf e, 1)

def readModelGroup (e : Element) : Result ModelGroup := do
  match Compositor.ofTag? e.tag with
  | none => .error (.unsupported e.tag)
  | some compositor =>
    let particles ← e.elements.attach.mapM fun ⟨c, _⟩ =>
      if c.tag = "annotation" then .ok none
      else do return some (← readParticle e.tag c)
    .ok ⟨compositor, particles.filterMap id⟩
termination_by (sizeOf e, 0)
decreasing_by exact Prod.Lex.left _ _ (Element.sizeOf_lt_of_mem ‹_›)

def readElement (e : Element) : Result ElementDeclaration := do
  let name ← requiredText e "name"
  let isAbstract := (← boolAttribute e "abstract").getD false
  let type ← match ← nameAttribute e "type" with
    | some n =>
      let t := TypeName.ofExpanded n
      Except.ok (if t.isAnyType then ElementType.any else .named t)
    | none => e.elements.attach.foldlM (fun (found : ElementType) ⟨c, _⟩ =>
      match c.tag with
      | "simpleType" => do return .simple (← readSimpleType c)
      | "complexType" => do return .complex (← readComplexType c)
      | "annotation" | "unique" | "key" | "keyref" | "alternative" => .ok found
      | _ => .error (unexpected e c)) .any
  .ok ⟨name, documentation e, type, isAbstract⟩
termination_by (sizeOf e, 0)
decreasing_by exact Prod.Lex.left _ _ (Element.sizeOf_lt_of_mem ‹_›)

def readComplexType (e : Element) : Result ComplexType := do
  let isAbstract := (← boolAttribute e "abstract").getD false
  let mixed := (← boolAttribute e "mixed").getD false
  let parts ← e.elements.attach.foldlM (fun (parts : ContentParts) ⟨c, _⟩ =>
    match c.tag with
    | "annotation" => .ok parts
    | "simpleContent" => readSimpleContent c parts
    | "complexContent" => readComplexContent c parts
    | "openContent" | "assert" => .error (.unsupported c.tag)
    | _ => readContentChild e.tag c parts) { mixed }
  let content := parts.content.getD (parts.particle.elim .empty .particle)
  .ok ⟨e.attribute? "name", documentation e, isAbstract, parts.mixed, content, parts.uses⟩
termination_by (sizeOf e, 0)
decreasing_by all_goals exact Prod.Lex.left _ _ (Element.sizeOf_lt_of_mem ‹_›)

/-- An attribute use or a particle of a complex type or of a derivation; the last particle
counts. -/
def readContentChild (parent : String) (e : Element) (parts : ContentParts) :
    Result ContentParts :=
  match e.tag with
  | "annotation" | "anyAttribute" => .ok parts
  | "attribute" | "attributeGroup" => do
    return { parts with uses := parts.uses ++ (← readAttributeUse e).toList }
  | tag =>
    if tag = "group" ∨ (Compositor.ofTag? tag).isSome then do
      return { parts with particle := some (← readParticle parent e) }
    else .error (.unexpectedElement parent tag)
termination_by (sizeOf e, 3)

/-- Attribute uses and particles of a derivation; its facets belong to the restriction. -/
def readDerivation (e : Element) (parts : ContentParts) : Result ContentParts :=
  e.elements.attach.foldlM (fun (parts : ContentParts) ⟨c, _⟩ =>
    if ["simpleType", "enumeration", "pattern"].contains c.tag || otherFacets.contains c.tag then
      .ok parts
    else readContentChild e.tag c parts) parts
termination_by (sizeOf e, 0)
decreasing_by exact Prod.Lex.left _ _ (Element.sizeOf_lt_of_mem ‹_›)

def readSimpleContent (e : Element) (parts : ContentParts) : Result ContentParts :=
  match _h : derivation? e with
  | none => .error (.missingContent e.tag .derivation)
  | some d => do
    let content ← if d.tag = "extension" then do
        Except.ok (ComplexContent.simpleExtension (← requiredBase d))
      else do Except.ok (ComplexContent.simpleRestriction (← readRestriction d))
    readDerivation d { parts with content := some content }
termination_by (sizeOf e, 0)
decreasing_by exact Prod.Lex.left _ _ (Element.sizeOf_lt_of_mem (mem_of_derivation? _h))

/-- A restriction states its content in full, so its base does not matter. -/
def readComplexContent (e : Element) (parts : ContentParts) : Result ContentParts := do
  let mixed := (← boolAttribute e "mixed").getD parts.mixed
  match _h : derivation? e with
  | none => .error (.missingContent e.tag .derivation)
  | some d => do
    let base ← requiredBase d
    let parts ← readDerivation d { parts with mixed }
    let content := if d.tag = "extension" ∧ !base.isAnyType then .extension base parts.particle
      else parts.particle.elim .empty .particle
    .ok { parts with particle := none, content := some content }
termination_by (sizeOf e, 0)
decreasing_by exact Prod.Lex.left _ _ (Element.sizeOf_lt_of_mem (mem_of_derivation? _h))

end

def readGroup (e : Element) : Result GroupDefinition := do
  let name ← requiredText e "name"
  match e.elements.find? fun c => (Compositor.ofTag? c.tag).isSome with
  | none => .error (.missingContent "group" .compositor)
  | some c => do return ⟨name, documentation e, ← readModelGroup c⟩

end XmlBinding.Schema
