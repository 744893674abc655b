import XmlBinding.Binding.SimpleTypes
/-!
# Attribute fields

The attribute uses of a type become the fields of a class: references are followed, groups are
expanded in place, and of several attributes of one name the first counts. A field and its setter
both need a name that is free in the class.
-/
namespace XmlBinding.Binding
open Schema Value

/-- Members that a class may have of its own. -/
def reservedMembers : List String :=
  ["new", "this", "parent", "set_parent", "children", "children_of", "content", "set_content",
   "element_name", "namespace", "output_xml", "as_any", "as_any_mut", "as_parent",
   "as_parent_mut", "as_child_factory", "as_set_attributes", "add_child", "remove_child",
   "create_child", "set_attribute"]

def setterName (member : String) : String := "set_" ++ member

/-- The members of a class with these fields. -/
def takenMembers (fields : List Field) : List String :=
  reservedMembers ++ fields.flatMap fun f => [f.member, setterName f.member]

/-- Whether a field and its setter may have this name. -/
def memberIsFree (taken : List String) (member : String) : Bool :=
  !taken.contains member && !taken.contains (setterName member)

/-- The name of a field: the base, the base marked as an attribute, or that with a number. -/
def chooseMember (taken : List String) (base : String) : String :=
  let marked := base ++ "_attr"
  if memberIsFree taken base then base
  else if memberIsFree taken marked then marked
  else numbered marked
    (firstFree (fun k => memberIsFree taken (numbered marked k)) (2 * taken.length + 1) 2)

/-- Adds a field unless there is one for the attribute. -/
def addField (fields : List Field) (xmlName : String) (type : FieldType)
    (documentation : Option String) : List Field :=
  if fields.any (·.xmlName = xmlName) then fields
  else fields ++
    [⟨xmlName, chooseMember (takenMembers fields) (memberName xmlName), type, documentation⟩]

/-- The type or class whose anonymous attribute types are named and shared. -/
structure Scope where
  key : ScopeKey
  name : String
  owner : Option String
deriving DecidableEq, Repr

namespace Scope

/-- The scope of a named type. An abstract one has no class to own enumerations. -/
def ofType (name : String) (entry : TypeEntry) : Scope :=
  ⟨.type name, entry.name, if entry.isAbstract then none else some entry.name⟩

def ofClass (className : String) : Scope :=
  ⟨.struct className, className, some className⟩

def target (s : Scope) (attr : String) : Target :=
  ⟨attr ++ "Type", some (s.name ++ attr ++ "Type"), s.owner⟩

end Scope

/-- Runs `resolve` unless its result is remembered. -/
def remembering (key : ScopeKey × String) (resolve : Build FieldType) : Build FieldType := do
  match remembered (← get).attributeTypes key with
  | some t => return t
  | none =>
    let t ← resolve
    modify fun c => { c with attributeTypes := (key, t) :: c.attributeTypes }
    return t

section
variable (model : Model)

/-- What an attribute is kept as. Its own anonymous type is resolved once in a scope. -/
def attributeType (key : ScopeKey) (target : Target) (d : AttributeDeclaration) :
    Build FieldType :=
  match d.type with
  | none => return .primitive .string
  | some (.named name) => resolveTypeName (resolveNamed model) name
  | some (.inline t) =>
    remembering (key, d.name) (resolveSimpleType (resolveNamed model) target t)

/-- What a top-level attribute is kept as. -/
def globalAttributeType (d : AttributeDeclaration) : Build FieldType :=
  attributeType model .global (.shared (d.name ++ "Type")) d

/-- Adds the fields of attribute uses; `group` adds those of a group. -/
def addUses (group : String → List Field → Build (List Field)) (scope : Scope) :
    List AttributeUse → List Field → Build (List Field)
  | [], fields => return fields
  | .declaration d _ :: uses, fields => do
    let t ← attributeType model scope.key (scope.target d.name) d
    addUses group scope uses (addField fields d.name t d.documentation)
  | .reference name _ :: uses, fields => do
    match model.attribute? name with
    | none => fail (.unknown .attribute name)
    | some d =>
      let t ← globalAttributeType model d
      addUses group scope uses (addField fields d.name t d.documentation)
  | .group name :: uses, fields => do
    addUses group scope uses (← group name fields)

/-- Adds the fields of an attribute group; `active` are the groups being expanded. No more groups
can be expanded at once than there are, so the bound is never reached. -/
def addGroupWithin (scope : Scope) :
    Nat → List String → String → List Field → Build (List Field)
  | 0, _, name, _ => fail (.unsupported (.nesting .attributeGroup name))
  | bound + 1, active, name, fields => do
    match model.attributeGroup name with
    | none => fail (.unknown .attributeGroup name)
    | some g =>
      if active.contains name then fail (.circular .attributeGroup name)
      else addUses model (addGroupWithin scope bound (name :: active)) scope g.uses fields

/-- Adds the fields that attribute uses stand for. -/
def addAttributes (scope : Scope) (uses : List AttributeUse) (fields : List Field) :
    Build (List Field) :=
  addUses model (addGroupWithin model scope (model.attributeGroups.length + 1) []) scope uses fields

end

end XmlBinding.Binding
