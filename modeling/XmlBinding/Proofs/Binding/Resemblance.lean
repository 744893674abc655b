import XmlBinding.Proofs.Binding.Reaching

/-! # Schemas in another order

Components are referred to by name, so that the order of a table matters only where the table is
gone through: the construction does that for simple types, complex types and elements.
-/
namespace XmlBinding.Schema
open Binding

/-- The same components in another order. -/
structure Model.Reorders (model' model : Model) : Prop where
  targetNamespace : model'.targetNamespace = model.targetNamespace
  simpleTypes : model'.simpleTypes.Perm model.simpleTypes
  complexTypes : model'.complexTypes.Perm model.complexTypes
  elements : model'.elements.Perm model.elements
  attributes : model'.attributes.Perm model.attributes
  attributeGroups : model'.attributeGroups.Perm model.attributeGroups
  groups : model'.groups.Perm model.groups

/-- Schemas in which names stand for the same components, and for as many. -/
structure Model.Resembles (model' model : Model) : Prop where
  simpleType : ∀ name, model'.simpleType name = model.simpleType name
  complexType : ∀ name, model'.complexType name = model.complexType name
  attribute? : ∀ name, model'.attribute? name = model.attribute? name
  attributeGroup : ∀ name, model'.attributeGroup name = model.attributeGroup name
  group : ∀ name, model'.group name = model.group name
  simpleTypesLength : model'.simpleTypes.length = model.simpleTypes.length
  complexTypesLength : model'.complexTypes.length = model.complexTypes.length
  attributeGroupsLength : model'.attributeGroups.length = model.attributeGroups.length
  groupsLength : model'.groups.length = model.groups.length
  declarations : model'.declarations = model.declarations

section
variable {model model' : Model}

theorem Model.Reorders.keyed (h : model'.Reorders model) (hm : model.Keyed) : model'.Keyed where
  simpleTypes := (h.simpleTypes.map _).nodup_iff.mpr hm.simpleTypes
  complexTypes := (h.complexTypes.map _).nodup_iff.mpr hm.complexTypes
  elements := (h.elements.map _).nodup_iff.mpr hm.elements
  complexTypeName p hp := hm.complexTypeName p (h.complexTypes.mem_iff.mp hp)
  elementName p hp := hm.elementName p (h.elements.mem_iff.mp hp)

theorem Model.Reorders.declared (h : model'.Reorders model) :
    model'.declared.Perm model.declared :=
  ((h.elements.flatMap_right _).append (h.complexTypes.flatMap_right _)).append
    (h.groups.flatMap_right _)

theorem Model.Reorders.resembles (h : model'.Reorders model) (hm : model.Keyed)
    (hgroups : model.GroupsKeyed) : model'.Resembles model where
  simpleType := find_eq_of_perm h.simpleTypes hm.simpleTypes
  complexType := find_eq_of_perm h.complexTypes hm.complexTypes
  attribute? := find_eq_of_perm h.attributes hgroups.attributes
  attributeGroup := find_eq_of_perm h.attributeGroups hgroups.attributeGroups
  group := find_eq_of_perm h.groups hgroups.groups
  simpleTypesLength := h.simpleTypes.length_eq
  complexTypesLength := h.complexTypes.length_eq
  attributeGroupsLength := h.attributeGroups.length_eq
  groupsLength := h.groups.length_eq
  declarations := by
    rw [← model'.length_declared, ← model.length_declared, h.declared.length_eq]

end

end XmlBinding.Schema

namespace XmlBinding.Binding
open Schema

section
variable {model model' : Model} (h : model'.Resembles model)
include h

/-! ## Simple types and fields -/

theorem resolveNamedWithin_eq (bound : Nat) (active : List String) (name : String) :
    resolveNamedWithin model' bound active name = resolveNamedWithin model bound active name := by
  induction bound generalizing active name with
  | zero => rfl
  | succ bound ih =>
    simp only [resolveNamedWithin, definedSimpleType, h.simpleType, h.complexType, funext (ih _)]

theorem resolveNamed_eq : resolveNamed model' = resolveNamed model := by
  funext name
  rw [resolveNamed, resolveNamed, h.simpleTypesLength, resolveNamedWithin_eq h]

theorem attributeType_eq : attributeType model' = attributeType model := by
  funext key target d
  rw [attributeType, attributeType, resolveNamed_eq h]

theorem addUses_eq (group : String → List Field → Build (List Field)) (scope : Scope)
    (uses : List AttributeUse) (fields : List Field) :
    addUses model' group scope uses fields = addUses model group scope uses fields := by
  induction uses generalizing fields with
  | nil => rfl
  | cons u uses ih =>
    cases u <;>
      simp only [addUses, globalAttributeType, attributeType_eq h, h.attribute?, ih]

theorem addGroupWithin_eq (scope : Scope) (bound : Nat) (active : List String) (name : String)
    (fields : List Field) : addGroupWithin model' scope bound active name fields =
      addGroupWithin model scope bound active name fields := by
  induction bound generalizing active name fields with
  | zero => rfl
  | succ bound ih =>
    have hgroup (active : List String) : addGroupWithin model' scope bound active =
        addGroupWithin model scope bound active := by
      funext name fields
      exact ih active name fields
    simp only [addGroupWithin, h.attributeGroup, addUses_eq h, hgroup]

theorem addAttributes_eq : addAttributes model' = addAttributes model := by
  funext scope uses fields
  have hgroup (bound : Nat) : addGroupWithin model' scope bound [] =
      addGroupWithin model scope bound [] := by
    funext name fields
    exact addGroupWithin_eq h scope bound [] name fields
  rw [addAttributes, addAttributes, h.attributeGroupsLength, hgroup, addUses_eq h]

/-! ## Complex types -/

theorem isComplex_eq_of_resembles : isComplex model' = isComplex model := by
  funext name
  cases name with
  | builtin name => rfl
  | schema name => rw [isComplex, isComplex, h.complexType]

theorem complexBase?_eq (r : Restriction) : complexBase? model' r = complexBase? model r := by
  rw [complexBase?, complexBase?, isComplex_eq_of_resembles h]

theorem addContent_eq (base : TypeName → Draft → Build Draft) (scope : Scope)
    (name : Option String) (d : Draft) (content : ComplexContent) :
    addContent model' base scope name d content = addContent model base scope name d content := by
  cases content <;>
    simp only [addContent, restrictedContent, complexBase?_eq h, isComplex_eq_of_resembles h,
      resolveNamed_eq h]

theorem addBaseWithin_eq (bound : Nat) (active : List String) (name : TypeName) (d : Draft) :
    addBaseWithin model' bound active name d = addBaseWithin model bound active name d := by
  induction bound generalizing active name d with
  | zero => cases name <;> rfl
  | succ bound ih =>
    cases name with
    | builtin name => rfl
    | schema name =>
      have hbase (active : List String) : addBaseWithin model' bound active =
          addBaseWithin model bound active := by
        funext name d
        exact ih active name d
      simp only [addBaseWithin, h.complexType, addType, addContent_eq h, addAttributes_eq h, hbase]

theorem derive_eq : derive model' = derive model := by
  funext scope t
  have hbase (bound : Nat) : addBaseWithin model' bound [] = addBaseWithin model bound [] := by
    funext name d
    exact addBaseWithin_eq h bound [] name d
  simp only [derive, addType, addContent_eq h, addAttributes_eq h, h.complexTypesLength, hbase]

/-! ## Classes -/

theorem complexTypeOf?_eq (className : String) (type : ElementType) :
    complexTypeOf? model' className type = complexTypeOf? model className type := by
  unfold complexTypeOf?
  split <;> simp only [h.complexType]

theorem buildClass_eq : buildClass model' = buildClass model := by
  funext members origin name d
  simp only [buildClass, complexTypeOf?_eq h, derive_eq h, simpleContent, resolveNamed_eq h,
    documentationOf, h.complexType]

theorem within_eq (bound : Nat) :
    localElementWithin model' bound = localElementWithin model bound ∧
      referredGroupWithin model' bound = referredGroupWithin model bound := by
  induction bound with
  | zero =>
    constructor
    · funext groups declaredIn owner d
      simp only [localElementWithin]
    · funext groups declaredIn owner name minimum m
      simp only [referredGroupWithin]
  | succ bound ih =>
    constructor
    · funext groups declaredIn owner d
      simp only [localElementWithin, buildClass_eq h, ih.1, ih.2]
    · funext groups declaredIn owner name minimum m
      simp only [referredGroupWithin, h.group, ih.1, ih.2]

theorem membershipOf_eq : membershipOf model' = membershipOf model := by
  funext owner ps
  have hbound : nestingBound model' = nestingBound model := by
    simp only [nestingBound, h.declarations, h.groupsLength]
  rw [membershipOf, membershipOf, hbound, (within_eq h _).1, (within_eq h _).2]

theorem buildComplexType_eq : buildComplexType model' = buildComplexType model := by
  funext name t
  simp only [buildComplexType, derive_eq h, membershipOf_eq h]

theorem buildElement_eq : buildElement model' = buildElement model := by
  funext name d
  simp only [buildElement, buildClass_eq h, membershipOf_eq h]

end

/-- The module does not depend on the order of attributes and groups of any kind. -/
theorem Module.ofModel_eq {model model' : Model} (h : model'.Resembles model)
    (htargetNamespace : model'.targetNamespace = model.targetNamespace)
    (hsimpleTypes : model'.simpleTypes = model.simpleTypes)
    (hcomplexTypes : model'.complexTypes = model.complexTypes)
    (helements : model'.elements = model.elements) : ofModel model' = ofModel model := by
  simp only [ofModel, buildAll, hsimpleTypes, hcomplexTypes, helements, htargetNamespace,
    resolveNamed_eq h, buildComplexType_eq h, buildElement_eq h]

end XmlBinding.Binding
