import XmlBinding.Proofs.Binding.Documents
import XmlBinding.Proofs.Binding.Turns
import XmlBinding.Proofs.Schema.Uses

/-! # Attributes are inherited base first

The fields of a class are for the attribute uses of its type and of all types that it is derived
through, as the schema states them, outermost base first. References and groups are replaced by what
they stand for, and of several attributes of one name the first is kept.
-/
namespace XmlBinding.Binding
open Schema Xml

/-! ## Classes of complex types -/

/-- A class that is built for a complex type, a concrete one of the top level or that of an
element. -/
inductive ElementClass.BuiltOf (model : Model) (t : ComplexType) (k : ElementClass) : Prop
  | type {name : String} (ht : t.isAbstract = false)
      (h : k.BuiltBy (buildComplexType model name t))
  | element {d : ElementDeclaration} (ht : d.type.complex? model = some t)
      (h : k.BuiltFor model d)

/-- A class has the fields and the markers of a draft of its type. -/
def ElementClass.DraftedOf (model : Model) (t : ComplexType) (k : ElementClass) : Prop :=
  ∃ d, Contributes model t {} d ∧ k.fields = d.fields ∧ k.markers = d.markers

section
variable {model : Model} {k : ElementClass} {t : ComplexType}

theorem buildClass_drafted
    (members : String → List DeclaredParticle → Build (Option Membership)) (origin : Origin)
    (name : String) (d : ElementDeclaration) :
    Ensures (fun _ => True) (buildClass model members origin name d)
      fun _ c => ∃ k ∈ c.classes.getLast?,
        (∀ t, d.type.complex? model = some t → k.DraftedOf model t) ∧
        (d.type.complex? model = none → k.fields = []) := by
  rw [buildClass]
  split
  · next hany =>
    rw [hany]
    exact addClass_last ⟨by simp [ElementType.complex?], fun _ => rfl⟩
  · refine (complexTypeOf?_complex? name d.type).bind_of_result fun r hr => ?_
    rw [hr]
    split
    · next scope t =>
      refine (derive_contributes scope t).bind_of_result fun draft hdraft => ?_
      refine ensures_true.bind fun ms => addClass_last ⟨fun s hs => ?_, by simp⟩
      obtain rfl := Option.some.inj hs
      exact ⟨draft, hdraft, rfl, rfl⟩
    · exact ensures_true.bind fun text => addClass_last ⟨by simp, fun _ => rfl⟩

theorem buildComplexType_drafted (name : String) (ht : t.isAbstract = false) :
    Ensures (fun _ => True) (buildComplexType model name t)
      fun _ c => ∃ k ∈ c.classes.getLast?, k.DraftedOf model t := by
  refine ensures_true.bind fun scope => ?_
  rw [ht]
  refine (derive_contributes scope t).bind_of_result fun draft hdraft => ?_
  exact ensures_true.bind fun ms => addClass_last ⟨draft, hdraft, rfl, rfl⟩

theorem ElementClass.BuiltFor.drafted {d : ElementDeclaration} (h : k.BuiltFor model d) :
    (∀ t, d.type.complex? model = some t → k.DraftedOf model t) ∧
      (d.type.complex? model = none → k.fields = []) := by
  rcases h with ⟨name, h⟩ | ⟨bound, groups, name, h⟩
  · exact h.ensured (ensures_true.bind fun className => buildClass_drafted _ _ className d)
  · exact h.ensured (buildClass_drafted _ _ name d)

theorem ElementClass.BuiltOf.drafted (h : k.BuiltOf model t) : k.DraftedOf model t := by
  cases h with
  | type ht h => exact h.ensured (buildComplexType_drafted _ ht)
  | element ht h => exact h.drafted.1 t ht

/-- The fields of a class are for the attributes of its type, the first of every name. -/
theorem ElementClass.DraftedOf.names (h : k.DraftedOf model t) :
    ∃ names, AttributeNames model t names ∧ NamedFirst names k.fields := by
  obtain ⟨d, hd, hfields, -⟩ := h
  obtain ⟨names, hnames, hfirst⟩ := hd.names
  exact ⟨names, hnames, hfields ▸ hfirst [] rfl⟩

/-- An element has a complex type that is declared somewhere, or its class has no fields. -/
theorem ElementClass.BuiltFor.builtOf {d : ElementDeclaration} (h : k.BuiltFor model d)
    (hd : d.type.declared.Sublist model.declared) :
    (∃ t, .inr t ∈ model.declared ∧ k.BuiltOf model t) ∨ k.fields = [] := by
  cases htype : d.type.complex? model with
  | none => exact .inr (h.drafted.2 htype)
  | some t => exact .inl ⟨t, mem_declared_of_complex? hd htype, .element htype h⟩

end

/-! ## Modules -/

/-- The attributes of all classes of a module are those that its schema states. -/
structure Module.AttributesInherited (root : Element) (model : Model) (m : Module) : Prop where
  /-- A complex type is read from an element of the document, and its uses from those that state
  them; -/
  types : ∀ t, .inr t ∈ model.declared → ∃ e, root.Contains e ∧ readComplexType e = .ok t ∧
    ReadFrom (statedUses e) t.attributes
  /-- likewise an attribute group. -/
  groups : ∀ p ∈ model.attributeGroups, ∃ e, root.Contains e ∧ readAttributeGroup e = .ok p.2 ∧
    ReadFrom (e.elements.filter statesUse) p.2.uses
  /-- Every class is built for a complex type or has no fields. -/
  classes : ∀ k ∈ m.classes,
    (∃ t, .inr t ∈ model.declared ∧ k.BuiltOf model t) ∨ k.fields = []
  /-- Every concrete type of the schema has a class. -/
  complexTypes : ∀ e ∈ model.complexTypes, e.2.isAbstract = false →
    ∃ k ∈ m.classes, k.xmlName = e.1 ∧ k.BuiltOf model e.2
  /-- The fields of a class are for what the uses of the types that its type is derived through
  stand for, outermost base first, and for the first of every name. -/
  names : ∀ k ∈ m.classes, ∀ t, k.BuiltOf model t → ∃ ts sources, Chain model t ts ∧
    Expansions model ts sources ∧
    k.fields.map (·.xmlName) = firstOf id (sources.flatten.map (·.name))

section
variable {model : Model} {m : Module}

theorem InTurn.builtOf {k : ElementClass}
    (h : InTurn model model.complexTypes model.elements m.classes) (hk : k ∈ m.classes) :
    (∃ t, .inr t ∈ model.declared ∧ k.BuiltOf model t) ∨ k.fields = [] := by
  cases horigin : k.origin with
  | topLevel =>
    obtain ⟨e, he, hbuilt⟩ := exists_of_mem_right h.elements
      (List.mem_filter.mpr ⟨hk, decide_eq_true horigin⟩)
    have htype := e.2.sublist_type.trans (model.sublist_of_element he)
    exact ElementClass.BuiltFor.builtOf (.inl ⟨e.1, hbuilt⟩) htype
  | localElement =>
    obtain ⟨d, hd, hinner⟩ := h.inner k hk horigin
    have htype := d.sublist_type.trans (model.sublist_of_mem_allElements hd)
    exact ElementClass.BuiltFor.builtOf (.inr hinner) htype
  | complexType =>
    obtain ⟨e, he, hbuilt⟩ := exists_of_mem_right h.types
      (List.mem_filter.mpr ⟨hk, decide_eq_true horigin⟩)
    obtain ⟨he, hconcrete⟩ := List.mem_filter.mp he
    refine .inl ⟨e.2, (model.sublist_of_complexType he).subset e.2.mem_declared, .type ?_ hbuilt⟩
    simpa using hconcrete

/-- A concrete type of the schema has a class of its name. -/
theorem InTurn.exists_ofType (h : InTurn model model.complexTypes model.elements m.classes)
    {e : String × ComplexType} (he : e ∈ model.complexTypes) (ht : e.2.isAbstract = false) :
    ∃ k ∈ m.classes, k.xmlName = e.1 ∧ k.BuiltOf model e.2 := by
  obtain ⟨k, hk, hbuilt⟩ := exists_of_mem_left h.types (List.mem_filter.mpr ⟨he, by simp [ht]⟩)
  exact ⟨k, (List.mem_filter.mp hk).1, (hbuilt.ofType ht).2.1, .type ht hbuilt⟩

theorem Module.attributesInherited_of_ofModel {root : Element} (hmodel : readModel root = .ok model)
    (hm : Module.ofModel model = .ok m) : m.AttributesInherited root model where
  types t ht := by
    obtain ⟨e, he, hread⟩ := (readInside_of_readModel hmodel).declared t ht
    exact ⟨e, he, hread, readComplexType_readFrom e t hread⟩
  groups p hp := by
    obtain ⟨e, he, hread⟩ := (readInside_of_readModel hmodel).attributeGroups p hp
    exact ⟨e, he, hread, readAttributeGroup_readFrom e p.2 hread⟩
  classes _ hk := (Module.inTurn_of_ofModel (keyed_of_readModel hmodel) hm).builtOf hk
  complexTypes _ he ht :=
    (Module.inTurn_of_ofModel (keyed_of_readModel hmodel) hm).exists_ofType he ht
  names k _ t hk := by
    obtain ⟨names, ⟨ts, sources, hchain, hexpand, rfl⟩, hnames⟩ := hk.drafted.names
    exact ⟨ts, sources, hchain, hexpand, hnames⟩

end

end XmlBinding.Binding

namespace XmlBinding
open Schema Binding Xml Code

/-- Generated classes have the attributes that are stated for their types, those of a base before
those of what is derived from it. -/
theorem attributesInherited_of_generate {text source : String} {options : Options}
    (h : generate text options = .ok source) :
    ∃ root model m modules support, readDocument options.allowDoctype text = .ok root ∧
      readModel root = .ok model ∧ Module.ofModel model = .ok m ∧
      source = (sourceFile m modules support).text ∧ m.AttributesInherited root model := by
  obtain ⟨m, modules, support, hm, hsource⟩ := exists_of_generate h
  obtain ⟨model, hread, hbound⟩ := bindSchema_eq_ok.mp hm
  obtain ⟨root, hroot, hmodel⟩ := readSchema_eq_ok.mp hread
  exact ⟨root, model, m, modules, support, hroot, hmodel, hbound, hsource,
    Module.attributesInherited_of_ofModel hmodel hbound⟩

/-- A type with groups of attributes in each other, and one that extends it. -/
def cellOutline : Outline :=
  let node (tag : String) (attributes : List (String × String)) (children : List Outline) :
      Outline := ⟨tag, none, attributes, none, children⟩
  let word (name : String) := node "attribute" [("name", name)] []
  node "schema" [] [
    word "unit",
    node "attributeGroup" [("name", "depth")] [word "z"],
    node "attributeGroup" [("name", "place")] [
      node "attribute" [("ref", "unit")] [], word "row",
      node "attribute" [("name", "old"), ("use", "prohibited")] [],
      node "attributeGroup" [("ref", "depth")] []],
    node "complexType" [("name", "Base")] [node "attributeGroup" [("ref", "place")] []],
    node "complexType" [("name", "Cell")] [node "complexContent" []
      [node "extension" [("base", "Base")] [word "row", word "kind"]]]]

def cellSchema : Model :=
  let word (name : String) : AttributeDeclaration := ⟨name, none, none, none, none⟩
  { complexTypes := [
      ("Base", ⟨some "Base", none, false, false, .empty, [.group "place"]⟩),
      ("Cell", ⟨some "Cell", none, false, false, .extension (.schema "Base") none,
        [.declaration (word "row") false, .declaration (word "kind") false]⟩)]
    attributes := [("unit", word "unit")]
    attributeGroups := [
      ("depth", ⟨"depth", [.declaration (word "z") false]⟩),
      ("place", ⟨"place",
        [.reference "unit" false, .declaration (word "row") false, .group "depth"]⟩)] }

theorem readModel_cellOutline : readModel (cellOutline.element none []) = .ok cellSchema := by
  cbv

/-- The names of the attributes of the classes of a module, with those of the classes. -/
def Binding.Module.attributeNames (m : Module) : List (String × List String) :=
  m.classes.map fun k => (k.xmlName, k.fields.map (·.xmlName))

theorem attributesInherited_cellOutline :
    ∃ source, generate cellOutline.document {} = .ok source ∧
      ∃ root model m modules support, readDocument false cellOutline.document = .ok root ∧
        readModel root = .ok model ∧ Module.ofModel model = .ok m ∧
        source = (sourceFile m modules support).text ∧
        m.attributeNames =
          [("Base", ["unit", "row", "z"]), ("Cell", ["unit", "row", "z", "kind"])] ∧
        m.AttributesInherited root model := by
  obtain ⟨m, hm, hnames⟩ := exists_bindSchema_document (P := fun m => m.attributeNames =
      [("Base", ["unit", "row", "z"]), ("Cell", ["unit", "row", "z", "kind"])])
    (by decide +kernel) readModel_cellOutline (by decide +kernel) false
  obtain ⟨source, hsource⟩ := exists_generate hm
  obtain ⟨root, model, m', modules, support, hroot, hmodel, hbound, hrest⟩ :=
    attributesInherited_of_generate hsource
  have hread := readSchema_eq_ok.mpr ⟨root, hroot, hmodel⟩
  have hm' := bindSchema_eq_ok.mpr ⟨model, hread, hbound⟩
  obtain rfl : m' = m := Except.ok.inj (hm'.symm.trans hm)
  exact ⟨source, hsource, root, model, m', modules, support, hroot, hmodel, hbound, hrest.1,
    of_decide_eq_true hnames, hrest.2⟩

end XmlBinding
