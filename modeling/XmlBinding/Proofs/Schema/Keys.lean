import XmlBinding.Proofs.Schema.Names
import XmlBinding.Schema.Document

/-! # Tables of a schema that was read

Names are unique in a table of a schema, and a component is listed under the name it bears. -/
namespace XmlBinding.Schema
open Xml

theorem find_cons {α : Type} (e : String × α) (table : List (String × α)) (name : String) :
    find (e :: table) name = if e.1 = name then some e.2 else find table name := by
  rw [find, List.find?_cons]
  by_cases h : e.1 = name
  · simp [h]
  · rw [beq_false_of_ne h, if_neg h, find]

/-- Where keys are unique, every entry is found. -/
theorem find_eq_some_iff {α : Type} {table : List (String × α)} (h : (table.map (·.1)).Nodup)
    {name : String} {a : α} : find table name = some a ↔ (name, a) ∈ table := by
  refine ⟨mem_of_find, fun hmem => ?_⟩
  induction table with
  | nil => cases hmem
  | cons e table ih =>
    obtain ⟨hnew, h⟩ := List.nodup_cons.mp h
    rw [find_cons]
    rcases List.mem_cons.mp hmem with rfl | hmem
    · exact if_pos rfl
    · rw [if_neg, ih h hmem]
      rintro rfl
      exact hnew (List.mem_map.mpr ⟨_, hmem, rfl⟩)

theorem find_eq_of_perm {α : Type} {table table' : List (String × α)} (h : table'.Perm table)
    (hkeys : (table.map (·.1)).Nodup) (name : String) : find table' name = find table name := by
  refine Option.ext fun a => ?_
  rw [find_eq_some_iff hkeys, find_eq_some_iff ((h.map _).nodup_iff.mpr hkeys), h.mem_iff]

/-- What the tables of a schema keep to, whatever was read. -/
structure Model.Keyed (m : Model) : Prop where
  simpleTypes : (m.simpleTypes.map (·.1)).Nodup
  complexTypes : (m.complexTypes.map (·.1)).Nodup
  elements : (m.elements.map (·.1)).Nodup
  complexTypeName : ∀ p ∈ m.complexTypes, p.2.name = some p.1
  elementName : ∀ p ∈ m.elements, p.2.name = p.1

section
variable {α β : Type} {a : α} {b : β}

theorem ok_of_bind {ε : Type} {x : Except ε α} {f : α → Except ε β} (h : x >>= f = .ok b) :
    ∃ a, x = .ok a ∧ f a = .ok b := by
  cases x with
  | error e => cases h
  | ok a => exact ⟨a, rfl, h⟩

theorem foldlM_induction {f : β → α → Result β} {P : β → Prop} {xs : List α}
    (hf : ∀ b b', ∀ a ∈ xs, P b → f b a = .ok b' → P b') {b b' : β} (hb : P b)
    (h : xs.foldlM f b = .ok b') : P b' := by
  induction xs generalizing b with
  | nil =>
    cases h
    exact hb
  | cons x xs ih =>
    rw [List.foldlM_cons] at h
    obtain ⟨c, hc, h⟩ := ok_of_bind h
    refine ih (fun b b' a ha => hf b b' a (List.mem_cons_of_mem x ha)) ?_ h
    exact hf b c x List.mem_cons_self hb hc

theorem attribute_of_requiredText {e : Element} {name value : String}
    (h : requiredText e name = .ok value) : e.attribute? name = some value := by
  rw [requiredText, requiredAs] at h
  obtain ⟨found, hfound, h⟩ := ok_of_bind h
  rw [attributeAs] at hfound
  cases hvalue : e.attribute? name with
  | none =>
    rw [hvalue] at hfound
    cases hfound
    cases h
  | some v =>
    rw [hvalue] at hfound
    cases hfound
    cases h
    rfl

theorem name_of_readComplexType {e : Element} {t : ComplexType}
    (h : readComplexType e = .ok t) : t.name = e.attribute? "name" := by
  rw [readComplexType] at h
  obtain ⟨isAbstract, _, h⟩ := ok_of_bind h
  obtain ⟨mixed, _, h⟩ := ok_of_bind h
  obtain ⟨parts, _, h⟩ := ok_of_bind h
  cases h
  rfl

variable {kind : Kind} {table table' : List (String × α)} {name : String}

theorem nodup_insertNew (h : insertNew kind table name a = .ok table')
    (ht : (table.map (·.1)).Nodup) : (table'.map (·.1)).Nodup := by
  rw [insertNew] at h
  split at h
  · cases h
  · next hnew =>
    have hnew : name ∉ table.map (·.1) := by simpa using hnew
    cases h
    rw [List.map_append, List.map_singleton, List.nodup_append]
    refine ⟨ht, by simp, fun x hx y hy hxy => hnew ?_⟩
    obtain rfl : x = name := hxy.trans (List.mem_singleton.mp hy)
    exact hx

theorem forall_insertNew (h : insertNew kind table name a = .ok table')
    {P : String × α → Prop} (ht : ∀ p ∈ table, P p) (ha : P (name, a)) : ∀ p ∈ table', P p := by
  rw [insertNew] at h
  split at h
  · cases h
  · cases h
    intro p hp
    rcases List.mem_append.mp hp with hp | hp
    · exact ht p hp
    · exact List.mem_singleton.mp hp ▸ ha

end

/-- A component that is listed under the name it bears. -/
def Component.OwnName : Component → Prop
  | .complexType name t => t.name = some name
  | _ => True

/-- A child of a schema declares what is read from it, a component of the kind of its tag. -/
inductive Component.DeclaredBy (c : Element) : Component → Prop
  | simpleType {name : String} {t : SimpleType} (htag : c.tag = "simpleType")
      (ht : readSimpleType c = .ok t) (hname : c.attribute? "name" = some name) :
      DeclaredBy c (.simpleType name t)
  | complexType {name : String} {t : ComplexType} (htag : c.tag = "complexType")
      (ht : readComplexType c = .ok t) (hname : c.attribute? "name" = some name) :
      DeclaredBy c (.complexType name t)
  | element {d : ElementDeclaration} (htag : c.tag = "element") (hd : readElement c = .ok d) :
      DeclaredBy c (.element d)
  | «attribute» {d : AttributeDeclaration} (htag : c.tag = "attribute")
      (hd : Schema.readAttribute c = .ok d) : DeclaredBy c (.attribute d)
  | attributeGroup {g : AttributeGroup} (htag : c.tag = "attributeGroup")
      (hg : readAttributeGroup c = .ok g) : DeclaredBy c (.attributeGroup g)
  | group {g : GroupDefinition} (htag : c.tag = "group") (hg : readGroup c = .ok g) :
      DeclaredBy c (.group g)

theorem declaredBy_of_readComponent {schema c : Element} {found : Option Component}
    (h : readComponent schema c = .ok found) :
    found.elim (c.tag = "annotation" ∨ c.tag = "notation") (·.DeclaredBy c) := by
  unfold readComponent at h
  split at h
  · next htag =>
    cases h
    exact .inl htag
  · next htag =>
    cases h
    exact .inr htag
  · next htag =>
    obtain ⟨t, ht, h⟩ := ok_of_bind h
    obtain ⟨name, hname, h⟩ := ok_of_bind h
    cases h
    exact .simpleType htag ht (attribute_of_requiredText hname)
  · next htag =>
    obtain ⟨t, ht, h⟩ := ok_of_bind h
    obtain ⟨name, hname, h⟩ := ok_of_bind h
    cases h
    exact .complexType htag ht (attribute_of_requiredText hname)
  · next htag =>
    obtain ⟨d, hd, h⟩ := ok_of_bind h
    cases h
    exact .element htag hd
  · next htag =>
    obtain ⟨d, hd, h⟩ := ok_of_bind h
    cases h
    exact .attribute htag hd
  · next htag =>
    obtain ⟨g, hg, h⟩ := ok_of_bind h
    cases h
    exact .attributeGroup htag hg
  · next htag =>
    obtain ⟨g, hg, h⟩ := ok_of_bind h
    cases h
    exact .group htag hg
  · split at h <;> cases h

theorem Component.DeclaredBy.ownName {c : Element} {component : Component}
    (h : component.DeclaredBy c) : component.OwnName := by
  cases h with
  | complexType _ ht hname => exact (name_of_readComplexType ht).trans hname
  | _ => trivial

theorem Model.Keyed.add {m m' : Model} (hm : m.Keyed) {component : Component}
    (hc : component.OwnName) (h : m.add component = .ok m') : m'.Keyed := by
  cases component with
  | simpleType name t =>
    obtain ⟨table, htable, h⟩ := ok_of_bind h
    cases h
    exact { hm with simpleTypes := nodup_insertNew htable hm.simpleTypes }
  | complexType name t =>
    obtain ⟨table, htable, h⟩ := ok_of_bind h
    cases h
    exact { hm with
      complexTypes := nodup_insertNew htable hm.complexTypes
      complexTypeName := forall_insertNew htable hm.complexTypeName hc }
  | element d =>
    obtain ⟨table, htable, h⟩ := ok_of_bind h
    cases h
    exact { hm with
      elements := nodup_insertNew htable hm.elements
      elementName := forall_insertNew htable hm.elementName rfl }
  | _ =>
    obtain ⟨table, _, h⟩ := ok_of_bind h
    cases h
    exact { hm with }

/-- What holds of a schema without components and is kept by adding one holds of a schema that was
read. -/
theorem readModel_induction {schema : Element} {m : Model} {P : Model → Prop}
    (h : readModel schema = .ok m)
    (hstart : P { targetNamespace := schema.attribute? "targetNamespace" })
    (hadd : ∀ m m', ∀ c ∈ schema.elements, ∀ component, P m →
      readComponent schema c = .ok (some component) → m.add component = .ok m' → P m') : P m := by
  rw [readModel] at h
  split at h
  · cases h
  · obtain ⟨m', hread, h⟩ := ok_of_bind h
    have hm' : P m' := by
      refine foldlM_induction (fun m m' c hc hm hchild => ?_) hstart hread
      obtain ⟨component, hcomponent, hchild⟩ := ok_of_bind hchild
      cases component with
      | none =>
        cases hchild
        exact hm
      | some component => exact hadd m m' c hc component hm hcomponent hchild
    split at h
    · cases h
    · cases h
      exact hm'

/-- Reading lists every component once, under its own name. -/
theorem keyed_of_readModel {schema : Element} {m : Model} (h : readModel schema = .ok m) :
    m.Keyed :=
  readModel_induction h ⟨by simp, by simp, by simp, by simp, by simp⟩
    fun _ _ _ _ _ hm hcomponent hc => hm.add (declaredBy_of_readComponent hcomponent).ownName hc

/-- The tables of attributes and groups are keyed, too. -/
structure Model.GroupsKeyed (m : Model) : Prop where
  attributes : (m.attributes.map (·.1)).Nodup
  attributeGroups : (m.attributeGroups.map (·.1)).Nodup
  groups : (m.groups.map (·.1)).Nodup

theorem Model.GroupsKeyed.add {m m' : Model} (hm : m.GroupsKeyed) {component : Component}
    (h : m.add component = .ok m') : m'.GroupsKeyed := by
  match component with
  | .attribute d =>
    obtain ⟨table, htable, h⟩ := ok_of_bind h
    cases h
    exact { hm with attributes := nodup_insertNew htable hm.attributes }
  | .attributeGroup g =>
    obtain ⟨table, htable, h⟩ := ok_of_bind h
    cases h
    exact { hm with attributeGroups := nodup_insertNew htable hm.attributeGroups }
  | .group g =>
    obtain ⟨table, htable, h⟩ := ok_of_bind h
    cases h
    exact { hm with groups := nodup_insertNew htable hm.groups }
  | .simpleType _ _ | .complexType _ _ | .element _ =>
    obtain ⟨table, _, h⟩ := ok_of_bind h
    cases h
    exact { hm with }

theorem groupsKeyed_of_readModel {schema : Element} {m : Model} (h : readModel schema = .ok m) :
    m.GroupsKeyed :=
  readModel_induction h ⟨by simp, by simp, by simp⟩ fun _ _ _ _ _ hm _ hc => hm.add hc

/-- An attribute is found under its own name. -/
theorem attributeName_of_readModel {schema : Element} {m : Model} (h : readModel schema = .ok m) :
    ∀ p ∈ m.attributes, p.2.name = p.1 := by
  refine readModel_induction (P := fun m => ∀ p ∈ m.attributes, p.2.name = p.1) h (by simp)
    fun m m' _ _ component hm _ hc => ?_
  match component with
  | .attribute d =>
    obtain ⟨table, htable, h⟩ := ok_of_bind hc
    cases h
    exact forall_insertNew htable hm rfl
  | .attributeGroup _ | .group _ | .simpleType _ _ | .complexType _ _ | .element _ =>
    obtain ⟨table, _, h⟩ := ok_of_bind hc
    cases h
    exact hm

theorem keyed_of_readSchema {text : String} {allowDoctype : Bool} {model : Model}
    (h : readSchema allowDoctype text = .ok model) : model.Keyed :=
  have ⟨_, _, hread⟩ := readSchema_eq_ok.mp h
  keyed_of_readModel hread

theorem attributeName_of_readSchema {text : String} {allowDoctype : Bool} {model : Model}
    (h : readSchema allowDoctype text = .ok model) : ∀ p ∈ model.attributes, p.2.name = p.1 :=
  have ⟨_, _, hread⟩ := readSchema_eq_ok.mp h
  attributeName_of_readModel hread

theorem groupsKeyed_of_readSchema {text : String} {allowDoctype : Bool} {model : Model}
    (h : readSchema allowDoctype text = .ok model) : model.GroupsKeyed :=
  have ⟨_, _, hread⟩ := readSchema_eq_ok.mp h
  groupsKeyed_of_readModel hread

end XmlBinding.Schema
