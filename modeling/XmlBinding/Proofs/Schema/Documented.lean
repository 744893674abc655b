import XmlBinding.Proofs.Binding.Attributes
import XmlBinding.Proofs.Schema.Documentation
import XmlBinding.Proofs.Schema.Uses

/-! # Documentation of the components of a schema

All documentation that a schema has been read with is normal: that of its types, elements and
attributes, and that of literals, however deep inside of a component they are declared.
-/
namespace XmlBinding.Schema
open Binding Xml

/-! ## Simple types -/

mutual

def SimpleType.Documented : SimpleType → Prop
  | ⟨_, documentation, variety⟩ => Schema.Documented documentation ∧ variety.Documented

def Variety.Documented : Variety → Prop
  | .restriction r => r.Documented
  | .list item => item.Documented
  | .union members => documentedRefs members

def SimpleTypeRef.Documented : SimpleTypeRef → Prop
  | .named _ => True
  | .inline t => t.Documented

def documentedRefs : List SimpleTypeRef → Prop
  | [] => True
  | r :: rs => r.Documented ∧ documentedRefs rs

def Restriction.Documented : Restriction → Prop
  | ⟨base, enumerations, _, _⟩ =>
    base.Documented ∧ ∀ f ∈ enumerations, Schema.Documented f.documentation

end

theorem documentedRefs_iff {rs : List SimpleTypeRef} :
    documentedRefs rs ↔ ∀ r ∈ rs, r.Documented := by
  induction rs with
  | nil => simp [documentedRefs]
  | cons r rs ih => simp [documentedRefs, ih]

theorem documented_none : Documented none := nofun

theorem documented_asType {r : Restriction} (h : r.Documented) : r.asType.Documented := by
  rw [Restriction.asType, SimpleType.Documented, Variety.Documented]
  exact ⟨documented_none, h⟩

theorem Facets.add_documented (restriction c : Element) {facets : Facets}
    (h : ∀ f ∈ facets.enumerations, Documented f.documentation) :
    Yields (Facets.add restriction facets c)
      fun facets => ∀ f ∈ facets.enumerations, Documented f.documentation := by
  unfold Facets.add
  split
  · refine yields_bind fun value => yields_ok ?_
    refine List.forall_mem_append.mpr ⟨h, ?_⟩
    simpa using documented_documentation c
  · split
    · exact yields_bind fun value => yields_ok h
    · split
      · exact yields_ok h
      · split
        · exact yields_ok h
        · exact yields_error

mutual

theorem readSimpleType_documented (e : Element) :
    Yields (readSimpleType e) SimpleType.Documented := by
  rw [readSimpleType]
  refine Yields.bind (yields_foldlM (P := fun found : Option Variety => ∀ v ∈ found, v.Documented)
    (fun found ⟨c, hc⟩ hfound => ?_) nofun) fun variety hvariety => ?_
  · dsimp only
    split
    · exact yields_ok hfound
    · refine (readVariety_documented e.tag c).bind fun v hv => ?_
      split
      · exact yields_error
      · exact yields_ok fun w hw => Option.some.inj hw ▸ hv
  · split
    · refine yields_ok ?_
      rw [SimpleType.Documented]
      exact ⟨documented_documentation e, hvariety _ rfl⟩
    · exact yields_error
termination_by (sizeOf e, 3)
decreasing_by exact Prod.Lex.left _ _ (Element.sizeOf_lt_of_mem hc)

theorem readVariety_documented (parent : String) (e : Element) :
    Yields (readVariety parent e) Variety.Documented := by
  rw [readVariety]
  split
  · refine (readRestriction_documented e).bind fun r hr => yields_ok ?_
    rwa [Variety.Documented]
  · refine (readList_documented e).bind fun item hitem => yields_ok ?_
    rwa [Variety.Documented]
  · refine (readUnion_documented e).bind fun members hmembers => yields_ok ?_
    rwa [Variety.Documented, documentedRefs_iff]
  · exact yields_error
termination_by (sizeOf e, 2)

theorem readRestriction_documented (e : Element) :
    Yields (readRestriction e) Restriction.Documented := by
  rw [readRestriction]
  refine (readSimpleRef_documented e "base").bind fun base hbase => ?_
  split
  · exact yields_error
  · refine Yields.bind (yields_foldlM (fun facets c h => Facets.add_documented e c h) (by simp))
      fun facets hfacets => yields_ok ?_
    rw [Restriction.Documented]
    exact ⟨hbase _ rfl, hfacets⟩
termination_by (sizeOf e, 1)

theorem readList_documented (e : Element) : Yields (readList e) SimpleTypeRef.Documented := by
  rw [readList]
  refine (readSimpleRef_documented e "itemType").bind fun item hitem => ?_
  split
  · exact yields_ok (hitem _ rfl)
  · exact yields_error
termination_by (sizeOf e, 1)

theorem readUnion_documented (e : Element) :
    Yields (readUnion e) fun members => ∀ r ∈ members, r.Documented := by
  rw [readUnion]
  refine yields_bind fun names => ?_
  refine Yields.bind (yields_mapM (Q := fun refs => ∀ r ∈ refs, SimpleTypeRef.Documented r)
    fun ⟨c, hc⟩ => ?_) fun inline hinline => yields_ok ?_
  · dsimp only
    split
    · exact yields_ok (by simp)
    · refine (readSimpleType_documented c).bind fun t ht => yields_ok ?_
      simpa [SimpleTypeRef.Documented] using ht
    · exact yields_error
  · refine List.forall_mem_append.mpr ⟨fun r hr => ?_, fun r hr => ?_⟩
    · obtain ⟨n, -, rfl⟩ := List.mem_map.mp hr
      rw [SimpleTypeRef.Documented]
      trivial
    · obtain ⟨refs, hrefs, hr⟩ := List.mem_flatten.mp hr
      exact hinline refs hrefs r hr
termination_by (sizeOf e, 1)
decreasing_by exact Prod.Lex.left _ _ (Element.sizeOf_lt_of_mem hc)

theorem readSimpleRef_documented (e : Element) (name : String) :
    Yields (readSimpleRef e name) fun found => ∀ r ∈ found, r.Documented := by
  rw [readSimpleRef]
  refine yields_bind fun n => ?_
  split
  · refine yields_ok fun r hr => ?_
    rw [← Option.some.inj hr, SimpleTypeRef.Documented]
    trivial
  · split
    · next c hc =>
      refine (readSimpleType_documented c).bind fun t ht => yields_ok fun r hr => ?_
      rwa [← Option.some.inj hr, SimpleTypeRef.Documented]
    · exact yields_ok nofun
termination_by (sizeOf e, 0)
decreasing_by exact Prod.Lex.left _ _ (Element.sizeOf_lt_of_mem (List.mem_of_find?_eq_some ‹_›))

end

/-! ## Attributes and complex types -/

structure AttributeDeclaration.Documented (d : AttributeDeclaration) : Prop where
  documentation : Schema.Documented d.documentation
  valueType : d.valueType.Documented

def AttributeUse.Documented : AttributeUse → Prop
  | .declaration d _ => d.Documented
  | .reference .. | .group _ => True

def ComplexContent.Documented : ComplexContent → Prop
  | .simpleRestriction r => r.Documented
  | _ => True

structure ComplexType.Documented (t : ComplexType) : Prop where
  documentation : Schema.Documented t.documentation
  content : t.content.Documented
  attributes : ∀ u ∈ t.attributes, u.Documented

theorem documented_plainText : plainText.Documented := by
  rw [plainText, SimpleTypeRef.Documented]
  trivial

theorem readAttribute_documented (e : Element) :
    Yields (readAttribute e) AttributeDeclaration.Documented := by
  unfold readAttribute
  refine yields_bind fun name => (readSimpleRef_documented e "type").bind fun type htype => ?_
  refine yields_ok ⟨documented_documentation e, ?_⟩
  cases type with
  | none => exact documented_plainText
  | some ref => exact htype ref rfl

theorem readAttributeUse_documented (e : Element) :
    Yields (readAttributeUse e) fun found => ∀ u ∈ found, u.Documented := by
  unfold readAttributeUse
  split
  · split
    · exact yields_ok nofun
    · refine yields_bind fun ref => ?_
      split
      · refine yields_ok fun u hu => ?_
        rw [← Option.some.inj hu, AttributeUse.Documented]
        trivial
      · refine (readAttribute_documented e).bind fun d hd => yields_ok fun u hu => ?_
        rwa [← Option.some.inj hu]
  · refine yields_bind fun name => yields_ok fun u hu => ?_
    rw [← Option.some.inj hu, AttributeUse.Documented]
    trivial
  · exact yields_error

theorem ReadFrom.documented {es : List Element} {uses : List AttributeUse}
    (h : ReadFrom es uses) : ∀ u ∈ uses, u.Documented := by
  induction h with
  | nil => exact List.forall_mem_nil _
  | @cons e use _ _ hread _ ih =>
    exact List.forall_mem_cons.mpr ⟨readAttributeUse_documented e _ hread use rfl, ih⟩

/-- The content that a type has been read with so far. -/
def ContentParts.Documented (parts : ContentParts) : Prop :=
  ∀ c ∈ parts.content, c.Documented

theorem documented_of_particle (particle : Option Particle) :
    (particle.elim ComplexContent.empty .particle).Documented := by
  cases particle <;> trivial

theorem kept_documented : ContentParts.Kept ContentParts.Documented fun _ => True where
  start _ := nofun
  mixed _ h := h
  uses _ h := h
  particle h _ := h
  simpleExtension _ _ _ hc := Option.some.inj hc ▸ trivial
  simpleRestriction hr _ _ hc := Option.some.inj hc ▸ readRestriction_documented _ _ hr
  extension _ _ _ hc := Option.some.inj hc ▸ trivial
  restriction _ _ hc := Option.some.inj hc ▸ documented_of_particle _

theorem readComplexType_documented (e : Element) :
    Yields (readComplexType e) ComplexType.Documented := by
  intro t ht
  obtain ⟨hdocumentation, parts, hparts, hcontent⟩ :=
    kept_documented.readComplexType (fun _ _ _ _ _ _ _ => trivial) t ht
  refine ⟨hdocumentation ▸ documented_documentation e, ?_,
    (readComplexType_readFrom e t ht).documented⟩
  rw [hcontent]
  cases hcontent : parts.content with
  | none => exact documented_of_particle _
  | some content => exact hparts content hcontent

theorem readElement_documented (e : Element) : Yields (readElement e) fun d =>
    Documented d.documentation ∧ d.type.valueType.Documented := by
  rw [readElement]
  refine yields_bind fun name => yields_bind fun isAbstract => yields_bind fun named => ?_
  cases named with
  | some n =>
    refine yields_ok ⟨documented_documentation e, ?_⟩
    dsimp only
    split
    · exact documented_plainText
    · rw [ElementType.valueType, SimpleTypeRef.Documented]
      trivial
  | none =>
    refine Yields.bind (yields_foldlM (P := fun t => t.valueType.Documented)
      (fun found ⟨c, hc⟩ hfound => ?_) documented_plainText) fun type htype =>
        yields_ok ⟨documented_documentation e, htype⟩
    dsimp only
    split
    · refine (readSimpleType_documented c).bind fun t ht => yields_ok ?_
      rwa [ElementType.valueType, SimpleTypeRef.Documented]
    · exact yields_bind fun t => yields_ok documented_plainText
    iterate 5 exact yields_ok hfound
    · exact yields_error

/-! ## Schemas -/

structure Model.Documented (m : Model) : Prop where
  simpleTypes : ∀ p ∈ m.simpleTypes, p.2.Documented
  elements : ∀ d, .inl d ∈ m.declared →
    Schema.Documented d.documentation ∧ d.type.valueType.Documented
  complexTypes : ∀ t, .inr t ∈ m.declared → t.Documented
  attributes : ∀ p ∈ m.attributes, p.2.Documented
  attributeGroups : ∀ p ∈ m.attributeGroups, ∀ u ∈ p.2.uses, u.Documented

theorem documented_of_readModel {root : Element} {m : Model} (h : readModel root = .ok m) :
    m.Documented := by
  have hread := readInside_of_readModel h
  constructor
  · intro p hp
    obtain ⟨e, -, he⟩ := hread.simpleTypes p hp
    exact readSimpleType_documented e p.2 he
  · intro d hd
    obtain ⟨e, -, he⟩ := hread.element d hd
    exact readElement_documented e d he
  · intro t ht
    obtain ⟨e, -, he⟩ := hread.declared t ht
    exact readComplexType_documented e t he
  · intro p hp
    obtain ⟨e, -, he⟩ := hread.attributes p hp
    exact readAttribute_documented e p.2 he
  · intro p hp
    obtain ⟨e, -, he⟩ := hread.attributeGroups p hp
    exact (readAttributeGroup_readFrom e p.2 he).documented

theorem ComplexContent.Documented.statedText {m : Model} {content : ComplexContent}
    (h : content.Documented) {ref : SimpleTypeRef} (href : content.statedText? m = some ref) :
    ref.Documented := by
  cases content with
  | simpleExtension base =>
    rw [ComplexContent.statedText?] at href
    split at href
    · cases href
    · rw [← Option.some.inj href, SimpleTypeRef.Documented]
      trivial
  | simpleRestriction r =>
    obtain ⟨r', hr', rfl⟩ := Option.map_eq_some_iff.mp href
    rw [ComplexContent.restriction?] at hr'
    split at hr'
    · obtain rfl := Option.some.inj hr'
      rw [SimpleTypeRef.Documented]
      exact documented_asType h
    · cases hr'
  | empty => cases href
  | particle p => cases href
  | extension base p => cases href

section
variable {m : Model} (h : m.Documented)
include h

/-- What the schema asks to be resolved is documented if it has no name. -/
theorem Model.Documented.asked {ref : SimpleTypeRef} (href : m.Asks ref) : ref.Documented := by
  cases href with
  | simpleType he => rw [SimpleTypeRef.Documented]; trivial
  | topLevel he => exact (h.attributes _ he).valueType
  | use ht hd => exact ((h.complexTypes _ ht).attributes _ hd).valueType
  | groupUse he hd => exact AttributeDeclaration.Documented.valueType (h.attributeGroups _ he _ hd)
  | @text t ref ht hstated =>
    exact (h.complexTypes t ht).content.statedText hstated
  | element hd => exact (h.elements _ hd).2

theorem Model.Documented.sources {uses : List AttributeUse} {sources : List AttributeSource}
    (hsources : Expands m uses sources) (huses : ∀ u ∈ uses, u.Documented) :
    ∀ s ∈ sources, Schema.Documented s.declaration.documentation := by
  induction hsources with
  | nil => exact List.forall_mem_nil _
  | declaration _ ih =>
    obtain ⟨hd, huses⟩ := List.forall_mem_cons.mp huses
    exact List.forall_mem_cons.mpr ⟨AttributeDeclaration.Documented.documentation hd, ih huses⟩
  | reference hd _ ih =>
    obtain ⟨-, huses⟩ := List.forall_mem_cons.mp huses
    exact List.forall_mem_cons.mpr
      ⟨(h.attributes _ (mem_of_find hd)).documentation, ih huses⟩
  | group hg _ _ ihinner ih =>
    obtain ⟨-, huses⟩ := List.forall_mem_cons.mp huses
    exact List.forall_mem_append.mpr
      ⟨ihinner (h.attributeGroups _ (mem_of_find hg)), ih huses⟩

theorem Model.Documented.values {t : ComplexType}
    {attributes : List (ComplexType × AttributeSource)} {text : Option SimpleTypeRef}
    (hvalues : HasValues m t attributes text) (ht : .inr t ∈ m.declared) :
    ∀ a ∈ attributes, Schema.Documented a.2.declaration.documentation := by
  induction hvalues with
  | alone _ hsources =>
    intro a ha
    obtain ⟨s, hs, rfl⟩ := List.mem_map.mp ha
    exact h.sources hsources (h.complexTypes _ ht).attributes s hs
  | derived hbase _ hsources ih =>
    intro a ha
    rcases List.mem_append.mp ha with ha | ha
    · exact ih (mem_declared_of_baseType? hbase) a ha
    · obtain ⟨s, hs, rfl⟩ := List.mem_map.mp ha
      exact h.sources hsources (h.complexTypes _ ht).attributes s hs

end

end XmlBinding.Schema
