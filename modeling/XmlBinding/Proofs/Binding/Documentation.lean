import XmlBinding.Proofs.Binding.Requests
import XmlBinding.Proofs.Binding.Values
import XmlBinding.Proofs.Schema.Documented

/-! # Documentation of a module

Enumerations, markers and classes take over the documentation of what they are made for, so that of
a module is normal if that of its schema is.
-/
namespace XmlBinding.Binding
open Schema

structure Enumeration.Documented (e : Enumeration) : Prop where
  documentation : Schema.Documented e.documentation
  literals : ∀ f ∈ e.literals, Schema.Documented f.documentation

/-- What has been documented so far is normal. -/
structure Catalog.Documented (c : Catalog) : Prop where
  enumerations : ∀ e ∈ c.enumerations, e.Documented
  markers : ∀ k ∈ c.markers, Schema.Documented k.documentation
  classes : ∀ k ∈ c.classes, Schema.Documented k.documentation

theorem Catalog.Documented.of_eq {c c' : Catalog} (h : c.Documented)
    (he : c'.enumerations = c.enumerations) (hm : c'.markers = c.markers)
    (hk : c'.classes = c.classes) : c'.Documented :=
  ⟨he ▸ h.enumerations, hm ▸ h.markers, hk ▸ h.classes⟩

/-- A step after which all documentation is normal if it has been before. -/
abbrev KeepsDocumented {α : Type} (x : Build α) : Prop := Spares Catalog.Documented x

theorem modify_documented {f : Catalog → Catalog} (h : ∀ c, c.Documented → (f c).Documented) :
    KeepsDocumented (modify f : Build PUnit) :=
  ends_modify fun c hc => ⟨h c hc, trivial⟩

theorem reserve_documented (preferred : String) (alternative : Option String) :
    KeepsDocumented (reserve preferred alternative) := by
  refine settles_get.bind fun c hc => (settles_set ?_).bind fun _ _ => settles_pure trivial
  exact hc.of_eq rfl rfl rfl

/-! ## Enumerations -/

theorem addEnumeration_documented {e : Enumeration} (he : e.Documented) :
    KeepsDocumented (addEnumeration e) := by
  refine settles_get.bind fun c hc => (settles_set ?_).bind fun _ _ => settles_pure trivial
  refine ⟨fun d hd => ?_, hc.markers, hc.classes⟩
  rcases List.mem_append.mp hd with hd | hd
  · exact hc.enumerations d hd
  · exact List.mem_singleton.mp hd ▸ he

theorem promote_documented (place : Nat) : KeepsDocumented (promote place) := by
  refine settles_get.bind fun c hc => ?_
  split
  · exact settles_pure trivial
  · next e he =>
    have hplain := hc.enumerations e (List.mem_of_getElem? he)
    refine Settles.bind (R := Enumeration.Documented) ?_ fun f hf => settles_set ?_
    · refine ends_lift (fun _ _ => trivial) fun f _ hf hc => ⟨hc, ?_⟩
      rw [toFlags_eq hf]
      exact ⟨hplain.documentation, hplain.literals⟩
    · refine ⟨fun d hd => ?_, hc.markers, hc.classes⟩
      rcases List.mem_or_eq_of_mem_set hd with hd | rfl
      · exact hc.enumerations d hd
      · exact hf

theorem mem_of_mem_firstOf {α : Type} {name : α → String} {a : α} {as : List α}
    (h : a ∈ firstOf name as) : a ∈ as := by
  induction as with
  | nil => cases h
  | cons b as ih =>
    rw [firstOf] at h
    rcases List.mem_cons.mp h with rfl | h
    · exact List.mem_cons_self
    · exact List.mem_cons_of_mem b (ih (List.mem_filter.mp h).1)

theorem distinctLiterals_eq (facets : List Facet) :
    distinctLiterals facets = firstOf (·.value) facets := by
  induction facets with
  | nil => rfl
  | cons f facets ih => rw [distinctLiterals, firstOf, ih]

theorem documented_ofFacets (name : String) {documentation : Option String} (owner : Option String)
    {facets : List Facet} (h : Schema.Documented documentation)
    (hfacets : ∀ f ∈ facets, Schema.Documented f.documentation) :
    (Enumeration.ofFacets name documentation owner facets).Documented where
  documentation := h
  literals f hf := by
    rw [Enumeration.ofFacets, distinctLiterals_eq] at hf
    exact hfacets f (mem_of_mem_firstOf hf)

theorem enumerate_documented (target : Target) {documentation : Option String}
    (h : Schema.Documented documentation) {facets : List Facet}
    (hfacets : ∀ f ∈ facets, Schema.Documented f.documentation) :
    KeepsDocumented (enumerate target documentation facets) :=
  (reserve_documented _ _).bind fun name _ =>
    addEnumeration_documented (documented_ofFacets name target.owner h hfacets)

theorem listOf_documented (t : FieldType) : KeepsDocumented (listOf t) := by
  cases t with
  | primitive p => exact ends_fail trivial
  | enumeration place => exact (promote_documented place).bind fun _ _ => settles_pure trivial

section
variable {named : String → Build FieldType} (target : Target)

theorem resolveTypeName_documented (hnamed : ∀ name, KeepsDocumented (named name))
    (name : TypeName) : KeepsDocumented (resolveTypeName named name) := by
  cases name with
  | builtin name => exact settles_pure trivial
  | schema name => exact hnamed name

mutual

theorem resolveSimpleType_documented (hnamed : ∀ name, KeepsDocumented (named name)) :
    ∀ t : SimpleType, t.Documented → KeepsDocumented (resolveSimpleType named target t)
  | ⟨_, documentation, variety⟩, h => by
    rw [SimpleType.Documented] at h
    rw [resolveSimpleType]
    exact resolveVariety_documented hnamed h.1 variety h.2

theorem resolveVariety_documented (hnamed : ∀ name, KeepsDocumented (named name))
    {documentation : Option String} (h : Schema.Documented documentation) :
    ∀ v : Variety, v.Documented → KeepsDocumented (resolveVariety named target documentation v)
  | .restriction r, hv => by
    rw [Variety.Documented] at hv
    rw [resolveVariety]
    exact resolveRestriction_documented hnamed h r hv
  | .list item, hv => by
    rw [Variety.Documented] at hv
    rw [resolveVariety]
    exact (resolveRef_documented hnamed item hv).bind fun t _ => listOf_documented t
  | .union [], _ => by
    rw [resolveVariety]
    exact ends_fail trivial
  | .union (first :: _), hv => by
    rw [Variety.Documented, documentedRefs] at hv
    rw [resolveVariety]
    exact resolveRef_documented hnamed first hv.1

theorem resolveRef_documented (hnamed : ∀ name, KeepsDocumented (named name)) :
    ∀ r : SimpleTypeRef, r.Documented → KeepsDocumented (resolveRef named target r)
  | .named name, _ => by
    rw [resolveRef]
    exact resolveTypeName_documented hnamed name
  | .inline t, h => by
    rw [SimpleTypeRef.Documented] at h
    rw [resolveRef]
    exact resolveSimpleType_documented hnamed t h

theorem resolveRestriction_documented (hnamed : ∀ name, KeepsDocumented (named name))
    {documentation : Option String} (h : Schema.Documented documentation) :
    ∀ r : Restriction, r.Documented →
      KeepsDocumented (resolveRestriction named target documentation r)
  | ⟨base, enumerations, patterns, _⟩, hr => by
    rw [Restriction.Documented] at hr
    rw [resolveRestriction]
    refine Settles.bind (R := fun _ => True)
      (ends_lift (fun _ _ => trivial) fun _ _ _ hc => ⟨hc, trivial⟩) fun _ _ => ?_
    split
    · exact resolveRef_documented hnamed base hr.1
    · exact enumerate_documented target h hr.2

end

end

section
variable {model : Model} (h : model.Documented)
include h

theorem resolveNamedWithin_documented (bound : Nat) (active : List String) (name : String) :
    KeepsDocumented (resolveNamedWithin model bound active name) := by
  induction bound generalizing active name with
  | zero => exact ends_fail trivial
  | succ bound ih =>
    rw [resolveNamedWithin]
    refine settles_get.bind fun c _ => ?_
    split
    · exact settles_pure trivial
    · refine Settles.bind (R := SimpleType.Documented) ?_ fun t ht => ?_
      · exact ends_lift (fun _ _ => trivial) fun t c ht hc =>
          ⟨hc, h.simpleTypes _ (mem_of_find (simpleType_of_defined model ht))⟩
      split
      · exact ends_fail trivial
      · refine (resolveSimpleType_documented _ (ih (name :: active)) t ht).bind fun _ _ => ?_
        refine (modify_documented fun c hc => ?_).bind fun _ _ => settles_pure trivial
        exact hc.of_eq rfl rfl rfl

theorem serves_documented : Serves model (fun _ => True) Catalog.Documented where
  plain _ _ := trivial
  resolve q hq := resolveRef_documented q.target (resolveNamedWithin_documented h _ [])
    q.ref (h.asked hq)
  note _ _ hc := hc.of_eq rfl rfl rfl

end

/-! ## Classes and markers -/

theorem addClass_documented {k : ElementClass} (h : Schema.Documented k.documentation) :
    KeepsDocumented (addClass k) :=
  modify_documented fun c hc => ⟨hc.enumerations, hc.markers, fun k' hk' => by
    rcases List.mem_append.mp hk' with hk' | hk'
    · exact hc.classes k' hk'
    · exact List.mem_singleton.mp hk' ▸ h⟩

theorem rememberElement_documented (declaredIn : Option String) (d : ElementDeclaration)
    (className : String) : KeepsDocumented (rememberElement declaredIn d className) := by
  unfold rememberElement
  split
  · exact modify_documented fun c hc => hc.of_eq rfl rfl rfl
  · exact modify_documented fun c hc => hc.of_eq rfl rfl rfl
  · exact settles_pure trivial

section
variable {model : Model} (h : model.Documented) (hm : model.Keyed)
include h

/-- The class of an element is documented like the element or like its type. -/
theorem documented_documentationOf {d : ElementDeclaration} (hd : .inl d ∈ model.declared) :
    Schema.Documented (documentationOf model d) := by
  have hown := (h.elements d hd).1
  unfold documentationOf
  split
  · next hdocumentation => exact hdocumentation ▸ hown
  · next name _ _ =>
    intro s hs
    obtain ⟨t, ht, hs⟩ := Option.bind_eq_some_iff.mp hs
    have htype : model.typeNamed? (.schema name) = some t := ht
    exact (h.complexTypes t (mem_declared_of_typeNamed? htype)).documentation s hs
  · exact documented_none

theorem simpleContent_documented (className : String) {type : ElementType}
    (htype : model.Asks type.valueType) :
    KeepsDocumented (simpleContent model className type) := by
  cases type with
  | named name => exact (serves_documented h).typeName htype
  | simple t => exact (serves_documented h).simpleType _ htype
  | complex t => exact settles_pure trivial
  | any => exact settles_pure trivial

include hm

theorem buildClass_documented
    {members : String → List DeclaredParticle → Build (Option Membership)}
    (hmembers : MembersKeep model (fun _ : Unit => Catalog.Documented) members) (origin : Origin)
    (name : String) {d : ElementDeclaration} (hd : d.declared.Sublist model.declared) :
    KeepsDocumented (buildClass model members origin name d) := by
  have hmem : .inl d ∈ model.declared := hd.subset d.mem_declared
  have hdocumented := documented_documentationOf h hmem
  rw [buildClass]
  split
  · exact addClass_documented hdocumented
  · refine (complexTypeOf?_settles model (fun _ _ => trivial) hm name
      (d.sublist_type.trans hd)).bind fun r hr => ?_
    split
    · next scope t =>
      refine (derive_settles model (serves_documented h) hm scope (hr _ rfl)).bind
        fun draft hdraft => ?_
      exact (hmembers () draft _ name hdraft).bind fun ms _ => addClass_documented hdocumented
    · exact (simpleContent_documented h name (.element hmem)).bind fun t _ =>
        addClass_documented hdocumented

theorem keptInside_documented : KeptInside model fun _ : Unit => Catalog.Documented := by
  intro bound groups hmembers _ declaredIn owner d hd
  have hreserve : KeepsDocumented (reserveElement declaredIn owner d) :=
    settles_get.bind fun c _ => reserve_documented _ _
  refine hreserve.bind fun name _ => (rememberElement_documented declaredIn d name).bind
    fun _ _ => ?_
  exact (buildClass_documented h hm hmembers .localElement name hd).bind fun _ _ =>
    settles_pure trivial

theorem membershipOf_documented :
    MembersKeep model (fun _ : Unit => Catalog.Documented) (membershipOf model) :=
  (keptInside_documented h hm).members (nestingBound model) []

theorem buildComplexType_documented {e : String × ComplexType} (he : e ∈ model.complexTypes) :
    KeepsDocumented (buildComplexType model e.1 e.2) := by
  have hplaced := placed_of_complexType model hm he 0
  have hdocumented := (h.complexTypes e.2 hplaced.declared).documentation
  refine (typeScope_settles (fun _ _ => trivial) e.1).bind fun scope _ => ?_
  split
  · refine modify_documented fun c hc => ⟨hc.enumerations, fun k hk => ?_, hc.classes⟩
    rcases List.mem_append.mp hk with hk | hk
    · exact hc.markers k hk
    · exact List.mem_singleton.mp hk ▸ hdocumented
  · refine (derive_settles model (serves_documented h) hm scope hplaced).bind
      fun draft hdraft => ?_
    exact (membershipOf_documented h hm () draft 0 scope.name hdraft).bind fun ms _ =>
      addClass_documented hdocumented

theorem buildElement_documented {e : String × ElementDeclaration} (he : e ∈ model.elements) :
    KeepsDocumented (buildElement model e.1 e.2) :=
  (referredElement_settles (fun _ _ => trivial) e.1).bind fun className _ =>
    buildClass_documented h hm (membershipOf_documented h hm) .topLevel className
      (model.sublist_of_element he)

theorem buildAll_documented : KeepsDocumented (buildAll model) := by
  refine (forM_settles fun e _ => ?_).bind fun _ _ => ?_
  · exact Settles.bind (resolveNamedWithin_documented h _ _ e.1) fun _ _ => settles_pure trivial
  refine (forM_settles fun e _ => ?_).bind fun _ _ => ?_
  · exact (reserve_documented e.1 none).bind fun _ _ =>
      modify_documented fun c hc => hc.of_eq rfl rfl rfl
  refine (forM_settles fun e _ => ?_).bind fun _ _ => ?_
  · exact (reserve_documented e.1 _).bind fun _ _ =>
      modify_documented fun c hc => hc.of_eq rfl rfl rfl
  exact (forM_settles fun e he => buildComplexType_documented h hm he).bind fun _ _ =>
    forM_settles fun e he => buildElement_documented h hm he

end

/-! ## Modules -/

def Enumeration.documentations (e : Enumeration) : List (Option String) :=
  e.documentation :: e.members.map (·.documentation)

def ElementClass.documentations (c : ElementClass) : List (Option String) :=
  c.documentation :: c.values.map (·.documentation)

/-- The documentation of everything that can have one in a module. -/
def Module.documentations (m : Module) : List (Option String) :=
  m.enumerations.flatMap Enumeration.documentations ++
    (m.markers.map (·.documentation) ++ m.classes.flatMap ElementClass.documentations)

theorem documented_of_normalize_eq {s : String} (h : normalize s = s) :
    Schema.Documented (some s) := by
  intro t ht
  rw [← Option.some.inj ht, ← h]
  exact normal_normalize s

theorem documented_literalMembers {convert : String → String} {number : Nat → Nat}
    {taken : List String} {i : Nat} {literals : List Facet}
    (h : ∀ f ∈ literals, Schema.Documented f.documentation) :
    ∀ member ∈ literalMembers convert number taken i literals,
      Schema.Documented member.documentation := by
  induction literals generalizing taken i with
  | nil => exact List.forall_mem_nil _
  | cons f literals ih =>
    obtain ⟨hf, hliterals⟩ := List.forall_mem_cons.mp h
    exact List.forall_mem_cons.mpr ⟨hf, ih hliterals⟩

theorem Enumeration.Documented.documentations {e : Enumeration} (h : e.Documented) :
    ∀ d ∈ e.documentations, Schema.Documented d := by
  have hillegal : Schema.Documented illegalMember.documentation :=
    documented_of_normalize_eq (by decide +kernel)
  have hnotSet : Schema.Documented notSetMember.documentation :=
    documented_of_normalize_eq (by decide +kernel)
  have hempty : Schema.Documented emptyMember.documentation :=
    documented_of_normalize_eq (by decide +kernel)
  refine List.forall_mem_cons.mpr ⟨h.documentation, List.forall_mem_map.mpr ?_⟩
  rw [Enumeration.members]
  split
  · exact List.forall_mem_cons.mpr ⟨hillegal,
      List.forall_mem_cons.mpr ⟨hnotSet, documented_literalMembers h.literals⟩⟩
  · exact List.forall_mem_cons.mpr ⟨hempty, documented_literalMembers h.literals⟩

section
variable {model : Model} (h : model.Documented)
include h

theorem documented_typeValues {t : ComplexType} (ht : .inr t ∈ model.declared)
    {es : List Enumeration} {k : ElementClass} (hk : TypeValues model es t k) :
    ∀ f ∈ k.fields, Schema.Documented f.documentation := by
  obtain ⟨attributes, text, hvalues, hfields, -⟩ := hk
  have hattributes : ∀ a ∈ firstOf (·.2.name) attributes,
      Schema.Documented a.2.declaration.documentation :=
    fun a ha => h.values hvalues ht a (mem_of_mem_firstOf ha)
  have heach := hfields.each
  generalize firstOf (·.2.name) attributes = as at hattributes heach
  generalize k.fields = fields at heach
  induction heach with
  | nil => exact List.forall_mem_nil _
  | cons hfor _ ih =>
    obtain ⟨ha, has⟩ := List.forall_mem_cons.mp hattributes
    exact List.forall_mem_cons.mpr ⟨hfor.documentation ▸ ha, ih has⟩

/-- A field has the documentation of the attribute it is for. -/
theorem ElementClass.ValuedFor.documented {es : List Enumeration} {k : ElementClass}
    (hk : k.ValuedFor model es) : ∀ f ∈ k.fields, Schema.Documented f.documentation := by
  have helement {type : ElementType} (hd : type.declared.Sublist model.declared)
      (hvalues : ElementValues model es type k) :
      ∀ f ∈ k.fields, Schema.Documented f.documentation := by
    cases hvalues with
    | complex ht hk => exact documented_typeValues h (mem_declared_of_complex? hd ht) hk
    | text _ hk =>
      rw [hk.fields]
      exact List.forall_mem_nil _
  cases hk with
  | @complexType e he _ _ hk =>
    exact documented_typeValues h ((model.sublist_of_complexType he).subset e.2.mem_declared) hk
  | @element e he _ _ hk => exact helement (e.2.sublist_type.trans (model.sublist_of_element he)) hk
  | @localElement d hd _ _ hk =>
    exact helement (d.sublist_type.trans (model.sublist_of_mem_allElements hd)) hk

/-- All that is documented in a module is so with normal texts. -/
theorem Module.documented_of_ofModel (hm : model.Keyed)
    (hnames : ∀ p ∈ model.attributes, p.2.name = p.1) {m : Module}
    (hbound : Module.ofModel model = .ok m) : ∀ d ∈ m.documentations, Schema.Documented d := by
  have hvalued := Module.valuedFor_of_ofModel hm hnames hbound
  obtain ⟨u, c, hrun, rfl⟩ := exists_catalog_of_ofModel hbound
  have hempty : Catalog.Documented {} := ⟨by simp, by simp, by simp⟩
  obtain ⟨hc, -⟩ := (buildAll_documented h hm).ensures {} u c hempty hrun
  refine List.forall_mem_append.mpr ⟨?_, List.forall_mem_append.mpr ⟨?_, ?_⟩⟩
  · intro d hd
    obtain ⟨e, he, hd⟩ := List.mem_flatMap.mp hd
    exact (hc.enumerations e he).documentations d hd
  · exact List.forall_mem_map.mpr hc.markers
  · intro d hd
    obtain ⟨k, hk, hd⟩ := List.mem_flatMap.mp hd
    rcases List.mem_cons.mp hd with rfl | hd
    · exact hc.classes k hk
    · obtain ⟨f, hf, rfl⟩ := List.mem_map.mp hd
      rcases List.mem_append.mp hf with hf | hf
      · obtain ⟨t, -, rfl⟩ := Option.map_eq_some_iff.mp (Option.mem_toList.mp hf)
        exact documented_none
      · exact (hvalued k hk).documented h f hf

end

end XmlBinding.Binding
