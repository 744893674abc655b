import XmlBinding.Proofs.Binding.Literals
import XmlBinding.Proofs.Binding.Steps
import XmlBinding.Proofs.Schema.Names

/-! # What all modules conform to

Classes are named after components of the schema, the attributes of a class differ from each other
and from its text content, and literals of an enumeration differ. Every step of the construction
keeps to that.
-/
namespace XmlBinding.Binding
open Schema Value Xml

structure FieldsConform (fields : List Field) : Prop where
  nodup : (fields.map (·.xmlName)).Nodup
  named : ∀ f ∈ fields, IsAttributeName f.xmlName

structure ElementClass.Conforms (c : ElementClass) : Prop where
  name : isNCName c.xmlName = true
  fields : FieldsConform c.fields

structure Catalog.Conforms (c : Catalog) : Prop where
  enumerations : ∀ e ∈ c.enumerations, e.Distinct
  classes : ∀ k ∈ c.classes, k.Conforms

/-- A step that leaves a catalog as it should be, with a result of which `R` holds. -/
def Keeps {α : Type} (x : Build α) (R : α → Prop) : Prop :=
  Ensures Catalog.Conforms x fun a c => c.Conforms ∧ R a

section
variable {α β : Type} {x : Build α} {R S : α → Prop} {T : β → Prop}

theorem Keeps.bind {f : α → Build β} (hx : Keeps x R) (hf : ∀ a, R a → Keeps (f a) T) :
    Keeps (x >>= f) T :=
  Ensures.bind hx fun a c b c' ⟨hc, ha⟩ hb => hf a ha c b c' hc hb

theorem keeps_pure {a : α} (h : R a) : Keeps (pure a : Build α) R :=
  ensures_pure fun _ hc => ⟨hc, h⟩

theorem keeps_fail {e : BindingError} : Keeps (fail e : Build α) R :=
  ensures_fail

theorem keeps_lift {r : Except BindingError α} (h : ∀ a, r = .ok a → R a) :
    Keeps (liftM r : Build α) R :=
  ensures_lift fun a _ hr hc => ⟨hc, h a hr⟩

theorem keeps_get : Keeps (get : Build Catalog) Catalog.Conforms :=
  ensures_get fun _ hc => ⟨hc, hc⟩

theorem keeps_set {d : Catalog} (h : d.Conforms) : Keeps (set d : Build PUnit) fun _ => True :=
  ensures_set fun _ _ => ⟨h, trivial⟩

theorem keeps_modify {f : Catalog → Catalog} (h : ∀ c, c.Conforms → (f c).Conforms) :
    Keeps (modify f : Build PUnit) fun _ => True :=
  ensures_modify fun c hc => ⟨h c hc, trivial⟩

/-- What a step notes down without a new enumeration or class makes no difference. -/
theorem Catalog.Conforms.of_eq {c d : Catalog} (h : c.Conforms)
    (he : d.enumerations = c.enumerations) (hk : d.classes = c.classes) : d.Conforms :=
  ⟨he ▸ h.enumerations, hk ▸ h.classes⟩

end

/-- Nothing is asked of the result. -/
abbrev KeepsAll {α : Type} (x : Build α) : Prop := Keeps x fun _ => True

theorem reserve_keeps (preferred : String) (alternative : Option String) :
    KeepsAll (reserve preferred alternative) := by
  refine keeps_get.bind fun c hc => ?_
  refine (keeps_set ?_).bind fun _ _ => keeps_pure trivial
  exact hc.of_eq rfl rfl

theorem addEnumeration_keeps {e : Enumeration} (he : e.Distinct) : KeepsAll (addEnumeration e) := by
  refine keeps_get.bind fun c hc => ?_
  refine Keeps.bind (keeps_set ⟨fun d hd => ?_, hc.classes⟩) fun _ _ => ?_
  · rcases List.mem_append.mp hd with hd | hd
    · exact hc.enumerations d hd
    · exact List.mem_singleton.mp hd ▸ he
  · exact keeps_pure trivial

theorem distinct_toFlags {e f : Enumeration} (he : e.Distinct) (h : e.toFlags = .ok f) :
    f.Distinct := by
  unfold Enumeration.toFlags at h
  split at h
  · cases h
    exact he
  · split at h
    · cases h
    · cases h
      exact he

theorem promote_keeps (place : Nat) : KeepsAll (promote place) := by
  refine keeps_get.bind fun c hc => ?_
  split
  · exact keeps_pure trivial
  · next e he =>
    refine (keeps_lift (R := Enumeration.Distinct) fun f hf =>
      distinct_toFlags (hc.enumerations e (List.mem_of_getElem? he)) hf).bind fun f hf =>
        keeps_set ⟨fun d hd => ?_, hc.classes⟩
    rcases List.mem_or_eq_of_mem_set hd with hd | rfl
    · exact hc.enumerations d hd
    · exact hf

/-! ## Simple types -/

theorem enumerate_keeps (target : Target) (documentation : Option String) (facets : List Facet) :
    KeepsAll (enumerate target documentation facets) :=
  (reserve_keeps _ _).bind fun _ _ => addEnumeration_keeps (nodup_distinctLiterals facets)

theorem listOf_keeps (t : FieldType) : KeepsAll (listOf t) := by
  cases t with
  | primitive p => exact keeps_fail
  | enumeration place => exact (promote_keeps place).bind fun _ _ => keeps_pure trivial

section
variable {named : String → Build FieldType} (target : Target)

theorem resolveTypeName_keeps (hnamed : ∀ name, KeepsAll (named name)) (name : TypeName) :
    KeepsAll (resolveTypeName named name) := by
  cases name with
  | builtin name => exact keeps_pure trivial
  | schema name => exact hnamed name

mutual

theorem resolveSimpleType_keeps (hnamed : ∀ name, KeepsAll (named name)) :
    ∀ t : SimpleType, KeepsAll (resolveSimpleType named target t)
  | ⟨_, documentation, variety⟩ => by
    rw [resolveSimpleType]
    exact resolveVariety_keeps hnamed documentation variety

theorem resolveVariety_keeps (hnamed : ∀ name, KeepsAll (named name))
    (documentation : Option String) : ∀ v : Variety,
    KeepsAll (resolveVariety named target documentation v)
  | .restriction r => by
    rw [resolveVariety]
    exact resolveRestriction_keeps hnamed documentation r
  | .list item => by
    rw [resolveVariety]
    exact (resolveRef_keeps hnamed item).bind fun t _ => listOf_keeps t
  | .union [] => by
    rw [resolveVariety]
    exact keeps_fail
  | .union (first :: _) => by
    rw [resolveVariety]
    exact resolveRef_keeps hnamed first

theorem resolveRef_keeps (hnamed : ∀ name, KeepsAll (named name)) :
    ∀ r : SimpleTypeRef, KeepsAll (resolveRef named target r)
  | .named name => by
    rw [resolveRef]
    exact resolveTypeName_keeps hnamed name
  | .inline t => by
    rw [resolveRef]
    exact resolveSimpleType_keeps hnamed t

theorem resolveRestriction_keeps (hnamed : ∀ name, KeepsAll (named name))
    (documentation : Option String) : ∀ r : Restriction,
    KeepsAll (resolveRestriction named target documentation r)
  | ⟨base, enumerations, patterns, _⟩ => by
    rw [resolveRestriction]
    refine Keeps.bind (R := fun _ => True) (keeps_lift fun _ _ => trivial) fun _ _ => ?_
    split
    · exact resolveRef_keeps hnamed base
    · exact enumerate_keeps target documentation enumerations

end

end

theorem resolveNamedWithin_keeps (model : Model) (bound : Nat) (active : List String)
    (name : String) : KeepsAll (resolveNamedWithin model bound active name) := by
  induction bound generalizing active name with
  | zero => exact keeps_fail
  | succ bound ih =>
    rw [resolveNamedWithin]
    refine keeps_get.bind fun c _ => ?_
    split
    · exact keeps_pure trivial
    · refine Keeps.bind (R := fun _ => True) (keeps_lift fun _ _ => trivial) fun t _ => ?_
      split
      · exact keeps_fail
      · refine (resolveSimpleType_keeps _ (ih (name :: active)) t).bind fun _ _ => ?_
        refine Keeps.bind (keeps_modify fun c hc => ?_) fun _ _ => ?_
        · exact hc.of_eq rfl rfl
        · exact keeps_pure trivial

theorem resolveNamed_keeps (model : Model) (name : String) : KeepsAll (resolveNamed model name) :=
  resolveNamedWithin_keeps model _ _ name

/-! ## Fields -/

theorem remembering_keeps {resolve : Build FieldType} (h : KeepsAll resolve)
    (key : ScopeKey × String) : KeepsAll (remembering key resolve) := by
  refine keeps_get.bind fun c _ => ?_
  split
  · exact keeps_pure trivial
  · refine h.bind fun t _ => ?_
    refine Keeps.bind (keeps_modify fun c hc => ?_) fun _ _ => ?_
    · exact hc.of_eq rfl rfl
    · exact keeps_pure trivial

theorem fieldsConform_nil : FieldsConform [] := ⟨List.nodup_nil, by simp⟩

/-- Of several attributes of one name only the first becomes a field. -/
theorem FieldsConform.addField {fields : List Field} (h : FieldsConform fields) {name : String}
    (hn : IsAttributeName name) (type : FieldType) (documentation : Option String) :
    FieldsConform (addField fields name type documentation) := by
  rw [Binding.addField]
  split
  · exact h
  · next hnew =>
    have hnew : ∀ f ∈ fields, f.xmlName ≠ name := by simpa using hnew
    constructor
    · rw [List.map_append, List.nodup_append]
      refine ⟨h.nodup, by simp, ?_⟩
      simpa using hnew
    · intro f hf
      rcases List.mem_append.mp hf with hf | hf
      · exact h.named f hf
      · exact List.mem_singleton.mp hf ▸ hn

section
variable (model : Model)

theorem attributeType_keeps (key : ScopeKey) (target : Target) (d : AttributeDeclaration) :
    KeepsAll (attributeType model key target d) := by
  rw [attributeType]
  split
  · exact keeps_pure trivial
  · exact resolveTypeName_keeps (resolveNamed_keeps model) _
  · exact remembering_keeps (resolveSimpleType_keeps target (resolveNamed_keeps model) _) _

theorem addUses_keeps {group : String → List Field → Build (List Field)}
    (hgroup : ∀ name fields, FieldsConform fields → Keeps (group name fields) FieldsConform)
    (hm : model.Named) (scope : Scope) {uses : List AttributeUse} (hu : ∀ u ∈ uses, u.Named)
    {fields : List Field} (hf : FieldsConform fields) :
    Keeps (addUses model group scope uses fields) FieldsConform := by
  induction uses generalizing fields with
  | nil => exact keeps_pure hf
  | cons u uses ih =>
    obtain ⟨hn, hus⟩ := List.forall_mem_cons.mp hu
    cases u with
    | declaration d required =>
      exact (attributeType_keeps model _ _ d).bind fun t _ => ih hus (hf.addField hn t _)
    | reference name required =>
      rw [addUses]
      split
      · exact keeps_fail
      · next d hd =>
        have hn := hm.attributes _ (mem_of_find hd)
        exact (attributeType_keeps model _ _ d).bind fun t _ => ih hus (hf.addField hn t _)
    | group name => exact (hgroup name fields hf).bind fun fields hf => ih hus hf

theorem addGroupWithin_keeps (hm : model.Named) (scope : Scope) (bound : Nat)
    (active : List String) (name : String) (fields : List Field) (hf : FieldsConform fields) :
    Keeps (addGroupWithin model scope bound active name fields) FieldsConform := by
  induction bound generalizing active name fields with
  | zero => exact keeps_fail
  | succ bound ih =>
    rw [addGroupWithin]
    split
    · exact keeps_fail
    · next g hg =>
      split
      · exact keeps_fail
      · exact addUses_keeps model (ih (name :: active)) hm scope
          (hm.attributeGroups _ (mem_of_find hg)) hf

theorem addAttributes_keeps (hm : model.Named) (scope : Scope) {uses : List AttributeUse}
    (hu : ∀ u ∈ uses, u.Named) {fields : List Field} (hf : FieldsConform fields) :
    Keeps (addAttributes model scope uses fields) FieldsConform :=
  addUses_keeps model (addGroupWithin_keeps model hm scope _ _) hm scope hu hf

end

/-! ## Types -/

structure Draft.Conforms (d : Draft) : Prop where
  fields : FieldsConform d.fields
  particles : ∀ p ∈ d.particles, p.particle.Named

theorem Draft.Conforms.addMarker {d : Draft} (h : d.Conforms) (m : Option String) :
    (d.addMarker m).Conforms := by
  obtain ⟨_, heq⟩ := d.exists_addMarker_eq m
  exact heq ▸ ⟨h.fields, h.particles⟩

theorem Draft.Conforms.addParticle {d : Draft} (h : d.Conforms) (declaredIn : Option String)
    {p : Option Particle} (hp : ∀ q ∈ p, q.Named) : (d.addParticle declaredIn p).Conforms := by
  cases p with
  | none => exact h
  | some p =>
    refine ⟨h.fields, fun q hq => ?_⟩
    rcases List.mem_append.mp hq with hq | hq
    · exact h.particles q hq
    · exact List.mem_singleton.mp hq ▸ hp p rfl

theorem typeScope_keeps (name : String) : KeepsAll (typeScope name) := by
  refine keeps_get.bind fun c _ => ?_
  split
  · exact keeps_pure trivial
  · exact keeps_fail

theorem restrictedContent_keeps (model : Model) (scope : Scope) (r : Restriction) :
    KeepsAll (restrictedContent model scope r) :=
  remembering_keeps (resolveRestriction_keeps _ (resolveNamed_keeps model) none r) _

section
variable (model : Model) {base : TypeName → Draft → Build Draft}

theorem addContent_keeps (hbase : ∀ name d, d.Conforms → Keeps (base name d) Draft.Conforms)
    (scope : Scope) (name : Option String) {d : Draft} (hd : d.Conforms) {content : ComplexContent}
    (hc : content.Named) : Keeps (addContent model base scope name d content) Draft.Conforms := by
  cases content with
  | empty => exact keeps_pure hd
  | particle p =>
    refine keeps_pure (hd.addParticle name fun q hq => ?_)
    exact Option.some.inj hq ▸ hc
  | extension b particle =>
    refine (hbase b d hd).bind fun d hd => keeps_pure (hd.addParticle name fun q hq => ?_)
    obtain rfl := Option.mem_def.mp hq
    exact hc
  | simpleExtension b =>
    rw [addContent]
    split
    · exact hbase b d hd
    · exact (resolveTypeName_keeps (resolveNamed_keeps model) b).bind fun t _ =>
        keeps_pure ⟨hd.fields, hd.particles⟩
  | simpleRestriction r =>
    have hfinish (d : Draft) (hd : d.Conforms) :
        Keeps (if (complexBase? model r).isNone || !r.enumerations.isEmpty then do
            return { d with content := some (← restrictedContent model scope r) }
          else return d) Draft.Conforms := by
      split
      · exact (restrictedContent_keeps model scope r).bind fun t _ =>
          keeps_pure ⟨hd.fields, hd.particles⟩
      · exact keeps_pure hd
    rw [addContent]
    split
    · exact (hbase _ d hd).bind hfinish
    · exact (keeps_pure hd).bind hfinish

theorem addType_keeps (hbase : ∀ name d, d.Conforms → Keeps (base name d) Draft.Conforms)
    (hm : model.Named) (scope : Scope) {t : ComplexType} (ht : t.Named) {d : Draft}
    (hd : d.Conforms) : Keeps (addType model base scope t d) Draft.Conforms := by
  refine keeps_get.bind fun c _ => ?_
  refine (addContent_keeps model hbase scope t.name (hd.addMarker _) ht.content).bind fun d hd => ?_
  refine (addAttributes_keeps model hm scope ht.attributes hd.fields).bind fun fields hf => ?_
  exact keeps_pure ⟨hf, hd.particles⟩

theorem addBaseWithin_keeps (hm : model.Named) (bound : Nat) (active : List String)
    (name : TypeName) (d : Draft) (hd : d.Conforms) :
    Keeps (addBaseWithin model bound active name d) Draft.Conforms := by
  induction bound generalizing active name d with
  | zero => cases name <;> exact keeps_fail
  | succ bound ih =>
    cases name with
    | builtin name => exact keeps_fail
    | schema name =>
      rw [addBaseWithin]
      split
      · exact keeps_fail
      · next t ht =>
        refine (typeScope_keeps name).bind fun scope _ => ?_
        split
        · exact keeps_fail
        · exact addType_keeps model (ih (name :: active)) hm scope
            (hm.complexTypes _ (mem_of_find ht)).2 hd

theorem derive_keeps (hm : model.Named) (scope : Scope) {t : ComplexType} (ht : t.Named) :
    Keeps (derive model scope t) Draft.Conforms :=
  addType_keeps model (addBaseWithin_keeps model hm _ _) hm scope ht
    ⟨fieldsConform_nil, by simp⟩

end

/-! ## Content models -/

theorem addClass_keeps {c : ElementClass} (h : c.Conforms) : KeepsAll (addClass c) :=
  keeps_modify fun d hd => ⟨hd.enumerations, fun k hk => by
    rcases List.mem_append.mp hk with hk | hk
    · exact hd.classes k hk
    · exact List.mem_singleton.mp hk ▸ h⟩

theorem referredElement_keeps (name : String) : KeepsAll (referredElement name) := by
  refine keeps_get.bind fun c _ => ?_
  split
  · exact keeps_pure trivial
  · exact keeps_fail

section
variable {element : ElementDeclaration → Build String}
  {group : String → Nat → MaxOccurs → Build Membership}

mutual

theorem buildGroup_keeps (he : ∀ d, d.Named → KeepsAll (element d))
    (hg : ∀ name minimum m, KeepsAll (group name minimum m)) (minimum : Nat) (m : MaxOccurs) :
    ∀ g : ModelGroup, g.Named → KeepsAll (buildGroup element group minimum m g)
  | ⟨_, particles⟩, h => by
    rw [buildGroup]
    exact (buildSlots_keeps he hg m particles h).bind fun _ _ => keeps_pure trivial

theorem buildSlots_keeps (he : ∀ d, d.Named → KeepsAll (element d))
    (hg : ∀ name minimum m, KeepsAll (group name minimum m)) (outer : MaxOccurs) :
    ∀ ps : List Particle, namedParticles ps → KeepsAll (buildSlots element group outer ps)
  | [], _ => by
    rw [buildSlots]
    exact keeps_pure trivial
  | ⟨minimum, maximum, term⟩ :: ps, ⟨hp, hps⟩ => by
    rw [buildSlots]
    split
    · exact buildSlots_keeps he hg outer ps hps
    · refine (buildSlot_keeps he hg minimum (maximum.mul outer) term hp).bind fun _ _ => ?_
      exact (buildSlots_keeps he hg outer ps hps).bind fun _ _ => keeps_pure trivial

theorem buildSlot_keeps (he : ∀ d, d.Named → KeepsAll (element d))
    (hg : ∀ name minimum m, KeepsAll (group name minimum m)) (minimum : Nat) (m : MaxOccurs) :
    ∀ t : Term, t.Named → KeepsAll (buildSlot element group minimum m t)
  | .element d, h => by
    rw [buildSlot]
    exact (he d h).bind fun _ _ => keeps_pure trivial
  | .elementRef name, _ => by
    rw [buildSlot]
    exact (referredElement_keeps name).bind fun _ _ => keeps_pure trivial
  | .group g, h => by
    rw [buildSlot]
    exact (buildGroup_keeps he hg minimum m g h).bind fun _ _ => keeps_pure trivial
  | .groupRef name, _ => by
    rw [buildSlot]
    exact (hg name minimum m).bind fun _ _ => keeps_pure trivial
  | .wildcard, _ => by
    rw [buildSlot]
    exact keeps_pure trivial

end

end

section
variable {element : Option String → String → ElementDeclaration → Build String}
  {group : Option String → String → String → Nat → MaxOccurs → Build Membership}

theorem declaredSlots_keeps
    (he : ∀ declaredIn owner d, d.Named → KeepsAll (element declaredIn owner d))
    (hg : ∀ declaredIn owner name minimum m, KeepsAll (group declaredIn owner name minimum m))
    (owner : String) {ps : List DeclaredParticle} (hps : ∀ p ∈ ps, p.particle.Named) :
    KeepsAll (declaredSlots element group owner ps) := by
  induction ps with
  | nil => exact keeps_pure trivial
  | cons p ps ih =>
    obtain ⟨hp, hps⟩ := List.forall_mem_cons.mp hps
    rw [declaredSlots]
    refine (buildSlots_keeps (he _ _) (hg _ _) .one [p.particle] ⟨hp, trivial⟩).bind fun _ _ => ?_
    exact (ih hps).bind fun _ _ => keeps_pure trivial

theorem buildMembership_keeps
    (he : ∀ declaredIn owner d, d.Named → KeepsAll (element declaredIn owner d))
    (hg : ∀ declaredIn owner name minimum m, KeepsAll (group declaredIn owner name minimum m))
    (owner : String) {ps : List DeclaredParticle} (hps : ∀ p ∈ ps, p.particle.Named) :
    KeepsAll (buildMembership element group owner ps) := by
  have hfilter : ∀ p ∈ ps.filter fun p => !p.particle.isProhibited, p.particle.Named :=
    fun p hp => hps p (List.mem_filter.mp hp).1
  rw [buildMembership]
  split
  · exact keeps_pure trivial
  · next minimum maximum g declaredIn hgroup =>
    rw [hgroup] at hfilter
    have hnamed : g.Named := hfilter _ List.mem_cons_self
    exact (buildGroup_keeps (he _ _) (hg _ _) minimum maximum g hnamed).bind fun _ _ =>
      keeps_pure trivial
  · exact (declaredSlots_keeps he hg owner hfilter).bind fun _ _ => keeps_pure trivial

end

section
variable (model : Model)

/-- The type of an element is named if it is declared in place or found in the schema. -/
theorem complexTypeOf?_keeps (hm : model.Named) (className : String) {t : ElementType}
    (ht : t.Named) : Keeps (complexTypeOf? model className t) fun r => ∀ p ∈ r, p.2.Named := by
  unfold complexTypeOf?
  split
  · next name =>
    split
    · next t hfind =>
      refine (typeScope_keeps name).bind fun scope _ => keeps_pure fun p hp => ?_
      obtain rfl := Option.some.inj hp
      exact (hm.complexTypes _ (mem_of_find hfind)).2
    · exact keeps_pure (by simp)
  · next t =>
    refine keeps_pure fun p hp => ?_
    obtain rfl := Option.some.inj hp
    exact ht
  · exact keeps_pure (by simp)

theorem simpleContent_keeps (className : String) (t : ElementType) :
    KeepsAll (simpleContent model className t) := by
  unfold simpleContent
  split
  · exact resolveTypeName_keeps (resolveNamed_keeps model) _
  · exact resolveSimpleType_keeps _ (resolveNamed_keeps model) _
  · exact keeps_pure trivial

theorem buildClass_keeps (hm : model.Named)
    {members : String → List DeclaredParticle → Build (Option Membership)}
    (hmembers : ∀ owner ps, (∀ p ∈ ps, p.particle.Named) → KeepsAll (members owner ps))
    (origin : Origin) (name : String) {d : ElementDeclaration} (hd : d.Named) :
    KeepsAll (buildClass model members origin name d) := by
  rw [buildClass]
  split
  · exact addClass_keeps ⟨hd.name, fieldsConform_nil⟩
  · refine (complexTypeOf?_keeps model hm name hd.type).bind fun r hr => ?_
    split
    · next scope t =>
      refine (derive_keeps model hm scope (hr _ rfl)).bind fun draft hdraft => ?_
      refine (hmembers name draft.particles hdraft.particles).bind fun membership _ => ?_
      exact addClass_keeps ⟨hd.name, hdraft.fields⟩
    · refine (simpleContent_keeps model name d.type).bind fun content _ => ?_
      exact addClass_keeps ⟨hd.name, fieldsConform_nil⟩

theorem rememberElement_keeps (declaredIn : Option String) (d : ElementDeclaration)
    (className : String) : KeepsAll (rememberElement declaredIn d className) := by
  unfold rememberElement
  split
  · exact keeps_modify fun c hc => hc.of_eq rfl rfl
  · exact keeps_modify fun c hc => hc.of_eq rfl rfl
  · exact keeps_pure trivial

theorem reserveElement_keeps (declaredIn : Option String) (owner : String)
    (d : ElementDeclaration) : KeepsAll (reserveElement declaredIn owner d) :=
  keeps_get.bind fun _ _ => reserve_keeps _ _

/-- However deep elements and references may be nested, the construction keeps catalogs right. -/
theorem within_keeps (hm : model.Named) (bound : Nat) :
    (∀ groups declaredIn owner d, d.Named →
      KeepsAll (localElementWithin model bound groups declaredIn owner d)) ∧
    ∀ groups declaredIn owner name minimum m,
      KeepsAll (referredGroupWithin model bound groups declaredIn owner name minimum m) := by
  induction bound with
  | zero =>
    constructor
    · intro groups declaredIn owner d _
      rw [localElementWithin]
      exact keeps_fail
    · intro groups declaredIn owner name minimum m
      rw [referredGroupWithin]
      exact keeps_fail
  | succ bound ih =>
    obtain ⟨helement, hgroup⟩ := ih
    constructor
    · intro groups declaredIn owner d hd
      rw [localElementWithin]
      refine keeps_get.bind fun c _ => ?_
      split
      · exact keeps_pure trivial
      · refine (reserveElement_keeps declaredIn owner d).bind fun className _ => ?_
        refine (rememberElement_keeps declaredIn d className).bind fun _ _ => ?_
        refine (buildClass_keeps model hm (fun owner ps hps => ?_) _ _ hd).bind fun _ _ => ?_
        · exact buildMembership_keeps (helement groups) (hgroup groups) owner hps
        · exact keeps_pure trivial
    · intro groups declaredIn owner name minimum m
      rw [referredGroupWithin]
      split
      · exact keeps_fail
      · next g hg =>
        split
        · exact keeps_fail
        · exact buildGroup_keeps (helement _ _ _) (hgroup _ _ _) minimum m g.group
            (hm.groups _ (mem_of_find hg))

theorem membershipOf_keeps (hm : model.Named) (owner : String) (ps : List DeclaredParticle)
    (hps : ∀ p ∈ ps, p.particle.Named) : KeepsAll (membershipOf model owner ps) :=
  buildMembership_keeps ((within_keeps model hm _).1 _) ((within_keeps model hm _).2 _) owner hps

theorem buildComplexType_keeps (hm : model.Named) {name : String} (hn : isNCName name = true)
    {t : ComplexType} (ht : t.Named) : KeepsAll (buildComplexType model name t) := by
  refine (typeScope_keeps name).bind fun scope _ => ?_
  split
  · exact keeps_modify fun c hc => hc.of_eq rfl rfl
  · refine (derive_keeps model hm scope ht).bind fun draft hdraft => ?_
    refine (membershipOf_keeps model hm _ _ hdraft.particles).bind fun membership _ => ?_
    exact addClass_keeps ⟨hn, hdraft.fields⟩

theorem forM_keeps {α : Type} {f : α → Build PUnit} {xs : List α}
    (h : ∀ x ∈ xs, KeepsAll (f x)) : KeepsAll (xs.forM f) := by
  induction xs with
  | nil => exact keeps_pure trivial
  | cons x xs ih =>
    obtain ⟨hx, hxs⟩ := List.forall_mem_cons.mp h
    exact hx.bind fun _ _ => ih hxs

theorem buildAll_keeps (hm : model.Named) : KeepsAll (buildAll model) := by
  refine Keeps.bind (forM_keeps fun p _ => ?_) fun _ _ => ?_
  · exact (resolveNamed_keeps model p.1).bind fun _ _ => keeps_pure trivial
  refine Keeps.bind (forM_keeps fun p _ => ?_) fun _ _ => ?_
  · refine (reserve_keeps p.1 none).bind fun _ _ => keeps_modify fun c hc => ?_
    exact hc.of_eq rfl rfl
  refine Keeps.bind (forM_keeps fun p _ => ?_) fun _ _ => ?_
  · refine (reserve_keeps p.1 _).bind fun _ _ => keeps_modify fun c hc => ?_
    exact hc.of_eq rfl rfl
  refine Keeps.bind (forM_keeps fun p hp => ?_) fun _ _ => forM_keeps fun p hp => ?_
  · obtain ⟨hn, ht⟩ := hm.complexTypes p hp
    exact buildComplexType_keeps model hm hn ht
  · refine Keeps.bind (R := fun _ => True) ?_ fun name _ => ?_
    · exact referredElement_keeps p.1
    · exact buildClass_keeps model hm (membershipOf_keeps model hm) _ _ (hm.elements p hp)

end

/-- All that a module holds conforms, if the components of its schema have proper names. -/
theorem Module.conforms_of_ofModel {model : Model} (hm : model.Named) {m : Module}
    (h : Module.ofModel model = .ok m) :
    (∀ e ∈ m.enumerations, e.Distinct) ∧ ∀ c ∈ m.classes, c.Conforms := by
  obtain ⟨u, catalog, hr, rfl⟩ := exists_catalog_of_ofModel h
  have hempty : Catalog.Conforms {} := ⟨by simp, by simp⟩
  obtain ⟨hc, -⟩ := buildAll_keeps model hm {} u catalog hempty hr
  exact ⟨hc.enumerations, hc.classes⟩

/-- Elements and attributes have names without a colon. -/
def Module.Named (m : Module) : Prop :=
  ∀ c ∈ m.classes, isNCName c.xmlName = true ∧ ∀ f ∈ c.fields, isNCName f.xmlName = true

theorem Module.named_of_ofModel {model : Model} (hm : model.Named) {m : Module}
    (h : Module.ofModel model = .ok m) : m.Named := by
  intro c hc
  have hclass := (Module.conforms_of_ofModel hm h).2 c hc
  exact ⟨hclass.name, fun f hf => (hclass.fields.named f hf).1⟩

end XmlBinding.Binding
