import XmlBinding.Proofs.Schema.Contents
import XmlBinding.Proofs.Schema.Declared

/-! # The elements that declarations are read from

A complex type or an element is read from an element of its own, however deep inside of a component
it is declared. So what is known of the reading of one element holds of all of a schema.
-/
namespace XmlBinding.Schema
open Xml

/-! ## Declarations -/

/-- A declaration is what is read from an element. -/
def IsReadFrom (e : Element) : Declared → Prop
  | .inl d => readElement e = .ok d
  | .inr t => readComplexType e = .ok t

/-- Declarations are read from elements inside of this one. -/
def ReadInside (root : Element) (xs : List Declared) : Prop :=
  ∀ x ∈ xs, ∃ e, root.Contains e ∧ IsReadFrom e x

section
variable {root : Element}

theorem readInside_nil : ReadInside root [] := by
  simp [ReadInside]

theorem ReadInside.append {xs ys : List Declared} (hx : ReadInside root xs)
    (hy : ReadInside root ys) : ReadInside root (xs ++ ys) :=
  List.forall_mem_append.mpr ⟨hx, hy⟩

theorem readInside_flatMap {α : Type} {xs : List α} {f : α → List Declared}
    (h : ∀ x ∈ xs, ReadInside root (f x)) : ReadInside root (xs.flatMap f) := by
  intro y hy
  obtain ⟨x, hx, hy⟩ := List.mem_flatMap.mp hy
  exact h x hx y hy

theorem readInside_particles {ps : List Particle} (h : ∀ p ∈ ps, ReadInside root p.term.declared) :
    ReadInside root (particlesDeclared ps) := by
  induction ps with
  | nil =>
    rw [particlesDeclared]
    exact readInside_nil
  | cons p ps ih =>
    obtain ⟨hp, hps⟩ := List.forall_mem_cons.mp h
    cases p
    rw [particlesDeclared]
    exact hp.append (ih hps)

theorem readInside_element {d : ElementDeclaration} {e : Element} (he : root.Contains e)
    (hd : readElement e = .ok d) (h : ReadInside root d.type.declared) :
    ReadInside root d.declared := by
  rw [d.declared_eq]
  exact List.forall_mem_cons.mpr ⟨⟨e, he, hd⟩, h⟩

theorem readInside_complexType {t : ComplexType} {e : Element} (he : root.Contains e)
    (ht : readComplexType e = .ok t) (h : ReadInside root t.content.declared) :
    ReadInside root t.declared := by
  rw [t.declared_eq]
  exact List.forall_mem_cons.mpr ⟨⟨e, he, ht⟩, h⟩

/-- The content that a type has read so far, and a particle that is not part of it yet. -/
structure ContentParts.ReadInside (root : Element) (parts : ContentParts) : Prop where
  content : ∀ c ∈ parts.content, Schema.ReadInside root c.declared
  particle : ∀ p ∈ parts.particle, Schema.ReadInside root p.term.declared

theorem readInside_extension {particle : Option Particle} (base : TypeName)
    (h : ∀ p ∈ particle, ReadInside root p.term.declared) :
    ReadInside root (ComplexContent.extension base particle).declared := by
  cases particle with
  | none =>
    rw [ComplexContent.declared]
    exact readInside_nil
  | some p =>
    rw [ComplexContent.declared_extension]
    exact h p rfl

/-- A content that is no more than a particle. -/
theorem readInside_particle {particle : Option Particle}
    (h : ∀ p ∈ particle, ReadInside root p.term.declared) :
    ReadInside root (particle.elim ComplexContent.empty .particle).declared := by
  cases particle with
  | none =>
    rw [Option.elim, ComplexContent.declared]
    exact readInside_nil
  | some p =>
    rw [Option.elim, ComplexContent.declared_particle]
    exact h p rfl

theorem ContentParts.ReadInside.with {parts : ContentParts} {content : ComplexContent}
    (h : parts.ReadInside root) (hcontent : Schema.ReadInside root content.declared) :
    ContentParts.ReadInside root { parts with content := some content } :=
  ⟨fun _ hc => Option.some.inj hc ▸ hcontent, h.particle⟩

theorem kept_readInside : ContentParts.Kept (ContentParts.ReadInside root)
    fun p => Schema.ReadInside root p.term.declared where
  start _ := ⟨nofun, nofun⟩
  mixed _ h := ⟨h.content, h.particle⟩
  uses _ h := ⟨h.content, h.particle⟩
  particle h hp := ⟨h.content, fun _ hq => Option.some.inj hq ▸ hp⟩
  simpleExtension base h := h.with (by
    rw [ComplexContent.declared]
    exact readInside_nil)
  simpleRestriction _ h := h.with (by
    rw [ComplexContent.declared]
    exact readInside_nil)
  extension base h :=
    ⟨fun _ hc => Option.some.inj hc ▸ readInside_extension base h.particle, nofun⟩
  restriction h := ⟨fun _ hc => Option.some.inj hc ▸ readInside_particle h.particle, nofun⟩

mutual

theorem readParticle_readInside (parent : String) {e : Element} (he : root.Contains e) :
    Yields (readParticle parent e) fun p => ReadInside root p.term.declared := by
  rw [readParticle]
  refine yields_bind fun minimum => yields_bind fun maximum => ?_
  exact (readTerm_readInside parent he).bind fun term hterm => yields_ok hterm
termination_by (sizeOf e, 2)

theorem readTerm_readInside (parent : String) {e : Element} (he : root.Contains e) :
    Yields (readTerm parent e) fun t => ReadInside root t.declared := by
  rw [readTerm]
  split
  · refine yields_bind fun name => ?_
    split
    · refine yields_ok ?_
      rw [Term.declared]
      exact readInside_nil
    · refine (readElement_readInside he).bind fun d hd => yields_ok ?_
      rwa [Term.declared]
  · refine yields_bind fun name => ?_
    split
    · refine yields_ok ?_
      rw [Term.declared]
      exact readInside_nil
    · exact yields_error
  · refine yields_ok ?_
    rw [Term.declared]
    exact readInside_nil
  · split
    · refine (readModelGroup_readInside he).bind fun g hg => yields_ok ?_
      rwa [Term.declared]
    · exact yields_error
termination_by (sizeOf e, 1)

theorem readModelGroup_readInside {e : Element} (he : root.Contains e) :
    Yields (readModelGroup e) fun g => ReadInside root g.declared := by
  rw [readModelGroup]
  split
  · exact yields_error
  · refine Yields.bind (yields_mapM
      (Q := fun p => ∀ q ∈ p, ReadInside root q.term.declared) fun ⟨c, hc⟩ => ?_)
      fun ps hps => yields_ok ?_
    · dsimp only
      split
      · exact yields_ok nofun
      · exact (readParticle_readInside e.tag (he.child hc)).bind fun p hp =>
          yields_ok fun q hq => Option.some.inj hq ▸ hp
    · rw [ModelGroup.declared]
      refine readInside_particles fun p hp => ?_
      obtain ⟨q, hq, hqp⟩ := List.mem_filterMap.mp hp
      exact hps q hq p hqp
termination_by (sizeOf e, 0)
decreasing_by exact Prod.Lex.left _ _ (Element.sizeOf_lt_of_mem hc)

theorem readElement_readInside {e : Element} (he : root.Contains e) :
    Yields (readElement e) fun d => ReadInside root d.declared := by
  suffices htype : Yields (readElement e) fun d => ReadInside root d.type.declared from
    fun d hd => readInside_element he hd (htype d hd)
  rw [readElement]
  refine yields_bind fun name => yields_bind fun isAbstract => yields_bind fun named => ?_
  cases named with
  | some n =>
    refine yields_ok ?_
    dsimp only
    split <;>
    · rw [ElementType.declared]
      exact readInside_nil
  | none =>
    refine Yields.bind (yields_foldlM (P := fun t => ReadInside root t.declared)
      (fun found ⟨c, hc⟩ hfound => ?_) ?_) fun type htype => yields_ok htype
    · dsimp only
      split
      · refine yields_bind fun t => yields_ok ?_
        rw [ElementType.declared]
        exact readInside_nil
      · refine (readComplexType_readInside (he.child hc)).bind fun t ht => yields_ok ?_
        rwa [ElementType.declared]
      iterate 5 exact yields_ok hfound
      · exact yields_error
    · rw [ElementType.declared]
      exact readInside_nil
termination_by (sizeOf e, 0)
decreasing_by exact Prod.Lex.left _ _ (Element.sizeOf_lt_of_mem hc)

theorem readComplexType_readInside {e : Element} (he : root.Contains e) :
    Yields (readComplexType e) fun t => ReadInside root t.declared := by
  intro t ht
  obtain ⟨-, parts, hparts, hcontent⟩ := kept_readInside.readComplexType
    (fun parent d c hd hc => readParticle_readInside parent ((he.trans hd).child hc)) t ht
  refine readInside_complexType he ht ?_
  rw [hcontent]
  cases hcontent : parts.content with
  | none => exact readInside_particle hparts.particle
  | some content => exact hparts.content content hcontent
termination_by (sizeOf e, 0)
decreasing_by exact Prod.Lex.left _ _ (hd.sizeOf_lt hc)

end

theorem readGroup_readInside {e : Element} (he : root.Contains e) :
    Yields (readGroup e) fun g => ReadInside root g.group.declared := by
  unfold readGroup
  refine yields_bind fun name => ?_
  split
  · exact yields_error
  · next c hc =>
    have hc := he.child (List.mem_of_find?_eq_some hc)
    exact (readModelGroup_readInside hc).bind fun g hg => yields_ok hg

end

/-! ## Schemas -/

/-- What a component of a schema declares is read from elements of the document. -/
def Component.ReadInside (root : Element) : Component → Prop
  | .complexType _ t => Schema.ReadInside root t.declared
  | .element d => Schema.ReadInside root d.declared
  | .group g => Schema.ReadInside root g.group.declared
  | .attributeGroup g => ∃ e, root.Contains e ∧ readAttributeGroup e = .ok g
  | .simpleType _ t => ∃ e, root.Contains e ∧ readSimpleType e = .ok t
  | .attribute d => ∃ e, root.Contains e ∧ readAttribute e = .ok d

theorem Component.DeclaredBy.readInside {root c : Element} (hc : root.Contains c)
    {component : Component} (h : component.DeclaredBy c) : component.ReadInside root := by
  cases h with
  | simpleType _ ht => exact ⟨c, hc, ht⟩
  | complexType _ ht => exact readComplexType_readInside hc _ ht
  | element _ hd => exact readElement_readInside hc _ hd
  | «attribute» _ hd => exact ⟨c, hc, hd⟩
  | attributeGroup _ hg => exact ⟨c, hc, hg⟩
  | group _ hg => exact readGroup_readInside hc _ hg

/-- The components of a schema are read from elements of its document. -/
structure Model.ReadInside (root : Element) (m : Model) : Prop where
  simpleTypes : ∀ p ∈ m.simpleTypes, ∃ e, root.Contains e ∧ readSimpleType e = .ok p.2
  complexTypes : ∀ p ∈ m.complexTypes, Schema.ReadInside root p.2.declared
  elements : ∀ p ∈ m.elements, Schema.ReadInside root p.2.declared
  groups : ∀ p ∈ m.groups, Schema.ReadInside root p.2.group.declared
  attributes : ∀ p ∈ m.attributes, ∃ e, root.Contains e ∧ readAttribute e = .ok p.2
  attributeGroups : ∀ p ∈ m.attributeGroups, ∃ e, root.Contains e ∧ readAttributeGroup e = .ok p.2

theorem Model.ReadInside.add {root : Element} {m m' : Model} (hm : m.ReadInside root)
    {component : Component} (hc : component.ReadInside root) (h : m.add component = .ok m') :
    m'.ReadInside root := by
  cases component with
  | simpleType name t =>
    obtain ⟨table, htable, h⟩ := ok_of_bind h
    cases h
    exact { hm with simpleTypes := forall_insertNew htable hm.simpleTypes hc }
  | complexType name t =>
    obtain ⟨table, htable, h⟩ := ok_of_bind h
    cases h
    exact { hm with complexTypes := forall_insertNew htable hm.complexTypes hc }
  | element d =>
    obtain ⟨table, htable, h⟩ := ok_of_bind h
    cases h
    exact { hm with elements := forall_insertNew htable hm.elements hc }
  | group g =>
    obtain ⟨table, htable, h⟩ := ok_of_bind h
    cases h
    exact { hm with groups := forall_insertNew htable hm.groups hc }
  | attributeGroup g =>
    obtain ⟨table, htable, h⟩ := ok_of_bind h
    cases h
    exact { hm with attributeGroups := forall_insertNew htable hm.attributeGroups hc }
  | «attribute» d =>
    obtain ⟨table, htable, h⟩ := ok_of_bind h
    cases h
    exact { hm with attributes := forall_insertNew htable hm.attributes hc }

theorem readInside_of_readModel {root : Element} {m : Model} (h : readModel root = .ok m) :
    m.ReadInside root :=
  readModel_induction h ⟨by simp, by simp, by simp, by simp, by simp, by simp⟩
    fun _ _ _ hc _ hm hcomponent h =>
      hm.add ((declaredBy_of_readComponent hcomponent).readInside (.child .self hc)) h

theorem Model.ReadInside.all {root : Element} {m : Model} (h : m.ReadInside root) :
    Schema.ReadInside root m.declared :=
  ((readInside_flatMap h.elements).append (readInside_flatMap h.complexTypes)).append
    (readInside_flatMap h.groups)

theorem Model.ReadInside.declared {root : Element} {m : Model} (h : m.ReadInside root)
    (t : ComplexType) (ht : .inr t ∈ m.declared) :
    ∃ e, root.Contains e ∧ readComplexType e = .ok t :=
  h.all (.inr t) ht

theorem Model.ReadInside.element {root : Element} {m : Model} (h : m.ReadInside root)
    (d : ElementDeclaration) (hd : .inl d ∈ m.declared) :
    ∃ e, root.Contains e ∧ readElement e = .ok d :=
  h.all (.inl d) hd

end XmlBinding.Schema
