import XmlBinding.Proofs.Binding.Documents
import XmlBinding.Proofs.Binding.Keeping
import XmlBinding.Proofs.Binding.Nesting
import XmlBinding.Proofs.Content.Multiplicity

/-! # The memberships of classes

A class is made for a complex type or for an element, and has the membership of that type or of the
type of that element. A class that was made stays, so that all types and elements that ask for a
class have theirs in the end.
-/
namespace XmlBinding.Binding
open Schema

/-! ## Memberships -/

section
variable (model : Model)

/-- The membership of a complex type. -/
def TypeMembership (t : ComplexType) (ms : Option Membership) : Prop :=
  ∃ ps, ContentParticles model t.content ps ∧ EffectiveContent model ps ms

/-- The membership of an element: that of its type if that is a complex one. -/
inductive ElementMembership : ElementType → Option Membership → Prop
  | any : ElementMembership .any (some anyMembership)
  | complex {type : ElementType} {t : ComplexType} {ms : Option Membership}
      (ht : type.complex? model = some t) (h : TypeMembership model t ms) :
      ElementMembership type ms
  | text {type : ElementType} (hany : type ≠ .any) (ht : type.complex? model = none) :
      ElementMembership type none

/-- The class of a top-level type. -/
structure ElementClass.OfType (e : String × ComplexType) (k : ElementClass) : Prop where
  origin : k.origin = .complexType
  xmlName : k.xmlName = e.1
  membership : TypeMembership model e.2 k.membership

/-- A class of an element, which is a top-level one or not by its origin. -/
structure ElementClass.OfElement (origin : Origin) (d : ElementDeclaration) (k : ElementClass) :
    Prop where
  origin : k.origin = origin
  xmlName : k.xmlName = d.name
  membership : ElementMembership model d.type k.membership

/-- What a class can have been made for. -/
inductive ElementClass.MadeFor (k : ElementClass) : Prop
  | complexType {e : String × ComplexType} (he : e ∈ model.complexTypes) (h : k.OfType model e)
  | element {e : String × ElementDeclaration} (he : e ∈ model.elements)
      (h : k.OfElement model .topLevel e.2)
  | localElement {d : ElementDeclaration} (hd : d ∈ model.allElements)
      (h : k.OfElement model .localElement d)

/-- All classes have been made for something in the schema, and these are among them. -/
structure Made (ks : List ElementClass) (c : Catalog) : Prop where
  classes : ∀ k ∈ c.classes, k.MadeFor model
  kept : ks ⊆ c.classes

end

section
variable {model : Model} {ks : List ElementClass}

theorem made_of_classes (ks : List ElementClass) (c c' : Catalog)
    (hclasses : c'.classes = c.classes) (h : Made model ks c) : Made model ks c' where
  classes := by
    rw [hclasses]
    exact h.classes
  kept := by
    rw [hclasses]
    exact h.kept

theorem frame_made : Frame (fun _ => True) (Made model ks) :=
  frame_of_classes (made_of_classes ks)

theorem addClass_made {k : ElementClass} (hk : k.MadeFor model) :
    Ensures (Made model ks) (addClass k) fun _ => Made model (k :: ks) := by
  refine ensures_modify fun c hc => ⟨fun k' hk' => ?_, ?_⟩
  · rcases List.mem_append.mp hk' with hk' | hk'
    · exact hc.classes k' hk'
    · exact List.mem_singleton.mp hk' ▸ hk
  · refine List.cons_subset.mpr ⟨List.mem_append_right _ List.mem_cons_self, ?_⟩
    exact fun k' hk' => List.mem_append_left _ (hc.kept hk')

/-- A step that adds no class but what has been made for something. -/
abbrev Makes {α : Type} (model : Model) (ks : List ElementClass) (x : Build α) (R : α → Prop) :
    Prop :=
  Settles (fun _ => True) (Made model ks) x R

/-- The particles of a type, as they have been drafted, become its membership. -/
theorem buildMembership_typeMembership (hlimited : DeclareLimited model.declared) {t : ComplexType}
    (ht : t.Limited) {d : Draft}
    (hd : ContentParticles model t.content (d.particles.map (·.particle))) (bound : Nat)
    (groups : List String) (owner : String) :
    Ensures (fun _ => True)
      (buildMembership (localElementWithin model bound groups)
        (referredGroupWithin model bound groups) owner d.particles)
      fun ms _ => TypeMembership model t ms := by
  refine (buildMembership_effective (referredGroupWithin_keeps bound groups) owner
    fun p hp => ?_).weaken fun ms _ h => ⟨_, hd, h⟩
  exact hd.limited hlimited ht _ (List.mem_map_of_mem hp)

/-- A step that makes the membership of a type out of its draft. -/
def MakesMembers (model : Model) (ks : List ElementClass)
    (members : String → List DeclaredParticle → Build (Option Membership)) : Prop :=
  ∀ (t : ComplexType) (d : Draft) (k : Nat) (owner : String), t.Limited → d.Placed model k →
    ContentParticles model t.content (d.particles.map (·.particle)) →
    Makes model ks (members owner d.particles) (TypeMembership model t)

/-- The particles of a type are drafted, without a class being made. -/
theorem derive_makes (hm : model.Keyed) (scope : Scope) {t : ComplexType} {k : Nat}
    (ht : TypePlaced model k t) :
    Makes model ks (derive model scope t) fun d => d.Placed model k ∧
      ContentParticles model t.content (d.particles.map (·.particle)) :=
  (derive_settles model (frame_made.serves model) hm scope ht).and_result (derive_contentParticles scope t)

section
variable (hm : model.Keyed) (hlimited : DeclareLimited model.declared)
include hm hlimited

theorem buildClass_makes
    {members : String → List DeclaredParticle → Build (Option Membership)}
    (hmembers : MakesMembers model ks members) (origin : Origin) (name : String)
    {d : ElementDeclaration} (hd : d.type.declared.Sublist model.declared)
    (hfor : ∀ k : ElementClass, k.OfElement model origin d → k.MadeFor model) :
    Ensures (Made model ks) (buildClass model members origin name d)
      fun _ c => ∃ k : ElementClass, k.OfElement model origin d ∧ Made model (k :: ks) c := by
  have hadd (k : ElementClass) (hk : k.OfElement model origin d) :
      Ensures (Made model ks) (addClass k)
        fun _ c => ∃ k : ElementClass, k.OfElement model origin d ∧ Made model (k :: ks) c :=
    (addClass_made (hfor k hk)).weaken fun _ _ hc => ⟨k, hk, hc⟩
  rw [buildClass]
  split
  · next hany => exact hadd _ ⟨rfl, rfl, hany ▸ .any⟩
  · next hany =>
    refine ((complexTypeOf?_settles model (fun _ _ => trivial) hm name hd).and_result
      (complexTypeOf?_complex? name d.type)).ensures_bind fun r hr => ?_
    split
    · next scope t =>
      obtain ⟨hplaced, hcomplex⟩ := hr
      have ht := hlimited t (mem_declared_of_complex? hd hcomplex)
      refine (derive_makes hm scope (hplaced _ rfl)).ensures_bind fun draft hdraft => ?_
      obtain ⟨hdraft, hps⟩ := hdraft
      refine (hmembers t draft _ name ht hdraft hps).ensures_bind fun ms hms => ?_
      exact hadd _ ⟨rfl, rfl, .complex hcomplex hms⟩
    · refine (simpleContent_settles model frame_made name d.type).ensures_bind fun content _ => ?_
      exact hadd _ ⟨rfl, rfl, .text hany hr.2⟩

omit hm in
theorem MembersKeep.makes {bound : Nat} {groups : List String}
    (h : MembersKeep model (Made model) (membersWithin model bound groups)) :
    MakesMembers model ks (membersWithin model bound groups) := by
  intro t d k owner ht hplaced hps
  refine ((h ks d k owner hplaced).and_result (buildMembership_typeMembership hlimited ht hps bound
    groups owner)).consequence (fun _ => id) fun ms c h => ⟨h.1, h.2.2⟩

/-- A local element gets its class where those inside of its type get theirs. -/
theorem keptByClasses_made : KeptByClasses model (Made model) where
  classes := made_of_classes
  build bound groups hmembers ks name d hd := by
    have helement := model.mem_allElements (hd.subset d.mem_declared)
    refine (buildClass_makes hm hlimited (hmembers.makes hlimited) .localElement name
      (d.sublist_type.trans hd) fun k hk => .localElement helement hk).weaken fun _ c hc => ?_
    obtain ⟨k, -, hc⟩ := hc
    exact ⟨hc.classes, (List.cons_subset.mp hc.kept).2⟩

theorem membershipOf_makes : MakesMembers model ks (membershipOf model) :=
  ((keptByClasses_made hm hlimited).keptInside.members (nestingBound model) []).makes hlimited

/-- A concrete type gets a class. -/
theorem buildComplexType_makes {e : String × ComplexType} (he : e ∈ model.complexTypes) :
    Ensures (Made model ks) (buildComplexType model e.1 e.2) fun _ c => Made model ks c ∧
      (e.2.isAbstract = false → ∃ k ∈ c.classes, k.OfType model e) := by
  refine (typeScope_settles (fun _ _ => trivial) e.1).ensures_bind fun scope _ => ?_
  split
  · next habstract =>
    refine ensures_modify fun c hc => ⟨⟨hc.classes, hc.kept⟩, fun hconcrete => ?_⟩
    rw [hconcrete] at habstract
    cases habstract
  · have ht := (model.sublist_of_complexType he).subset e.2.mem_declared
    refine (derive_makes hm scope (placed_of_complexType model hm he 0)).ensures_bind
      fun draft hdraft => ?_
    obtain ⟨hdraft, hps⟩ := hdraft
    refine (membershipOf_makes hm hlimited e.2 draft _ _ (hlimited _ ht) hdraft hps).ensures_bind
      fun ms hms => ?_
    refine (addClass_made (.complexType he ⟨rfl, rfl, hms⟩)).weaken fun _ c hc => ?_
    obtain ⟨hk, hks⟩ := List.cons_subset.mp hc.kept
    exact ⟨⟨hc.classes, hks⟩, fun _ => ⟨_, hk, rfl, rfl, hms⟩⟩

theorem buildElement_makes {e : String × ElementDeclaration} (he : e ∈ model.elements) :
    Ensures (Made model ks) (buildElement model e.1 e.2) fun _ c => Made model ks c ∧
      ∃ k ∈ c.classes, k.OfElement model .topLevel e.2 := by
  have htype := e.2.sublist_type.trans (model.sublist_of_element he)
  refine (referredElement_settles (fun _ _ => trivial) e.1).ensures_bind fun className _ => ?_
  refine (buildClass_makes hm hlimited (membershipOf_makes hm hlimited) .topLevel className htype
    fun k hk => .element he hk).weaken fun _ c hc => ?_
  obtain ⟨k, hk, hc⟩ := hc
  obtain ⟨hmem, hks⟩ := List.cons_subset.mp hc.kept
  exact ⟨⟨hc.classes, hks⟩, k, hmem, hk⟩

end

/-- What the classes are asked for in turn they have in the end, as no class is lost. -/
theorem forM_makes {α : Type} {f : α → Build PUnit} {xs : List α}
    {D : α → List ElementClass → Prop} (hmono : ∀ x ks ks', ks ⊆ ks' → D x ks → D x ks')
    (h : ∀ x ∈ xs, ∀ ks, Ensures (Made model ks) (f x) fun _ c => Made model ks c ∧ D x c.classes) :
    Ensures (Made model ks) (xs.forM f) fun _ c => Made model ks c ∧ ∀ x ∈ xs, D x c.classes := by
  intro c u c' hc hrun
  refine forM_ensures (P := fun before c => Made model ks c ∧ ∀ x ∈ before, D x c.classes)
    (fun before x hx c u c' hbefore hrun => ?_) c u c' ⟨hc, by simp⟩ hrun
  obtain ⟨hc, hbefore⟩ := hbefore
  obtain ⟨hc', hD⟩ := h x hx (ks ++ c.classes) c u c'
    ⟨hc.classes, List.append_subset.mpr ⟨hc.kept, List.Subset.refl _⟩⟩ hrun
  obtain ⟨hks, hclasses⟩ := List.append_subset.mp hc'.kept
  refine ⟨⟨hc'.classes, hks⟩, fun y hy => ?_⟩
  rcases List.mem_append.mp hy with hy | hy
  · exact hmono y _ _ hclasses (hbefore y hy)
  · exact List.mem_singleton.mp hy ▸ hD

section
variable (hm : model.Keyed) (hlimited : DeclareLimited model.declared)
include hm hlimited

theorem buildAll_makes : Ensures (· = {}) (buildAll model) fun _ c =>
    (∀ k ∈ c.classes, k.MadeFor model) ∧
    (∀ e ∈ model.complexTypes, e.2.isAbstract = false → ∃ k ∈ c.classes, k.OfType model e) ∧
    ∀ e ∈ model.elements, ∃ k ∈ c.classes, k.OfElement model .topLevel e.2 := by
  have hstart : Made model [] {} := ⟨by simp, by simp⟩
  refine buildAll_ensures frame_made hstart ?_
  refine Ensures.bind (forM_makes
    (D := fun e ks => e.2.isAbstract = false → ∃ k ∈ ks, k.OfType model e)
    (fun e ks ks' hks h hconcrete => ?_)
    fun e he ks => buildComplexType_makes hm hlimited he) fun _ => ?_
  · obtain ⟨k, hk, hof⟩ := h hconcrete
    exact ⟨k, hks hk, hof⟩
  rintro c u c' ⟨hc, htypes⟩ hrun
  have hall : Made model c.classes c := ⟨hc.classes, List.Subset.refl _⟩
  obtain ⟨hc', helements⟩ := forM_makes
    (D := fun e ks => ∃ k ∈ ks, k.OfElement model .topLevel e.2)
    (fun e ks ks' hks h => h.imp fun k hk => ⟨hks hk.1, hk.2⟩)
    (fun e he ks => buildElement_makes hm hlimited he) c u c' hall hrun
  refine ⟨hc'.classes, fun e he hconcrete => ?_, helements⟩
  obtain ⟨k, hk, hof⟩ := htypes e he hconcrete
  exact ⟨k, hc'.kept hk, hof⟩

end

end

/-- The memberships of a module are what the complex types of a schema make them. -/
structure Module.MembershipsEffective (model : Model) (m : Module) : Prop where
  /-- Wherever a complex type is declared, its membership is effective, whatever it is built for; -/
  types : ∀ t, .inr t ∈ model.declared → ∀ scope bound groups owner,
    Ensures (fun _ => True) (do
      let draft ← derive model scope t
      buildMembership (localElementWithin model bound groups)
        (referredGroupWithin model bound groups) owner draft.particles)
      fun ms _ => TypeMembership model t ms
  /-- a class has the membership of the type or element it was made for, -/
  classes : ∀ k ∈ m.classes, k.MadeFor model
  /-- there is a class for every concrete type of the schema, -/
  complexTypes : ∀ e ∈ model.complexTypes, e.2.isAbstract = false →
    ∃ k ∈ m.classes, k.OfType model e
  /-- and there is one for every element of the schema. -/
  elements : ∀ e ∈ model.elements, ∃ k ∈ m.classes, k.OfElement model .topLevel e.2

theorem Module.membershipsEffective_of_ofModel {model : Model} (hm : model.Keyed)
    (hlimited : DeclareLimited model.declared) {m : Module} (h : Module.ofModel model = .ok m) :
    m.MembershipsEffective model := by
  obtain ⟨u, catalog, hr, rfl⟩ := exists_catalog_of_ofModel h
  obtain ⟨hclasses, htypes, helements⟩ := buildAll_makes hm hlimited {} u catalog rfl hr
  refine ⟨fun t ht scope bound groups owner => ?_, hclasses, htypes, helements⟩
  exact (derive_contentParticles scope t).bind_of_result fun draft hps =>
    buildMembership_typeMembership hlimited (hlimited t ht) hps bound groups owner

end XmlBinding.Binding

namespace XmlBinding
open Schema Binding Xml

/-- The memberships bound to a schema list the particles of its complex types with the bounds they
have in all. -/
theorem membershipsEffective_of_bindSchema {text : String} {allow : Bool} {m : Module}
    (h : bindSchema text allow = .ok m) :
    ∃ model, readSchema allow text = .ok model ∧ m.MembershipsEffective model := by
  obtain ⟨model, hread, hbound⟩ := bindSchema_eq_ok.mp h
  exact ⟨model, hread, Module.membershipsEffective_of_ofModel (keyed_of_readSchema hread)
    (declareLimited_of_readSchema hread) hbound⟩

/-- A type that adds a choice to another one. The choice may be made any number of times, and one
more is referred to in it. -/
def shelfOutline : Outline :=
  let word (name : String) := schemaElement "element" [("name", name), ("type", "string")] []
  ⟨"schema", none, [], none,
    [⟨"complexType", none, [("name", "A")], none, [⟨"choice", none, [], none, [word "a"]⟩]⟩,
    ⟨"group", none, [("name", "g")], none, [⟨"choice", none, [], none, [word "b"]⟩]⟩,
    ⟨"complexType", none, [("name", "B")], none,
      [⟨"complexContent", none, [], none,
        [⟨"extension", none, [("base", "A")], none,
          [⟨"choice", none, [("maxOccurs", "unbounded")], none,
            [word "c", ⟨"group", none, [("ref", "g")], none, []⟩]⟩]⟩]⟩]⟩]⟩

def shelfSchema : Model :=
  let word (name : String) : Particle :=
    ⟨1, .one, .element ⟨name, none, .named (.builtin "string"), false⟩⟩
  { complexTypes :=
      [("A", ⟨some "A", none, false, false,
        .particle ⟨1, .one, .group ⟨.choice, [word "a"]⟩⟩, []⟩),
      ("B", ⟨some "B", none, false, false,
        .extension (.schema "A")
          (some ⟨1, .unbounded, .group ⟨.choice, [word "c", ⟨1, .one, .groupRef "g"⟩]⟩⟩), []⟩)]
    groups := [("g", ⟨"g", none, ⟨.choice, [word "b"]⟩⟩)] }

theorem readModel_shelfOutline : readModel (shelfOutline.element none []) = .ok shelfSchema := by
  cbv

/-- The maxima of the slots of a class, from the first to the last. -/
def Binding.ElementClass.maxima (k : ElementClass) : List (Option Nat) :=
  k.membership.elim [] fun ms => ms.collection.slots.map (·.maximum)

theorem membershipsEffective_shelfOutline : ∃ m, bindSchema shelfOutline.document false = .ok m ∧
    m.classes.any (fun k => k.xmlName = "B" && k.maxima = [some 1, none, none]) ∧
    ∃ model, readSchema false shelfOutline.document = .ok model ∧ m.MembershipsEffective model := by
  obtain ⟨m, hm, hmaxima⟩ := exists_bindSchema_document (P := fun m => m.classes.any fun k =>
      k.xmlName = "B" && k.maxima = [some 1, none, none])
    (by decide +kernel) readModel_shelfOutline (by decide +kernel) false
  exact ⟨m, hm, hmaxima, membershipsEffective_of_bindSchema hm⟩

end XmlBinding
