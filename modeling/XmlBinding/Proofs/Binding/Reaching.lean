import XmlBinding.Proofs.Binding.Cycles
import XmlBinding.Proofs.Binding.Nesting

/-! # What the construction reaches

Classes are built from the contents of types, and these lead on to groups, to the groups that are
referred to, and through elements to further contents. A group stays active while the classes of the
elements inside of it are built, so one that is reported as circular leads back to itself by any of
these.
-/
namespace XmlBinding.Schema
open Binding

/-- A term of a content that may occur, and the name of the type that states it. -/
inductive ComplexType.Contains (model : Model) (type : ComplexType) : Option String → Term → Prop
  | particle {ps : List DeclaredParticle} {p : DeclaredParticle}
      (hps : DeclaredParticles model type.name type.content ps) (hp : p ∈ ps)
      (hmaximum : p.particle.maximum ≠ .count 0) : Contains model type p.declaredIn p.particle.term

/-- What there is in a term by groups alone: in a group its particles that may occur, in a reference
the group that is referred to. -/
inductive Term.Holds (model : Model) : Term → Term → Prop
  | particle {g : ModelGroup} {p : Particle} (hp : p ∈ g.particles)
      (hmaximum : p.maximum ≠ .count 0) : Holds model (.group g) p.term
  | reference {name : String} {g : GroupDefinition} (hg : model.group name = some g) :
      Holds model (.groupRef name) (.group g.group)

/-- An element is no group. -/
theorem Term.not_holds_element {model : Model} (d : ElementDeclaration) (t : Term) :
    ¬ (Term.element d).Holds model t :=
  nofun

/-- What there is in a term, and in an element the content of its type. -/
inductive Term.Meets (model : Model) : Term → Term → Prop
  | holds {t t' : Term} (h : t.Holds model t') : Meets model t t'
  | content {d : ElementDeclaration} {type : ComplexType} {declaredIn : Option String} {t : Term}
      (htype : d.type.complex? model = some type) (h : type.Contains model declaredIn t) :
      Meets model (.element d) t

namespace Model
variable (model : Model)

/-- The types that classes are built from in any case: the concrete ones and those of top-level
elements. -/
inductive Root : ComplexType → Prop
  | complexType {e : String × ComplexType} (he : e ∈ model.complexTypes)
      (hconcrete : e.2.isAbstract = false) : Root e.2
  | element {e : String × ElementDeclaration} {type : ComplexType} (he : e ∈ model.elements)
      (htype : e.2.type.complex? model = some type) : Root type

/-- The terms that these types lead to, and the names of the types that state them. -/
inductive Reached : Option String → Term → Prop
  | root {type : ComplexType} {declaredIn : Option String} {t : Term} (hroot : model.Root type)
      (h : type.Contains model declaredIn t) : Reached declaredIn t
  | holds {declaredIn : Option String} {t t' : Term} (h : Reached declaredIn t)
      (h' : t.Holds model t') : Reached declaredIn t'
  | content {declaredIn declaredIn' : Option String} {d : ElementDeclaration} {type : ComplexType}
      {t : Term} (h : Reached declaredIn (.element d)) (htype : d.type.complex? model = some type)
      (h' : type.Contains model declaredIn' t) : Reached declaredIn' t

/-- A group whose definition leads to a reference to the group by groups alone. -/
def Circular (name : String) : Prop :=
  Relation.TransGen model.GroupRefersTo name name

/-- A group whose definition leads to a reference to the group, be it through elements. -/
def Recursive (name : String) : Prop :=
  Relation.TransGen (Term.Meets model) (.groupRef name) (.groupRef name)

end Model

section
variable {model : Model} {name : String}

mutual

theorem ModelGroup.holds_of_referred : ∀ g : ModelGroup, name ∈ g.referred →
    Relation.ReflTransGen (Term.Holds model) (.group g) (.groupRef name)
  | ⟨_, particles⟩, h => by
    rw [ModelGroup.referred] at h
    obtain ⟨p, hp, hmaximum, h⟩ := particles_hold_of_referred particles h
    exact .head (.particle hp hmaximum) h

theorem particles_hold_of_referred : ∀ ps : List Particle, name ∈ particlesReferred ps →
    ∃ p ∈ ps, p.maximum ≠ .count 0 ∧
      Relation.ReflTransGen (Term.Holds model) p.term (.groupRef name)
  | [], h => by
    rw [particlesReferred] at h
    cases h
  | ⟨_, maximum, term⟩ :: ps, h => by
    have hrest (h : name ∈ particlesReferred ps) := particles_hold_of_referred ps h
    rw [particlesReferred] at h
    split at h
    · exact (hrest h).imp fun p hp => ⟨List.mem_cons_of_mem _ hp.1, hp.2⟩
    · next hmaximum =>
      rcases List.mem_append.mp h with h | h
      · exact ⟨_, List.mem_cons_self, hmaximum, term.holds_of_referred h⟩
      · exact (hrest h).imp fun p hp => ⟨List.mem_cons_of_mem _ hp.1, hp.2⟩

theorem Term.holds_of_referred : ∀ t : Term, name ∈ t.referred →
    Relation.ReflTransGen (Term.Holds model) t (.groupRef name)
  | .group g, h => by
    rw [Term.referred] at h
    exact g.holds_of_referred h
  | .groupRef other, h => by
    rw [Term.referred, List.mem_singleton] at h
    exact h ▸ .refl
  | .element _, h | .elementRef _, h | .wildcard, h => by
    rw [Term.referred] at h
    cases h

end

theorem Model.Circular.holds (h : model.Circular name) :
    Relation.TransGen (Term.Holds model) (.groupRef name) (.groupRef name) :=
  h.lift' Term.groupRef fun _ _ ⟨g, hg, hmem⟩ =>
    .head' (.reference hg) (g.group.holds_of_referred hmem)

end

end XmlBinding.Schema

namespace XmlBinding.Binding
open Schema

section
variable {model : Model}

/-- A group that is reported as circular is reached and leads to itself. -/
def Justified (model : Model) (e : BindingError) : Prop :=
  ∀ name, e = .circular .group name →
    (∃ declaredIn, model.Reached declaredIn (.groupRef name)) ∧ model.Recursive name

theorem justified_unsupported (model : Model) (what : Unsupported) :
    Justified model (.unsupported what) :=
  nofun

theorem frame_justified (model : Model) : Frame (Justified model) fun _ => True :=
  ⟨fun _ h name he => absurd he (h.noGroup name), fun _ _ _ _ _ _ => trivial⟩

/-- Where a term is met while these groups are being expanded: inside of each of them. -/
structure Traced (model : Model) (k : Nat) (groups : List String) (declaredIn : Option String)
    (t : Term) : Prop where
  placed : Placed model k declaredIn t.declared
  reached : model.Reached declaredIn t
  inside : ∀ name ∈ groups, Relation.TransGen (Term.Meets model) (.groupRef name) t

theorem passesDown_traced (model : Model) (k : Nat) (groups : List String)
    (declaredIn : Option String) : PassesDown (Traced model k groups declaredIn) := by
  intro g p h hp hmaximum
  have hholds : (Term.group g).Holds model p.term := .particle hp hmaximum
  exact ⟨passesDown_placed model k declaredIn g p h.placed hp hmaximum, .holds h.reached hholds,
    fun name hname => (h.inside name hname).tail (.holds hholds)⟩

/-- What a group holds that is entered is inside of that group too. -/
theorem Traced.enter {k : Nat} {groups : List String} {declaredIn : Option String} {name : String}
    {g : GroupDefinition} (h : Traced model k groups declaredIn (.groupRef name))
    (hg : model.group name = some g) :
    Traced model g.group.declared.length (name :: groups) declaredIn (.group g.group) := by
  have hholds : (Term.groupRef name).Holds model (.group g.group) := .reference hg
  refine ⟨?_, .holds h.reached hholds, List.forall_mem_cons.mpr ⟨.single (.holds hholds), ?_⟩⟩
  · rw [Term.declared]
    exact ⟨h.placed.owner, model.sublist_of_group (mem_of_find hg), fun _ => Nat.le_refl _⟩
  · exact fun other hother => (h.inside other hother).tail (.holds hholds)

/-- Within a bound on how deep they are nested, elements and groups are reported for a reason. -/
structure JustifiedWithin (model : Model) (bound : Nat) : Prop where
  element : ∀ k groups declaredIn owner d, Traced model k groups declaredIn (.element d) →
    SettlesAll (Justified model) (fun _ => True)
      (localElementWithin model bound groups declaredIn owner d)
  group : ∀ k groups declaredIn owner name minimum m,
    Traced model k groups declaredIn (.groupRef name) →
    SettlesAll (Justified model) (fun _ => True)
      (referredGroupWithin model bound groups declaredIn owner name minimum m)

theorem JustifiedWithin.referredGroup {bound : Nat} (h : JustifiedWithin model bound) {k : Nat}
    {groups : List String} {declaredIn : Option String} {name : String}
    (htraced : Traced model k groups declaredIn (.groupRef name)) (owner : String) (minimum : Nat)
    (m : MaxOccurs) :
    SettlesAll (Justified model) (fun _ => True)
      (referredGroupWithin model (bound + 1) groups declaredIn owner name minimum m) := by
  rw [referredGroupWithin]
  split
  · exact (frame_justified model).fail (plain_unknown _ _)
  · next g hg =>
    split
    · next hactive =>
      refine ends_fail fun other hother => ?_
      obtain rfl : name = other := by simpa using hother
      exact ⟨⟨declaredIn, htraced.reached⟩, htraced.inside name (by simpa using hactive)⟩
    · exact buildGroup_settles (frame_justified model).plain
        (passesDown_traced model g.group.declared.length (name :: groups) declaredIn)
        (h.element _ _ declaredIn owner) (h.group _ _ declaredIn owner) minimum m g.group
        (htraced.enter hg)

/-- The particles of a type are met where the type is. -/
theorem JustifiedWithin.members {bound : Nat} (h : JustifiedWithin model bound) {k : Nat}
    {groups : List String} {type : ComplexType} {draft : Draft} (hdraft : draft.Placed model k)
    (hps : DeclaredParticles model type.name type.content draft.particles)
    (hmet : ∀ declaredIn t, type.Contains model declaredIn t → model.Reached declaredIn t ∧
      ∀ name ∈ groups, Relation.TransGen (Term.Meets model) (.groupRef name) t) (owner : String) :
    SettlesAll (Justified model) (fun _ => True)
      (buildMembership (localElementWithin model bound groups)
        (referredGroupWithin model bound groups) owner draft.particles) := by
  refine buildMembership_settles (frame_justified model).plain (passesDown_traced model k groups)
    (h.element k groups) (h.group k groups) owner fun p hp hmaximum => ?_
  obtain ⟨hreached, hinside⟩ := hmet _ _ (.particle hps hp hmaximum)
  exact ⟨hdraft p hp, hreached, hinside⟩

theorem rememberElement_justified (declaredIn : Option String) (d : ElementDeclaration)
    (className : String) :
    SettlesAll (Justified model) (fun _ => True) (rememberElement declaredIn d className) :=
  rememberElement_settles (fun _ _ _ h => h) declaredIn d className

theorem addClass_justified (k : ElementClass) :
    SettlesAll (Justified model) (fun _ => True) (addClass k) :=
  ends_modify fun _ _ => ⟨trivial, trivial⟩

section
variable (hm : model.Keyed)
include hm

theorem JustifiedWithin.localElement {bound : Nat} (h : JustifiedWithin model bound) {k : Nat}
    {groups : List String} {declaredIn : Option String} {d : ElementDeclaration}
    (htraced : Traced model k groups declaredIn (.element d)) (owner : String) :
    SettlesAll (Justified model) (fun _ => True)
      (localElementWithin model (bound + 1) groups declaredIn owner d) := by
  have hframe := frame_justified model
  have hd : d.declared.Sublist model.declared := by
    have hpart := htraced.placed.part
    rwa [Term.declared] at hpart
  rw [localElementWithin]
  refine settles_get.bind fun c _ => ?_
  split
  · exact settles_pure trivial
  · refine (reserveElement_settles hframe declaredIn owner d).bind fun className _ => ?_
    refine (rememberElement_justified declaredIn d className).bind fun _ _ => ?_
    refine Settles.bind (R := fun _ => True) ?_ fun _ _ => settles_pure trivial
    refine buildClass_settles model hframe hm (d.sublist_type.trans hd)
      (fun owner type draft htype hdraft hps => ?_) addClass_justified _ _
    refine h.members hdraft hps (fun declaredIn t ht =>
      ⟨.content htraced.reached htype ht, ?_⟩) owner
    exact fun name hname => (htraced.inside name hname).tail (.content htype ht)

theorem justifiedWithin (bound : Nat) : JustifiedWithin model bound := by
  induction bound with
  | zero =>
    constructor
    · intro k groups declaredIn owner d _
      rw [localElementWithin]
      exact ends_fail (justified_unsupported model _)
    · intro k groups declaredIn owner name minimum m _
      rw [referredGroupWithin]
      exact ends_fail (justified_unsupported model _)
  | succ bound ih =>
    constructor
    · intro k groups declaredIn owner d htraced
      exact ih.localElement hm htraced owner
    · intro k groups declaredIn owner name minimum m htraced
      exact ih.referredGroup htraced owner minimum m

/-- The classes of root types are built while no group is being expanded. -/
theorem membershipOf_justified {k : Nat} {type : ComplexType} (hroot : model.Root type)
    {draft : Draft} (hdraft : draft.Placed model k)
    (hps : DeclaredParticles model type.name type.content draft.particles) (owner : String) :
    SettlesAll (Justified model) (fun _ => True) (membershipOf model owner draft.particles) :=
  (justifiedWithin hm _).members hdraft hps (fun _ _ ht => ⟨.root hroot ht, by simp⟩) owner

theorem buildComplexType_justified {e : String × ComplexType} (he : e ∈ model.complexTypes) :
    SettlesAll (Justified model) (fun _ => True) (buildComplexType model e.1 e.2) := by
  have hframe := frame_justified model
  refine (typeScope_settles hframe.plain e.1).bind fun scope _ => ?_
  split
  · exact hframe.modify (fun _ => rfl) (fun _ => rfl) fun _ => rfl
  · next hconcrete =>
    have hroot : model.Root e.2 := .complexType he (by simpa using hconcrete)
    refine ((derive_settles model (hframe.serves model) hm scope (placed_of_complexType model hm he 0)).and_result
      (derive_declaredParticles scope e.2)).bind fun draft ⟨hdraft, hps⟩ => ?_
    exact (membershipOf_justified hm hroot hdraft hps _).bind fun _ _ => addClass_justified _

theorem buildElement_justified {e : String × ElementDeclaration} (he : e ∈ model.elements) :
    SettlesAll (Justified model) (fun _ => True) (buildElement model e.1 e.2) := by
  have hframe := frame_justified model
  refine (referredElement_settles hframe.plain e.1).bind fun className _ => ?_
  refine buildClass_settles model hframe hm (e.2.sublist_type.trans (model.sublist_of_element he))
    (fun owner type draft htype hdraft hps => ?_) addClass_justified _ _
  exact membershipOf_justified hm (.element he htype) hdraft hps owner

/-- A group is reported as circular only if it is reached and leads to itself. -/
theorem justified_of_ofModel {e : BindingError} (h : Module.ofModel model = .error e) :
    Justified model e := by
  have hbuild : SettlesAll (Justified model) (fun _ => True) (buildAll model) :=
    buildAll_settles (frame_justified model) (fun _ => buildComplexType_justified hm)
      fun _ => buildElement_justified hm
  rw [Module.ofModel] at h
  rcases hbuild {} trivial with ⟨e', he, hjustified⟩ | ⟨_, catalog, hok, -⟩
  · rw [he] at h
    exact Except.error.inj h ▸ hjustified
  · rw [hok] at h
    cases h

end

end

end XmlBinding.Binding
