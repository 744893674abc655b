import XmlBinding.Proofs.Binding.Documents
import XmlBinding.Proofs.Binding.Passing
import XmlBinding.Proofs.Binding.Resemblance

/-! # Circular groups

A circular group stops the construction in whatever order a schema declares its components. Where
groups recurse through the types of elements the order matters: such a group is reported if an
element on the way back to it is built for the first time while the group is being expanded.
-/
namespace XmlBinding.Schema
open Binding

/-- No group that is reached leads to itself through elements alone. -/
def Model.CircularIfRecursive (model : Model) : Prop :=
  ∀ declaredIn name, model.Reached declaredIn (.groupRef name) → model.Recursive name →
    model.Circular name

section
variable {model model' : Model}

section
variable (h : model'.Resembles model)
include h

theorem Model.Resembles.typeNamed? (name : TypeName) :
    model'.typeNamed? name = model.typeNamed? name := by
  cases name with
  | builtin name => rfl
  | schema name => exact h.complexType name

theorem Model.Resembles.complex? (type : ElementType) :
    type.complex? model' = type.complex? model := by
  cases type with
  | named name => exact h.typeNamed? name
  | _ => rfl

theorem Model.Resembles.baseType? (content : ComplexContent) :
    content.baseType? model' = content.baseType? model := by
  rw [ComplexContent.baseType?, ComplexContent.baseType?, funext h.typeNamed?]

theorem Model.Resembles.declaredParticles {name : Option String} {content : ComplexContent}
    {ps : List DeclaredParticle} (hps : DeclaredParticles model' name content ps) :
    DeclaredParticles model name content ps := by
  induction hps with
  | alone hbase => exact .alone (h.baseType? _ ▸ hbase)
  | derived hbase _ ih => exact .derived (h.baseType? _ ▸ hbase) ih

theorem Model.Resembles.contains {type : ComplexType} {declaredIn : Option String} {t : Term}
    (ht : type.Contains model' declaredIn t) : type.Contains model declaredIn t := by
  obtain ⟨hps, hp, hmaximum⟩ := ht
  exact .particle (h.declaredParticles hps) hp hmaximum

theorem Model.Resembles.holds {t t' : Term} (ht : t.Holds model' t') : t.Holds model t' := by
  cases ht with
  | particle hp hmaximum => exact .particle hp hmaximum
  | reference hg => exact .reference (h.group _ ▸ hg)

theorem Model.Resembles.meets {t t' : Term} (ht : t.Meets model' t') : t.Meets model t' := by
  cases ht with
  | holds ht => exact .holds (h.holds ht)
  | content htype ht => exact .content (h.complex? _ ▸ htype) (h.contains ht)

theorem Model.Resembles.recursive {name : String} (hr : model'.Recursive name) :
    model.Recursive name :=
  hr.lift id fun _ _ => h.meets

end

theorem Model.Reorders.reached (h : model'.Reorders model) (hr : model'.Resembles model)
    {declaredIn : Option String} {t : Term} (ht : model'.Reached declaredIn t) :
    model.Reached declaredIn t := by
  induction ht with
  | root hroot ht =>
    refine .root ?_ (hr.contains ht)
    cases hroot with
    | complexType he hconcrete => exact .complexType (h.complexTypes.mem_iff.mp he) hconcrete
    | element he htype => exact .element (h.elements.mem_iff.mp he) (hr.complex? _ ▸ htype)
  | holds _ ht ih => exact .holds ih (hr.holds ht)
  | content _ htype ht ih => exact .content ih (hr.complex? _ ▸ htype) (hr.contains ht)

end

end XmlBinding.Schema

namespace XmlBinding.Binding
open Schema

/-- How groups that are defined in terms of themselves are reported. -/
structure CircularGroups (model : Model) : Prop where
  /-- A group that is reported is reached, and its definition leads to it, be it by elements. -/
  recursive : ∀ name, Module.ofModel model = .error (.circular .group name) →
    (∃ declaredIn, model.Reached declaredIn (.groupRef name)) ∧ model.Recursive name
  /-- So where no group leads to itself through elements alone, one that is reported is circular. -/
  circular : model.CircularIfRecursive → ∀ name,
    Module.ofModel model = .error (.circular .group name) → model.Circular name
  /-- If elements that share a place have one type, no module is made where a circular group is
  reached, -/
  stops : model.Consistent → ∀ declaredIn name, model.Reached declaredIn (.groupRef name) →
    model.Circular name → ∃ e, Module.ofModel model = .error e
  /-- so that one that is reported in some order stops the construction in any. -/
  order : model.CircularIfRecursive → model.Consistent → ∀ model' : Model, model'.Reorders model →
    ∀ name, Module.ofModel model' = .error (.circular .group name) →
    ∃ e, Module.ofModel model = .error e
  /-- Only the order of types and elements can matter at all. -/
  groups : ∀ model' : Model, model'.Reorders model → model'.simpleTypes = model.simpleTypes →
    model'.complexTypes = model.complexTypes → model'.elements = model.elements →
    Module.ofModel model' = Module.ofModel model

/-- A group is reported as circular because its definition leads to it, by groups alone unless
groups recurse through elements. -/
theorem circularGroups_of_readSchema {text : String} {allow : Bool} {model : Model}
    (h : readSchema allow text = .ok model) : CircularGroups model := by
  have hm := keyed_of_readSchema h
  have hgroups := groupsKeyed_of_readSchema h
  have hstops (hconsistent : model.Consistent) (declaredIn : Option String) (name : String)
      (hreached : model.Reached declaredIn (.groupRef name)) (hcircular : model.Circular name) :
      ∃ e, Module.ofModel model = .error e := by
    cases hbound : Module.ofModel model with
    | error e => exact ⟨e, rfl⟩
    | ok m => exact absurd hcircular (not_circular_of_ofModel hm hconsistent hbound hreached)
  constructor
  case recursive => exact fun name herror => justified_of_ofModel hm herror name rfl
  case circular =>
    intro honly name herror
    obtain ⟨⟨declaredIn, hreached⟩, hrecursive⟩ := justified_of_ofModel hm herror name rfl
    exact honly declaredIn name hreached hrecursive
  case stops => exact hstops
  case order =>
    intro honly hconsistent model' hreorders name herror
    have hresembles := hreorders.resembles hm hgroups
    obtain ⟨⟨declaredIn, hreached⟩, hrecursive⟩ :=
      justified_of_ofModel (hreorders.keyed hm) herror name rfl
    have hreached := hreorders.reached hresembles hreached
    exact hstops hconsistent declaredIn name hreached
      (honly declaredIn name hreached (hresembles.recursive hrecursive))
  case groups =>
    intro model' hreorders
    exact Module.ofModel_eq (hreorders.resembles hm hgroups) hreorders.targetNamespace

/-! ## Groups that refer to each other -/

section
open Xml

/-- Two groups that refer to each other, and an element with one of them. -/
def ringOutline : Outline :=
  let reference (name : String) : Outline := ⟨"group", none, [("ref", name)], none, []⟩
  let group (name other : String) : Outline :=
    ⟨"group", none, [("name", name)], none, [⟨"sequence", none, [], none, [reference other]⟩]⟩
  ⟨"schema", none, [], none, [group "A" "B", group "B" "A",
    ⟨"element", none, [("name", "Root")], none,
      [⟨"complexType", none, [], none, [reference "A"]⟩]⟩]⟩

def ringGroup (name other : String) : String × GroupDefinition :=
  (name, ⟨name, none, ⟨.sequence, [⟨1, .one, .groupRef other⟩]⟩⟩)

def groupRing (groups : List (String × GroupDefinition)) : Model where
  elements := [("Root", ⟨"Root", none,
    .complex ⟨none, none, false, false, .particle ⟨1, .one, .groupRef "A"⟩, []⟩, false⟩)]
  groups := groups

theorem readModel_ringOutline : readModel (ringOutline.element none []) =
    .ok (groupRing [ringGroup "A" "B", ringGroup "B" "A"]) := by
  cbv

/-- The ring as it is read. -/
abbrev ring : Model := groupRing [ringGroup "A" "B", ringGroup "B" "A"]

theorem circularIfRecursive_ring : ring.CircularIfRecursive := by
  have hA : ring.GroupRefersTo "A" "B" := ⟨_, rfl, List.mem_singleton_self _⟩
  have hB : ring.GroupRefersTo "B" "A" := ⟨_, rfl, List.mem_singleton_self _⟩
  intro declaredIn name _ hrecursive
  obtain ⟨t, ⟨hholds⟩, -⟩ := Relation.TransGen.head'_iff.mp hrecursive
  cases hholds with
  | reference hg =>
    have hname : name = "A" ∨ name = "B" := by
      have hmem := List.mem_map_of_mem (f := Prod.fst) (mem_of_find hg)
      simpa [groupRing, ringGroup] using hmem
    rcases hname with rfl | rfl
    · exact .tail (.single hA) hB
    · exact .tail (.single hB) hA

/-- The groups of the ring hold references only. -/
theorem reached_ring {declaredIn : Option String} {t : Term} (h : ring.Reached declaredIn t) :
    (∃ name, t = .groupRef name) ∨ ∃ name other, t = .group (ringGroup name other).2.group := by
  induction h with
  | root hroot h =>
    left
    cases hroot with
    | complexType he _ => cases he
    | element he htype =>
      obtain rfl := List.mem_singleton.mp he
      cases htype
      obtain ⟨hps, hp, -⟩ := h
      cases hps with
      | alone _ =>
        obtain rfl := List.mem_singleton.mp hp
        exact ⟨"A", rfl⟩
      | derived hbase _ => cases hbase
  | holds _ h ih =>
    rcases ih with ⟨name, rfl⟩ | ⟨name, other, rfl⟩
    · right
      cases h with
      | reference hg =>
        have hmem := mem_of_find hg
        rcases List.mem_cons.mp hmem with hmem | hmem
        · cases hmem
          exact ⟨"A", "B", rfl⟩
        · cases List.mem_singleton.mp hmem
          exact ⟨"B", "A", rfl⟩
    · left
      cases h with
      | particle hp _ =>
        obtain rfl := List.mem_singleton.mp hp
        exact ⟨other, rfl⟩
  | content _ _ _ ih =>
    rcases ih with ⟨_, h⟩ | ⟨_, _, h⟩ <;> cases h

theorem consistent_ring : ring.Consistent := by
  intro declaredIn _ d _ _ hreached
  rcases reached_ring hreached with ⟨_, h⟩ | ⟨_, _, h⟩ <;> cases h

theorem circularGroups_ringOutline : ∃ model,
    readSchema false ringOutline.document = .ok model ∧ model.CircularIfRecursive ∧
    model.Consistent ∧ Module.ofModel model = .error (.circular .group "A") ∧
    model.Circular "A" ∧ ∃ model' e, model'.Reorders model ∧
      Module.ofModel model' = .error (.circular .group "A") ∧ Module.ofModel model = .error e := by
  have hread : readSchema false ringOutline.document = .ok ring :=
    (readSchema_document (by decide +kernel) false).trans readModel_ringOutline
  have herror : Module.ofModel ring = .error (.circular .group "A") := by with_unfolding_all rfl
  have hcircular := (circularGroups_of_readSchema hread).circular circularIfRecursive_ring
    "A" herror
  have hreorders : (groupRing [ringGroup "B" "A", ringGroup "A" "B"]).Reorders ring :=
    ⟨rfl, .refl _, .refl _, .refl _, .refl _, .refl _, .swap _ _ _⟩
  have herror' : Module.ofModel (groupRing [ringGroup "B" "A", ringGroup "A" "B"]) =
      .error (.circular .group "A") := by with_unfolding_all rfl
  obtain ⟨e, he⟩ := (circularGroups_of_readSchema hread).order circularIfRecursive_ring
    consistent_ring _ hreorders "A" herror'
  exact ⟨ring, hread, circularIfRecursive_ring, consistent_ring, herror, hcircular, _, e, hreorders,
    herror', he⟩

/-! ## A group that an element leads back to -/

/-- A type with a choice of a group or a word, a type with an element of that type, and the group,
which has such an element too. -/
def chainOutline (types : List Outline) : Outline :=
  ⟨"schema", none, [], none, types ++ [⟨"group", none, [("name", "g")], none,
    [⟨"sequence", none, [], none,
      [⟨"element", none, [("name", "x"), ("type", "T")], none, []⟩]⟩]⟩]⟩

def linkOutline : Outline :=
  ⟨"complexType", none, [("name", "T")], none, [⟨"choice", none, [], none,
    [⟨"group", none, [("ref", "g")], none, []⟩,
      schemaElement "element" [("name", "y"), ("type", "string")] []]⟩]⟩

def userOutline : Outline :=
  ⟨"complexType", none, [("name", "A")], none, [⟨"sequence", none, [], none,
    [⟨"element", none, [("name", "x"), ("type", "T")], none, []⟩]⟩]⟩

def linkGroup : ModelGroup :=
  ⟨.sequence, [⟨1, .one, .element ⟨"x", none, .named (.schema "T"), false⟩⟩]⟩

def linkType : String × ComplexType :=
  ("T", ⟨some "T", none, false, false, .particle ⟨1, .one, .group ⟨.choice,
    [⟨1, .one, .groupRef "g"⟩,
      ⟨1, .one, .element ⟨"y", none, .named (.builtin "string"), false⟩⟩]⟩⟩, []⟩)

def userType : String × ComplexType :=
  ("A", ⟨some "A", none, false, false, .particle ⟨1, .one, .group linkGroup⟩, []⟩)

def chainSchema (types : List (String × ComplexType)) : Model where
  complexTypes := types
  groups := [("g", ⟨"g", none, linkGroup⟩)]

theorem readModel_chainOutline :
    readModel ((chainOutline [linkOutline, userOutline]).element none []) =
        .ok (chainSchema [linkType, userType]) ∧
      readModel ((chainOutline [userOutline, linkOutline]).element none []) =
        .ok (chainSchema [userType, linkType]) :=
  ⟨by cbv, by cbv⟩

/-- A group is reported as circular that refers to no group, and it is not if the types are declared
the other way around. -/
theorem not_circular_chainOutline : ∃ model model',
    readSchema false (chainOutline [linkOutline, userOutline]).document = .ok model ∧
    readSchema false (chainOutline [userOutline, linkOutline]).document = .ok model' ∧
    model'.Reorders model ∧ Module.ofModel model = .error (.circular .group "g") ∧
    ¬ model.Circular "g" ∧ ∃ m, Module.ofModel model' = .ok m := by
  refine ⟨chainSchema [linkType, userType], chainSchema [userType, linkType],
    (readSchema_document (by decide +kernel) false).trans readModel_chainOutline.1,
    (readSchema_document (by decide +kernel) false).trans readModel_chainOutline.2,
    ⟨rfl, .refl _, .swap _ _ _, .refl _, .refl _, .refl _, .refl _⟩, by with_unfolding_all rfl,
    fun hcircular => ?_, ?_⟩
  · obtain ⟨name, ⟨g, hg, hname⟩, -⟩ := Relation.TransGen.head'_iff.mp hcircular
    cases hg
    cases hname
  · obtain ⟨m, hm, -⟩ := exists_of_toOption (P := fun _ => true)
      (chainSchema [userType, linkType]) (by decide +kernel)
    exact ⟨m, hm⟩

end

end XmlBinding.Binding
