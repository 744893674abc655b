import XmlBinding.Proofs.Binding.Keeping
import XmlBinding.Proofs.Binding.Nesting

/-! # Classes are built in turn

First the types of a schema get their classes and then its elements, in the order they are declared
in. Elements inside of them get theirs as soon as they are met, so what is built for a declaration
ends with the class of that declaration, and before it come classes of elements inside.
-/
namespace XmlBinding.Binding
open Schema

/-! ## What a class is built for -/

/-- The class that a step adds at last. -/
def ElementClass.BuiltBy (k : ElementClass) (x : Build Unit) : Prop :=
  ∃ c c' before, x.run c = .ok (⟨⟩, c') ∧ c'.classes = c.classes ++ (before ++ [k])

/-- A class that is built for an element inside of a type. -/
def ElementClass.InnerFor (model : Model) (d : ElementDeclaration) (k : ElementClass) : Prop :=
  ∃ bound groups name,
    k.BuiltBy (buildClass model (membersWithin model bound groups) .localElement name d)

/-- A class that is built for an element declaration, wherever that is. -/
def ElementClass.BuiltFor (model : Model) (d : ElementDeclaration) (k : ElementClass) : Prop :=
  (∃ name, k.BuiltBy (buildElement model name d)) ∨ k.InnerFor model d

/-- What a class says about the declaration it is built for. -/
structure ElementClass.Tells (origin : Origin) (d : ElementDeclaration) (k : ElementClass) :
    Prop where
  origin : k.origin = origin
  xmlName : k.xmlName = d.name
  registered : k.registered = !d.isAbstract

section
variable {model : Model} {k : ElementClass} {R : ElementClass → Prop}

theorem addClass_last {P : Catalog → Prop} (hk : R k) :
    Ensures P (addClass k) fun _ c => ∃ k ∈ c.classes.getLast?, R k :=
  ensures_modify fun c _ => ⟨k, by simp, hk⟩

/-- What a step ensures of the last class. -/
theorem ElementClass.BuiltBy.ensured {x : Build Unit} (h : k.BuiltBy x)
    (hx : Ensures (fun _ => True) x fun _ c => ∃ k ∈ c.classes.getLast?, R k) : R k := by
  obtain ⟨c, c', before, hrun, hclasses⟩ := h
  obtain ⟨k', hlast, hR⟩ := hx c ⟨⟩ c' trivial hrun
  obtain rfl : k = k' := by simpa [hclasses] using hlast
  exact hR

theorem buildClass_tells (members : String → List DeclaredParticle → Build (Option Membership))
    (origin : Origin) (name : String) (d : ElementDeclaration) :
    Ensures (fun _ => True) (buildClass model members origin name d)
      fun _ c => ∃ k ∈ c.classes.getLast?, k.Tells origin d := by
  rw [buildClass]
  split
  · exact addClass_last ⟨rfl, rfl, rfl⟩
  · refine ensures_true.bind fun r => ?_
    split
    · exact ensures_true.bind fun _ => ensures_true.bind fun _ => addClass_last ⟨rfl, rfl, rfl⟩
    · exact ensures_true.bind fun _ => addClass_last ⟨rfl, rfl, rfl⟩

theorem ElementClass.BuiltBy.tells {name : String} {d : ElementDeclaration}
    (h : k.BuiltBy (buildElement model name d)) : k.Tells .topLevel d :=
  h.ensured (ensures_true.bind fun _ => buildClass_tells _ _ _ d)

theorem ElementClass.InnerFor.tells {d : ElementDeclaration} (h : k.InnerFor model d) :
    k.Tells .localElement d := by
  obtain ⟨bound, groups, name, h⟩ := h
  exact h.ensured (buildClass_tells _ _ name d)

theorem ElementClass.BuiltFor.tells {d : ElementDeclaration} (h : k.BuiltFor model d) :
    ∃ origin, origin ≠ .complexType ∧ k.Tells origin d := by
  rcases h with ⟨name, h⟩ | h
  · exact ⟨.topLevel, nofun, h.tells⟩
  · exact ⟨.localElement, nofun, h.tells⟩

/-- The class of a type is registered under the name of the type. -/
theorem ElementClass.BuiltBy.ofType {name : String} {t : ComplexType}
    (h : k.BuiltBy (buildComplexType model name t)) (ht : t.isAbstract = false) :
    k.origin = .complexType ∧ k.xmlName = name ∧ k.registered = true := by
  refine h.ensured (R := fun k => k.origin = .complexType ∧ k.xmlName = name ∧
    k.registered = true) (ensures_true.bind fun scope => ?_)
  rw [ht]
  exact ensures_true.bind fun _ => ensures_true.bind fun _ => addClass_last ⟨rfl, rfl, rfl⟩

end

/-! ## Classes of elements inside -/

/-- A class of some element inside of a type or a group. -/
def ElementClass.Inner (model : Model) (k : ElementClass) : Prop :=
  ∃ d ∈ model.allElements, k.InnerFor model d

/-- After `ks` come classes of elements inside and no others. -/
def AddsInner (model : Model) (ks ls : List ElementClass) : Prop :=
  ∃ inner, ls = ks ++ inner ∧ ∀ k ∈ inner, k.Inner model

/-- A catalog to which classes of elements inside have been added at most. -/
abbrev KeepsInner (model : Model) (ks : List ElementClass) (c : Catalog) : Prop :=
  AddsInner model ks c.classes

/-- A step that adds a class after those of elements inside. -/
def AddsLast (model : Model) (x : Build Unit) : Prop :=
  ∀ ks, Ensures (KeepsInner model ks) x
    fun _ c => ∃ ls k, c.classes = ls ++ [k] ∧ AddsInner model ks ls

section
variable {model : Model} {ks ls : List ElementClass}

theorem AddsInner.refl (ks : List ElementClass) : AddsInner model ks ks :=
  ⟨[], by simp⟩

theorem AddsInner.snoc {k : ElementClass} (h : AddsInner model ks ls) (hk : k.Inner model) :
    AddsInner model ks (ls ++ [k]) := by
  obtain ⟨inner, rfl, hinner⟩ := h
  refine ⟨inner ++ [k], by simp, ?_⟩
  simpa [or_imp, forall_and] using ⟨hinner, hk⟩

theorem keepsInner_of_classes (ks : List ElementClass) (c c' : Catalog)
    (hclasses : c'.classes = c.classes) (h : KeepsInner model ks c) : KeepsInner model ks c' := by
  rwa [KeepsInner, hclasses]

theorem frame_keepsInner : Frame (fun _ => True) (KeepsInner model ks) :=
  frame_of_classes (keepsInner_of_classes ks)

/-- The last class is built by the step, of which it is known what the classes were before. -/
theorem AddsLast.builtBy {x : Build Unit} (h : AddsLast model x) (ks : List ElementClass) :
    Ensures (KeepsInner model ks) x
      fun _ c => ∃ ls k, c.classes = ls ++ [k] ∧ AddsInner model ks ls ∧ k.BuiltBy x := by
  intro c u c' hc hrun
  obtain ⟨ls, k, hlast, hls⟩ := h ks c u c' hc hrun
  obtain ⟨ls', k', hlast', before, rfl, -⟩ := h c.classes c u c' (.refl _) hrun
  obtain rfl : k = k' := by simpa using congrArg List.getLast? (hlast.symm.trans hlast')
  exact ⟨ls, k, hlast, hls, c, c', before, hrun, by simpa using hlast'⟩

section
variable (hm : model.Keyed)
include hm

theorem buildClass_addsLast
    {members : String → List DeclaredParticle → Build (Option Membership)}
    (hmembers : MembersKeep model (KeepsInner model) members) (origin : Origin) (name : String)
    {d : ElementDeclaration} (hd : d.type.declared.Sublist model.declared) :
    AddsLast model (buildClass model members origin name d) := by
  intro ks
  have hadd (k : ElementClass) : Ensures (KeepsInner model ks) (addClass k)
      fun _ c => ∃ ls k, c.classes = ls ++ [k] ∧ AddsInner model ks ls :=
    ensures_modify fun c hc => ⟨c.classes, k, rfl, hc⟩
  rw [buildClass]
  split
  · exact hadd _
  · refine (complexTypeOf?_settles model (fun _ _ => trivial) hm name hd).ensures_bind fun r hr => ?_
    split
    · next scope t =>
      refine (derive_settles model (frame_keepsInner.serves model) hm scope (hr _ rfl)).ensures_bind
        fun draft hdraft => ?_
      exact (hmembers ks draft _ name hdraft).ensures_bind fun ms _ => hadd _
    · exact (simpleContent_settles model frame_keepsInner name d.type).ensures_bind
        fun content _ => hadd _

/-- The class of an element inside comes after those of the elements inside of it. -/
theorem keptByClasses_keepsInner : KeptByClasses model (KeepsInner model) where
  classes := keepsInner_of_classes
  build bound groups hmembers ks name d hd := by
    have helement := model.mem_allElements (hd.subset d.mem_declared)
    have hlast := buildClass_addsLast hm hmembers .localElement name (d.sublist_type.trans hd)
    refine (hlast.builtBy ks).weaken fun _ c hc => ?_
    obtain ⟨ls, k, hclasses, hls, hk⟩ := hc
    rw [KeepsInner, hclasses]
    exact hls.snoc ⟨d, helement, bound, groups, name, hk⟩

theorem membershipOf_keepsInner : MembersKeep model (KeepsInner model) (membershipOf model) :=
  (keptByClasses_keepsInner hm).keptInside.members (nestingBound model) []

theorem buildElement_addsLast {e : String × ElementDeclaration} (he : e ∈ model.elements) :
    AddsLast model (buildElement model e.1 e.2) := by
  have htype := e.2.sublist_type.trans (model.sublist_of_element he)
  exact fun ks => (referredElement_settles (fun _ _ => trivial) e.1).ensures_bind fun name _ =>
    buildClass_addsLast hm (membershipOf_keepsInner hm) .topLevel name htype ks

theorem buildComplexType_addsLast {e : String × ComplexType} (he : e ∈ model.complexTypes)
    (hconcrete : e.2.isAbstract = false) : AddsLast model (buildComplexType model e.1 e.2) := by
  intro ks
  refine (typeScope_settles (fun _ _ => trivial) e.1).ensures_bind fun scope _ => ?_
  rw [hconcrete]
  refine (derive_settles model (frame_keepsInner.serves model) hm scope
    (placed_of_complexType model hm he 0)).ensures_bind fun draft hdraft => ?_
  refine (membershipOf_keepsInner hm ks draft _ _ hdraft).ensures_bind fun ms _ => ?_
  exact ensures_modify fun c hc => ⟨c.classes, _, rfl, hc⟩

end

/-! ## The whole construction -/

section
variable {α β : Type} {R : α → β → Prop} {xs : List α} {ys : List β}

theorem exists_of_mem_left (h : List.Forall₂ R xs ys) {x : α} (hx : x ∈ xs) :
    ∃ y ∈ ys, R x y := by
  induction h with
  | nil => cases hx
  | cons hxy _ ih =>
    rcases List.mem_cons.mp hx with rfl | hx
    · exact ⟨_, List.mem_cons_self, hxy⟩
    · obtain ⟨y, hy, hR⟩ := ih hx
      exact ⟨y, List.mem_cons_of_mem _ hy, hR⟩

theorem exists_of_mem_right (h : List.Forall₂ R xs ys) {y : β} (hy : y ∈ ys) :
    ∃ x ∈ xs, R x y :=
  exists_of_mem_left h.flip hy

end

/-- Concrete types, then elements, have their classes among others of elements inside. -/
structure InTurn (model : Model) (types : List (String × ComplexType))
    (elements : List (String × ElementDeclaration)) (ks : List ElementClass) : Prop where
  types : List.Forall₂ (fun e k => k.BuiltBy (buildComplexType model e.1 e.2))
    (types.filter fun e => !e.2.isAbstract) (ks.filter (·.origin = .complexType))
  elements : List.Forall₂ (fun e k => k.BuiltBy (buildElement model e.1 e.2)) elements
    (ks.filter (·.origin = .topLevel))
  inner : ∀ k ∈ ks, k.origin = .localElement → k.Inner model

theorem ElementClass.Inner.origin {k : ElementClass} (h : k.Inner model) :
    k.origin = .localElement := by
  obtain ⟨d, -, hk⟩ := h
  exact hk.tells.origin

theorem AddsInner.filter_eq (h : AddsInner model ks ls) {origin : Origin}
    (horigin : origin ≠ .localElement) :
    ls.filter (·.origin = origin) = ks.filter (·.origin = origin) := by
  obtain ⟨inner, rfl, hinner⟩ := h
  have hnone : inner.filter (·.origin = origin) = [] := by
    rw [List.filter_eq_nil_iff]
    intro k hk
    simpa [(hinner k hk).origin] using horigin.symm
  rw [List.filter_append, hnone, List.append_nil]

section
variable {types : List (String × ComplexType)} {elements : List (String × ElementDeclaration)}

theorem InTurn.addsInner (h : InTurn model types elements ks) (hls : AddsInner model ks ls) :
    InTurn model types elements ls where
  types := by
    rw [hls.filter_eq (by decide)]
    exact h.types
  elements := by
    rw [hls.filter_eq (by decide)]
    exact h.elements
  inner k hk horigin := by
    obtain ⟨inner, rfl, hinner⟩ := hls
    rcases List.mem_append.mp hk with hk | hk
    · exact h.inner k hk horigin
    · exact hinner k hk

theorem InTurn.snocType (h : InTurn model types elements ks) {e : String × ComplexType}
    (hconcrete : e.2.isAbstract = false) {k : ElementClass}
    (hk : k.BuiltBy (buildComplexType model e.1 e.2)) :
    InTurn model (types ++ [e]) elements (ks ++ [k]) := by
  have horigin := (hk.ofType hconcrete).1
  constructor
  · simpa [List.filter_append, hconcrete, horigin] using List.rel_append h.types (.cons hk .nil)
  · simpa [List.filter_append, horigin] using h.elements
  · intro k' hk' hinner
    rcases List.mem_append.mp hk' with hk' | hk'
    · exact h.inner k' hk' hinner
    · simp [List.mem_singleton.mp hk', horigin] at hinner

theorem InTurn.snocElement (h : InTurn model types elements ks)
    {e : String × ElementDeclaration} {k : ElementClass}
    (hk : k.BuiltBy (buildElement model e.1 e.2)) :
    InTurn model types (elements ++ [e]) (ks ++ [k]) := by
  have horigin := hk.tells.origin
  constructor
  · simpa [List.filter_append, horigin] using h.types
  · simpa [List.filter_append, horigin] using List.rel_append h.elements (.cons hk .nil)
  · intro k' hk' hinner
    rcases List.mem_append.mp hk' with hk' | hk'
    · exact h.inner k' hk' hinner
    · simp [List.mem_singleton.mp hk', horigin] at hinner

end

section
variable (hm : model.Keyed)
include hm

theorem buildComplexType_inTurn {before : List (String × ComplexType)}
    {e : String × ComplexType} (he : e ∈ model.complexTypes) :
    Ensures (fun c => InTurn model before [] c.classes) (buildComplexType model e.1 e.2)
      fun _ c => InTurn model (before ++ [e]) [] c.classes := by
  intro c u c' hc hrun
  cases habstract : e.2.isAbstract with
  | false =>
    obtain ⟨ls, k, hclasses, hls, hk⟩ := (buildComplexType_addsLast hm he habstract).builtBy
      c.classes c u c' (.refl _) hrun
    rw [hclasses]
    exact (hc.addsInner hls).snocType habstract hk
  | true =>
    have hmarker : Ensures (fun d => d.classes = c.classes) (buildComplexType model e.1 e.2)
        fun _ d => d.classes = c.classes := by
      refine (typeScope_settles (fun _ _ => trivial) e.1).ensures_bind
        fun scope _ => ?_
      rw [habstract]
      exact ensures_modify fun d hd => hd
    rw [hmarker c u c' rfl hrun]
    exact ⟨by simpa [List.filter_append, habstract] using hc.types, hc.elements, hc.inner⟩

theorem buildElement_inTurn {before : List (String × ElementDeclaration)}
    {e : String × ElementDeclaration} (he : e ∈ model.elements) :
    Ensures (fun c => InTurn model model.complexTypes before c.classes)
      (buildElement model e.1 e.2)
      fun _ c => InTurn model model.complexTypes (before ++ [e]) c.classes := by
  intro c u c' hc hrun
  obtain ⟨ls, k, hclasses, hls, hk⟩ := (buildElement_addsLast hm he).builtBy
    c.classes c u c' (.refl _) hrun
  rw [hclasses]
  exact (hc.addsInner hls).snocElement hk

theorem buildAll_inTurn : Ensures (· = {}) (buildAll model)
    fun _ c => InTurn model model.complexTypes model.elements c.classes := by
  have hframe : Frame (fun _ => True) fun c => c.classes = [] :=
    frame_of_classes fun _ _ hclasses h => hclasses.trans h
  have hstart (c : Catalog) (hc : c.classes = []) : InTurn model [] [] c.classes := by
    rw [hc]
    exact ⟨.nil, .nil, by simp⟩
  refine buildAll_ensures hframe rfl ?_
  refine Ensures.bind (Q := fun _ c => InTurn model model.complexTypes [] c.classes) ?_ fun _ => ?_
  · intro c u c' hc hrun
    exact forM_ensures (P := fun before c => InTurn model before [] c.classes)
      (fun before e he => buildComplexType_inTurn hm he) c u c' (hstart c hc) hrun
  · exact forM_ensures (P := fun before c => InTurn model model.complexTypes before c.classes)
      fun before e he => buildElement_inTurn hm he

/-- The classes of a module are built in turn. -/
theorem Module.inTurn_of_ofModel {m : Module} (h : Module.ofModel model = .ok m) :
    InTurn model model.complexTypes model.elements m.classes := by
  obtain ⟨u, catalog, hrun, rfl⟩ := exists_catalog_of_ofModel h
  exact buildAll_inTurn hm {} u catalog rfl hrun

end

end

end XmlBinding.Binding
