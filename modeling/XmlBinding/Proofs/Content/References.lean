import XmlBinding.Proofs.Binding.Passing
import XmlBinding.Proofs.Binding.Turns

/-! # Which classes slots refer to

An element that is declared inside of a type gets its class from wherever the declaration is met
first. So what its slots refer to is told by the declaration, by the name of the type that states
it, and by nothing else: groups that are referred to belong to the type that refers to them.
-/
namespace XmlBinding.Binding
open Schema

/-- Whether elements that are declared somewhere have a class of that name. The declaration comes
with the name of the type that states it, if that has one. -/
abbrev ClassNames := Option String → ElementDeclaration → String → Prop

/-! ## Slots -/

section
variable (model : Model) (names : ClassNames)

mutual

/-- The slots of particles, in order, but for those that may not occur. -/
inductive SlotsRefer : Option String → List Particle → List MemberSlot → Prop
  | nil {declaredIn : Option String} : SlotsRefer declaredIn [] []
  | prohibited {declaredIn : Option String} {minimum : Nat} {t : Term} {ps : List Particle}
      {ss : List MemberSlot} (h : SlotsRefer declaredIn ps ss) :
      SlotsRefer declaredIn (⟨minimum, .count 0, t⟩ :: ps) ss
  | cons {declaredIn : Option String} {minimum : Nat} {maximum : MaxOccurs} {t : Term}
      {ps : List Particle} {s : MemberSlot} {ss : List MemberSlot}
      (hmaximum : maximum ≠ .count 0) (hs : SlotRefers declaredIn t s)
      (h : SlotsRefer declaredIn ps ss) :
      SlotsRefer declaredIn (⟨minimum, maximum, t⟩ :: ps) (s :: ss)

inductive SlotRefers : Option String → Term → MemberSlot → Prop
  | element {declaredIn : Option String} {d : ElementDeclaration} {className : String}
      {m : MaxOccurs} (h : names declaredIn d className) :
      SlotRefers declaredIn (.element d) (.element d.name className m)
  | elementRef {declaredIn : Option String} {name className : String} {m : MaxOccurs} :
      SlotRefers declaredIn (.elementRef name) (.element name className m)
  | group {declaredIn : Option String} {g : ModelGroup} {ms : Membership}
      (h : SlotsRefer declaredIn g.particles ms.slots) :
      SlotRefers declaredIn (.group g) (.group ms)
  | groupRef {declaredIn : Option String} {name : String} {g : GroupDefinition} {ms : Membership}
      (hg : model.group name = some g) (h : SlotsRefer declaredIn g.group.particles ms.slots) :
      SlotRefers declaredIn (.groupRef name) (.group ms)
  | wildcard {declaredIn : Option String} {m : MaxOccurs} :
      SlotRefers declaredIn .wildcard (.wildcard m)

end

/-- The slots of particles that come from several types. -/
abbrev DeclaredSlotsRefer : List DeclaredParticle → List MemberSlot → Prop :=
  List.Forall₂ fun p s => SlotRefers model names p.declaredIn p.particle.term s

/-- The membership for what a chain of derivations contributed. -/
inductive ContentRefers (ps : List DeclaredParticle) : Option Membership → Prop
  | none (h : ∀ p ∈ ps, p.particle.isProhibited = true) : ContentRefers ps none
  | group {minimum : Nat} {maximum : MaxOccurs} {g : ModelGroup} {declaredIn : Option String}
      {ms : Membership} (hps : ps.filter (fun p => !p.particle.isProhibited) =
        [⟨⟨minimum, maximum, .group g⟩, declaredIn⟩])
      (h : SlotsRefer model names declaredIn g.particles ms.slots) : ContentRefers ps (some ms)
  | sequence {ms : Membership}
      (h : DeclaredSlotsRefer model names (ps.filter fun p => !p.particle.isProhibited) ms.slots) :
      ContentRefers ps (some ms)

/-- The membership of a complex type. -/
def TypeRefers (t : ComplexType) (ms : Option Membership) : Prop :=
  ∃ ps, DeclaredParticles model t.name t.content ps ∧ ContentRefers model names ps ms

/-- The membership of an element: that of its type, or one in which no element is declared. -/
inductive ElementRefers : ElementType → Option Membership → Prop
  | any : ElementRefers .any (some anyMembership)
  | complex {type : ElementType} {t : ComplexType} {ms : Option Membership}
      (ht : type.complex? model = some t) (h : TypeRefers model names t ms) : ElementRefers type ms
  | text {type : ElementType} (ht : type.complex? model = none) : ElementRefers type none

end

/-- A particle that may occur gives one slot. -/
theorem SlotsRefer.singleton {model : Model} {names : ClassNames} {declaredIn : Option String}
    {p : Particle} {ss : List MemberSlot} (h : SlotsRefer model names declaredIn [p] ss)
    (hmaximum : p.maximum ≠ .count 0) :
    ∃ s, ss = [s] ∧ SlotRefers model names declaredIn p.term s := by
  cases h with
  | prohibited _ => exact absurd rfl hmaximum
  | cons _ hs h =>
    cases h
    exact ⟨_, rfl, hs⟩

theorem SlotsRefer.exists_slot {model : Model} {names : ClassNames} {declaredIn : Option String}
    {ps : List Particle} {ss : List MemberSlot} (h : SlotsRefer model names declaredIn ps ss)
    {p : Particle} (hp : p ∈ ps) (hmaximum : p.maximum ≠ .count 0) :
    ∃ s ∈ ss, SlotRefers model names declaredIn p.term s := by
  induction ps generalizing ss with
  | nil => cases hp
  | cons q ps ih =>
    cases h with
    | prohibited h =>
      rcases List.mem_cons.mp hp with rfl | hp
      · exact absurd rfl hmaximum
      · exact ih h hp
    | cons _ hs h =>
      rcases List.mem_cons.mp hp with rfl | hp
      · exact ⟨_, List.mem_cons_self, hs⟩
      · obtain ⟨s, hmem, hs⟩ := ih h hp
        exact ⟨s, List.mem_cons_of_mem _ hmem, hs⟩

/-- An element that a term leads to by groups alone has a class. -/
theorem SlotRefers.exists_name {model : Model} {names : ClassNames} {declaredIn : Option String}
    {t : Term} {s : MemberSlot} {d : ElementDeclaration}
    (hheld : Relation.ReflTransGen (Term.Holds model) t (.element d))
    (h : SlotRefers model names declaredIn t s) : ∃ className, names declaredIn d className := by
  induction hheld using Relation.ReflTransGen.head_induction_on generalizing s with
  | refl =>
    cases h with
    | element h => exact ⟨_, h⟩
  | head hholds _ ih =>
    cases hholds with
    | particle hp hmaximum =>
      cases h with
      | group hslots =>
        obtain ⟨s, -, hs⟩ := hslots.exists_slot hp hmaximum
        exact ih hs
    | reference hg =>
      cases h with
      | groupRef hg' hslots =>
        obtain rfl := Option.some.inj (hg.symm.trans hg')
        exact ih (s := .group _) (.group hslots)

/-- So has one that the content of a type leads to. -/
theorem TypeRefers.exists_name {model : Model} {names : ClassNames} {type : ComplexType}
    {ms : Option Membership} (h : TypeRefers model names type ms) {declaredIn : Option String}
    {t : Term} (ht : type.Contains model declaredIn t) {d : ElementDeclaration}
    (hheld : Relation.ReflTransGen (Term.Holds model) t (.element d)) :
    ∃ className, names declaredIn d className := by
  obtain ⟨ps, hps, h⟩ := h
  cases ht with
  | @particle ps' p hps' hp hmaximum =>
    obtain rfl := hps.unique hps'
    have hfilter := mem_filter_isProhibited.mpr ⟨hp, hmaximum⟩
    cases h with
    | none h => exact absurd (h p hp) (by simpa [Particle.isProhibited] using hmaximum)
    | group hgroup h =>
      rw [hgroup] at hfilter
      obtain rfl := List.mem_singleton.mp hfilter
      exact SlotRefers.exists_name (s := .group _) hheld (.group h)
    | sequence h =>
      obtain ⟨s, -, hs⟩ := exists_of_mem_left h hfilter
      exact hs.exists_name hheld

/-! ## Other names -/

/-- Elements among the terms with `Q` keep their names, and groups pass `Q` on to what they hold. -/
structure NamesKept (model : Model) (Q : Option String → Term → Prop) (names names' : ClassNames) :
    Prop where
  down : ∀ declaredIn t t', Q declaredIn t → t.Holds model t' → Q declaredIn t'
  names : ∀ declaredIn d className, Q declaredIn (.element d) →
    names declaredIn d className → names' declaredIn d className

section
variable {model : Model} {Q : Option String → Term → Prop} {names names' : ClassNames}

theorem namesKept_of_le (h : names ≤ names') : NamesKept model (fun _ _ => True) names names' :=
  ⟨fun _ _ _ _ _ => trivial, fun declaredIn d className _ => h declaredIn d className⟩

theorem namesKept_of_reached (h : ∀ declaredIn d className, model.Reached declaredIn (.element d) →
    names declaredIn d className → names' declaredIn d className) :
    NamesKept model model.Reached names names' :=
  ⟨fun _ _ _ => .holds, h⟩

theorem NamesKept.particles (hkept : NamesKept model Q names names') {declaredIn : Option String}
    {g : ModelGroup} (h : Q declaredIn (.group g)) :
    ∀ p ∈ g.particles, p.maximum ≠ .count 0 → Q declaredIn p.term :=
  fun _ hp hmaximum => hkept.down declaredIn _ _ h (.particle hp hmaximum)

mutual

theorem SlotsRefer.mono (hkept : NamesKept model Q names names') {declaredIn : Option String}
    {ps : List Particle} {ss : List MemberSlot}
    (hps : ∀ p ∈ ps, p.maximum ≠ .count 0 → Q declaredIn p.term) :
    SlotsRefer model names declaredIn ps ss → SlotsRefer model names' declaredIn ps ss
  | .nil => .nil
  | .prohibited h => .prohibited (h.mono hkept (List.forall_mem_cons.mp hps).2)
  | .cons hmaximum hs h => by
    obtain ⟨hp, hps⟩ := List.forall_mem_cons.mp hps
    exact .cons hmaximum (hs.mono hkept (hp hmaximum)) (h.mono hkept hps)

theorem SlotRefers.mono (hkept : NamesKept model Q names names') {declaredIn : Option String}
    {t : Term} {s : MemberSlot} (ht : Q declaredIn t) :
    SlotRefers model names declaredIn t s → SlotRefers model names' declaredIn t s
  | .element h => .element (hkept.names _ _ _ ht h)
  | .elementRef => .elementRef
  | .group h => .group (h.mono hkept (hkept.particles ht))
  | .groupRef hg h =>
    .groupRef hg (h.mono hkept (hkept.particles (hkept.down _ _ _ ht (.reference hg))))
  | .wildcard => .wildcard

end

theorem ContentRefers.mono (hkept : NamesKept model Q names names') {ps : List DeclaredParticle}
    {ms : Option Membership}
    (hps : ∀ p ∈ ps, p.particle.maximum ≠ .count 0 → Q p.declaredIn p.particle.term)
    (h : ContentRefers model names ps ms) : ContentRefers model names' ps ms := by
  have hfilter : ∀ p ∈ ps.filter fun p => !p.particle.isProhibited,
      Q p.declaredIn p.particle.term := by
    intro p hp
    obtain ⟨hp, hmaximum⟩ := mem_filter_isProhibited.mp hp
    exact hps p hp hmaximum
  cases h with
  | none h => exact .none h
  | group hgroup h =>
    rw [hgroup] at hfilter
    exact .group hgroup (h.mono hkept (hkept.particles (hfilter _ List.mem_cons_self)))
  | sequence h =>
    apply ContentRefers.sequence
    exact ((List.forall₂_and_left _ _).mpr ⟨hfilter, h⟩).imp fun _ _ hs => hs.2.mono hkept hs.1

theorem TypeRefers.mono (hkept : NamesKept model Q names names') {type : ComplexType}
    {ms : Option Membership}
    (hcontains : ∀ declaredIn t, type.Contains model declaredIn t → Q declaredIn t)
    (h : TypeRefers model names type ms) : TypeRefers model names' type ms := by
  obtain ⟨ps, hps, h⟩ := h
  exact ⟨ps, hps, h.mono hkept fun p hp hmaximum => hcontains _ _ (.particle hps hp hmaximum)⟩

theorem ElementRefers.mono (hkept : NamesKept model Q names names') {type : ElementType}
    {ms : Option Membership}
    (hcontains : ∀ t, type.complex? model = some t →
      ∀ declaredIn t', t.Contains model declaredIn t' → Q declaredIn t')
    (h : ElementRefers model names type ms) : ElementRefers model names' type ms := by
  cases h with
  | any => exact .any
  | complex ht h => exact .complex ht (h.mono hkept (hcontains _ ht))
  | text ht => exact .text ht

end

/-! ## Classes and modules -/

/-- The class of an element inside, with what it is built for. -/
structure InnerClass where
  declaredIn : Option String
  element : ElementDeclaration
  built : ElementClass

section
variable (model : Model) (names : ClassNames)

/-- The class is built for the element, which the schema leads to. -/
structure InnerClass.Holds (i : InnerClass) : Prop where
  reached : model.Reached i.declaredIn (.element i.element)
  built : i.built.InnerFor model i.element
  membership : ElementRefers model names i.element.type i.built.membership

/-- The class of a top-level component. -/
inductive ElementClass.Outer (k : ElementClass) : Prop
  | complexType {e : String × ComplexType} (he : e ∈ model.complexTypes)
      (hconcrete : e.2.isAbstract = false) (horigin : k.origin = .complexType)
      (hname : k.xmlName = e.1) (h : TypeRefers model names e.2 k.membership)
  | topLevel {e : String × ElementDeclaration} (he : e ∈ model.elements)
      (htells : k.Tells .topLevel e.2) (h : ElementRefers model names e.2.type k.membership)

end

section
variable {model : Model} {names names' : ClassNames}
  (hnames : ∀ declaredIn d className, model.Reached declaredIn (.element d) →
    names declaredIn d className → names' declaredIn d className)
include hnames

theorem InnerClass.Holds.mono {i : InnerClass} (h : i.Holds model names) : i.Holds model names' :=
  ⟨h.reached, h.built, h.membership.mono (namesKept_of_reached hnames) fun _ ht _ _ ht' =>
    .content h.reached ht ht'⟩

theorem ElementClass.Outer.mono {k : ElementClass} (h : k.Outer model names) :
    k.Outer model names' := by
  have hkept := namesKept_of_reached hnames
  cases h with
  | complexType he hconcrete horigin hname h =>
    apply Outer.complexType he hconcrete horigin hname
    exact h.mono hkept fun _ _ ht => .root (.complexType he hconcrete) ht
  | topLevel he htells h =>
    apply Outer.topLevel he htells
    exact h.mono hkept fun _ ht _ _ ht' => .root (.element he ht) ht'

end

section
variable {κ : Type} (place? : Option String → ElementDeclaration → Option κ)

/-- An element refers to the class at its place, if it has a place. -/
def namesAt (inner : List InnerClass) : ClassNames := fun declaredIn d className =>
  ∀ place, place? declaredIn d = some place →
    ∃ i ∈ inner, place? i.declaredIn i.element = some place ∧ i.built.name = className

/-- Elements inside that have one place share a class. -/
structure Module.SharesAt (model : Model) (inner : List InnerClass) (m : Module) : Prop where
  /-- The classes of elements inside are these, -/
  classes : m.classes.filter (·.origin = .localElement) = inner.map (·.built)
  /-- and no class is named like another one. -/
  names : (m.classes.map (·.name)).Nodup
  /-- There is one at a place at most. -/
  once : (inner.filterMap fun i => place? i.declaredIn i.element).Nodup
  /-- In the membership of each of them and of all other classes, the slots of an element that has a
  place refer to the class there. -/
  holds : ∀ i ∈ inner, i.Holds model (namesAt place? inner)
  outer : ∀ k ∈ m.classes, k.origin ≠ .localElement → k.Outer model (namesAt place? inner)

/-- Places may be told by some of what there is to them, if that tells apart those of elements that
are reached. -/
theorem Module.SharesAt.of_map {κ' : Type} {f : κ → κ'}
    {place? : Option String → ElementDeclaration → Option κ} {model : Model}
    {inner : List InnerClass} {m : Module}
    (h : m.SharesAt (fun declaredIn d => (place? declaredIn d).map f) model inner)
    (hf : ∀ declaredIn d declaredIn' d' p p', model.Reached declaredIn (.element d) →
      model.Reached declaredIn' (.element d') → place? declaredIn d = some p →
      place? declaredIn' d' = some p' → f p = f p' → p = p') : m.SharesAt place? model inner := by
  have hnames : ∀ declaredIn d className, model.Reached declaredIn (.element d) →
      namesAt (fun declaredIn d => (place? declaredIn d).map f) inner declaredIn d className →
      namesAt place? inner declaredIn d className := by
    intro declaredIn d className hreached hat p hp
    obtain ⟨i, hi, hplace, hname⟩ := hat (f p) (Option.map_eq_some_iff.mpr ⟨p, hp, rfl⟩)
    obtain ⟨p', hp', heq⟩ := Option.map_eq_some_iff.mp hplace
    have hsame := hf _ _ _ _ p' p (h.holds i hi).reached hreached hp' hp heq
    exact ⟨i, hi, hsame ▸ hp', hname⟩
  constructor
  · exact h.classes
  · exact h.names
  · apply List.Nodup.of_map f
    rw [List.map_filterMap]
    exact h.once
  · exact fun i hi => (h.holds i hi).mono hnames
  · exact fun k hk horigin => (h.outer k hk horigin).mono hnames

end

end XmlBinding.Binding
