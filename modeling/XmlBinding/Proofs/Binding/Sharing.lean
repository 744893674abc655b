import XmlBinding.Proofs.Binding.Closure
import XmlBinding.Proofs.Content.References

/-! # Classes of elements inside are shared

An element inside is remembered at its place before its class is built, so whatever meets an element
of that place later on, be it inside of the class itself, refers to that class. When a class is
there no place of it is pending, and in the end none is.
-/
namespace XmlBinding.Binding
open Schema

/-! ## What a catalog shares -/

/-- Elements that have a place are remembered with the names of their classes. -/
def Catalog.classNames (c : Catalog) : ClassNames := fun declaredIn d className =>
  (place? declaredIn d).isSome → rememberedElement c declaredIn d = some className

theorem Catalog.classNames_congr {c c' : Catalog} (ht : c'.typedElements = c.typedElements)
    (hi : c'.inlineElements = c.inlineElements) : c'.classNames = c.classNames := by
  funext declaredIn d className
  unfold classNames
  rw [rememberedElement_congr ht hi]

theorem Catalog.ExtendedBy.classNames_le {c c' : Catalog} (h : c.ExtendedBy c') :
    c.classNames ≤ c'.classNames :=
  fun _ _ _ hc hplace => h _ _ _ (hc hplace)

/-- The classes in a catalog refer to each other by place, and the class at a place is there unless
the place is pending. -/
structure Shared (model : Model) (pending : List Place) (inner : List InnerClass) (c : Catalog) :
    Prop where
  classes : c.classes.filter (·.origin = .localElement) = inner.map (·.built)
  holds : ∀ i ∈ inner, i.Holds model c.classNames
  named : ∀ i ∈ inner, c.classNames i.declaredIn i.element i.built.name
  outer : ∀ k ∈ c.classes, k.origin ≠ .localElement → k.Outer model c.classNames
  settled : ∀ place className, c.at? place = some className → place ∉ pending →
    ∃ i ∈ inner, place? i.declaredIn i.element = some place ∧ i.built.name = className

section
variable {model : Model} {pending : List Place} {inner : List InnerClass} {c c' : Catalog}

theorem Shared.congr (h : Shared model pending inner c) (ht : c'.typedElements = c.typedElements)
    (hi : c'.inlineElements = c.inlineElements) (hk : c'.classes = c.classes) :
    Shared model pending inner c' := by
  have hnames := Catalog.classNames_congr ht hi
  constructor
  · rw [hk]
    exact h.classes
  · rw [hnames]
    exact h.holds
  · rw [hnames]
    exact h.named
  · rw [hnames, hk]
    exact h.outer
  · intro place className hplace
    apply h.settled
    cases place <;> simpa [Catalog.at?, ht, hi] using hplace

theorem Shared.note (h : Shared model pending inner c) {place : Place} (hfree : c.at? place = none)
    (className : String) : Shared model (place :: pending) inner (c.note className place) := by
  have hnames := (extendedBy_note hfree className).classNames_le
  have hclasses : (c.note className place).classes = c.classes := by cases place <;> rfl
  constructor
  · rw [hclasses]
    exact h.classes
  · exact fun i hi => (h.holds i hi).mono fun _ _ _ _ => hnames _ _ _
  · exact fun i hi => hnames _ _ _ (h.named i hi)
  · rw [hclasses]
    exact fun k hk horigin => (h.outer k hk horigin).mono fun _ _ _ _ => hnames _ _ _
  · intro place' className' hplace hnot
    obtain ⟨hne, hnot⟩ := not_or.mp (List.mem_cons.not.mp hnot)
    rw [Catalog.at?_note, if_neg (Ne.symm hne)] at hplace
    exact h.settled place' className' hplace hnot

/-- A class of an element inside settles the place of the element. -/
theorem Shared.addInner {i : InnerClass}
    (h : Shared model ((place? i.declaredIn i.element).toList ++ pending) inner c)
    (horigin : i.built.origin = .localElement) (hi : i.Holds model c.classNames)
    (hname : c.classNames i.declaredIn i.element i.built.name) :
    Shared model pending (inner ++ [i]) { c with classes := c.classes ++ [i.built] } := by
  constructor
  · simp [List.filter_append, h.classes, horigin]
  · exact List.forall_mem_append.mpr ⟨h.holds, List.forall_mem_singleton.mpr hi⟩
  · exact List.forall_mem_append.mpr ⟨h.named, List.forall_mem_singleton.mpr hname⟩
  · intro k hk houter
    rcases List.mem_append.mp hk with hk | hk
    · exact h.outer k hk houter
    · exact absurd (List.mem_singleton.mp hk ▸ horigin) houter
  · intro place className hplace hnot
    change c.at? place = some className at hplace
    by_cases hown : place? i.declaredIn i.element = some place
    · have hknown := hname (Option.isSome_of_mem hown)
      rw [rememberedElement_eq, hown, Option.bind_some, hplace] at hknown
      exact ⟨i, List.mem_append_right _ List.mem_cons_self, hown, (Option.some.inj hknown).symm⟩
    · obtain ⟨j, hj, hat⟩ := h.settled place className hplace (by simp [hown, hnot])
      exact ⟨j, List.mem_append_left _ hj, hat⟩

theorem Shared.addOuter {k : ElementClass} (h : Shared model pending inner c)
    (horigin : k.origin ≠ .localElement) (hk : k.Outer model c.classNames) :
    Shared model pending inner { c with classes := c.classes ++ [k] } := by
  constructor
  · simp [List.filter_append, h.classes, horigin]
  · exact h.holds
  · exact h.named
  · intro k' hk' houter
    rcases List.mem_append.mp hk' with hk' | hk'
    · exact h.outer k' hk' houter
    · exact List.mem_singleton.mp hk' ▸ hk
  · exact h.settled

end

/-! ## Steps -/

/-- What comes after a catalog: classes are shared, and no element is forgotten. -/
structure SharedFrom (model : Model) (pending : List Place) (c c' : Catalog) : Prop where
  shared : ∃ inner, Shared model pending inner c'
  extended : c.ExtendedBy c'

/-- A step that goes on sharing, and after which `D` holds. -/
def Shares {α : Type} (model : Model) (pending : List Place) (x : Build α)
    (D : α → Catalog → Prop) : Prop :=
  ∀ c : Catalog, Ensures (SharedFrom model pending c) x fun a c' =>
    SharedFrom model pending c c' ∧ D a c'

section
variable {α β : Type} {model : Model} {pending : List Place} {x : Build α} {R : α → Prop}
  {D : α → Catalog → Prop} {D' : β → Catalog → Prop}

theorem frame_sharedFrom (model : Model) (pending : List Place) (c : Catalog) :
    Frame (fun _ => True) (SharedFrom model pending c) := by
  refine ⟨fun _ _ => trivial, fun c₁ c₂ ht hi hk h => ?_⟩
  obtain ⟨inner, hshared⟩ := h.shared
  refine ⟨⟨inner, hshared.congr ht hi hk⟩, h.extended.trans fun declaredIn d _ hd => ?_⟩
  exact (rememberedElement_congr ht hi declaredIn d).trans hd

theorem shares_of_settles
    (h : ∀ c, Settles (fun _ => True) (SharedFrom model pending c) x R) :
    Shares model pending x fun a _ => R a :=
  fun c => (h c).ensures

theorem shares_pure {a : α} (h : ∀ c, D a c) : Shares model pending (pure a : Build α) D :=
  fun _ => ensures_pure fun c hc => ⟨hc, h c⟩

theorem shares_fail {e : BindingError} : Shares model pending (fail e : Build α) D :=
  fun _ => ensures_fail

theorem Shares.weaken {D' : α → Catalog → Prop} (h : Shares model pending x D)
    (hd : ∀ a c, D a c → D' a c) : Shares model pending x D' :=
  fun c => (h c).weaken fun a c' h => ⟨h.1, hd a c' h.2⟩

theorem Shares.map {f : α → β} (hx : Shares model pending x D)
    (h : ∀ a c, D a c → D' (f a) c) : Shares model pending (x >>= fun a => pure (f a)) D' :=
  fun c => (hx c).bind fun a => ensures_pure fun c' hc => ⟨hc.1, h a c' hc.2⟩

/-- What holds after a step holds after the next one, if it does not get lost. -/
theorem Shares.bind {f : α → Build β} (hx : Shares model pending x D) (hD : ∀ a, Stable (D a))
    (hf : ∀ a, Shares model pending (f a) fun b c => D a c → D' b c) :
    Shares model pending (x >>= f) D' := by
  refine fun c => (hx c).bind fun a c₁ b c₂ h hb => ?_
  obtain ⟨h₁, ha⟩ := h
  obtain ⟨h₂, hnext⟩ := hf a c₁ c₁ b c₂ ⟨h₁.shared, .refl c₁⟩ hb
  exact ⟨⟨h₂.shared, h₁.extended.trans h₂.extended⟩, hnext (hD a h₂.extended ha)⟩

end

/-! ## Groups and contents -/

section
variable {model : Model} {pending : List Place} {declaredIn : Option String}

theorem stable_slotRefers (t : Term) (s : MemberSlot) :
    Stable fun c => SlotRefers model c.classNames declaredIn t s :=
  fun _ _ hext h => h.mono (namesKept_of_le hext.classNames_le) trivial

theorem stable_slotsRefer (ps : List Particle) (ss : List MemberSlot) :
    Stable fun c => SlotsRefer model c.classNames declaredIn ps ss :=
  fun _ _ hext h => h.mono (namesKept_of_le hext.classNames_le) fun _ _ _ => trivial

section
variable {Q : Term → Prop} {element : ElementDeclaration → Build String}
  {group : String → Nat → MaxOccurs → Build Membership}

/-- Elements declared there get the classes of their places. -/
def ElementsShare (model : Model) (pending : List Place) (declaredIn : Option String)
    (Q : Term → Prop) (element : ElementDeclaration → Build String) : Prop :=
  ∀ d, Q (.element d) → Shares model pending (element d) fun className c =>
    c.classNames declaredIn d className

/-- Groups referred to there have slots that refer to them. -/
def GroupsShare (model : Model) (pending : List Place) (declaredIn : Option String)
    (Q : Term → Prop) (group : String → Nat → MaxOccurs → Build Membership) : Prop :=
  ∀ name minimum m, Q (.groupRef name) → Shares model pending (group name minimum m) fun ms c =>
    ∃ g, model.group name = some g ∧
      SlotsRefer model c.classNames declaredIn g.group.particles ms.slots

mutual

theorem buildGroup_shares (hQ : PassesDown Q)
    (he : ElementsShare model pending declaredIn Q element)
    (hg : GroupsShare model pending declaredIn Q group) (minimum : Nat) (m : MaxOccurs) :
    ∀ g : ModelGroup, Q (.group g) →
      Shares model pending (buildGroup element group minimum m g) fun ms c =>
        SlotsRefer model c.classNames declaredIn g.particles ms.slots
  | ⟨compositor, particles⟩, h => by
    rw [buildGroup]
    exact (buildSlots_shares hQ he hg m particles fun p hp hmaximum =>
      hQ _ p h hp hmaximum).map fun _ _ hslots => hslots

theorem buildSlots_shares (hQ : PassesDown Q)
    (he : ElementsShare model pending declaredIn Q element)
    (hg : GroupsShare model pending declaredIn Q group) (outer : MaxOccurs) :
    ∀ ps : List Particle, (∀ p ∈ ps, p.maximum ≠ .count 0 → Q p.term) →
      Shares model pending (buildSlots element group outer ps) fun ss c =>
        SlotsRefer model c.classNames declaredIn ps ss
  | [], _ => by
    rw [buildSlots]
    exact shares_pure fun _ => .nil
  | ⟨minimum, maximum, term⟩ :: ps, h => by
    obtain ⟨hterm, hps⟩ := List.forall_mem_cons.mp h
    rw [buildSlots]
    split
    · next hzero =>
      subst hzero
      exact (buildSlots_shares hQ he hg outer ps hps).weaken fun _ _ hslots => .prohibited hslots
    · next hmaximum =>
      apply (buildSlot_shares hQ he hg minimum (maximum.mul outer) term (hterm hmaximum)).bind
        (stable_slotRefers term)
      intro s
      exact (buildSlots_shares hQ he hg outer ps hps).map fun _ _ hslots hslot =>
        .cons hmaximum hslot hslots

theorem buildSlot_shares (hQ : PassesDown Q)
    (he : ElementsShare model pending declaredIn Q element)
    (hg : GroupsShare model pending declaredIn Q group) (minimum : Nat) (m : MaxOccurs) :
    ∀ t : Term, Q t → Shares model pending (buildSlot element group minimum m t) fun s c =>
      SlotRefers model c.classNames declaredIn t s
  | .element d, h => by
    rw [buildSlot]
    exact (he d h).map fun _ _ hname => .element hname
  | .elementRef name, _ => by
    rw [buildSlot]
    have hreferred : Shares model pending (referredElement name) fun _ _ => True := by
      apply shares_of_settles
      exact fun c => referredElement_settles (frame_sharedFrom model pending c).plain name
    exact hreferred.map fun _ _ _ => .elementRef
  | .group g, h => by
    rw [buildSlot]
    exact (buildGroup_shares hQ he hg minimum m g h).map fun _ _ hslots => .group hslots
  | .groupRef name, h => by
    rw [buildSlot]
    refine (hg name minimum m h).map fun _ _ hreferred => ?_
    obtain ⟨_, hgroup, hslots⟩ := hreferred
    exact .groupRef hgroup hslots
  | .wildcard, _ => by
    rw [buildSlot]
    exact shares_pure fun _ => .wildcard

end

end

section
variable {Q : Option String → Term → Prop}
  {element : Option String → String → ElementDeclaration → Build String}
  {group : Option String → String → String → Nat → MaxOccurs → Build Membership}

theorem declaredSlots_shares (hQ : ∀ declaredIn, PassesDown (Q declaredIn))
    (he : ∀ declaredIn owner,
      ElementsShare model pending declaredIn (Q declaredIn) (element declaredIn owner))
    (hg : ∀ declaredIn owner,
      GroupsShare model pending declaredIn (Q declaredIn) (group declaredIn owner))
    (owner : String) {ps : List DeclaredParticle}
    (hps : ∀ p ∈ ps, p.particle.maximum ≠ .count 0 ∧ Q p.declaredIn p.particle.term) :
    Shares model pending (declaredSlots element group owner ps) fun ss c =>
      DeclaredSlotsRefer model c.classNames ps ss := by
  induction ps with
  | nil => exact shares_pure fun _ => .nil
  | cons p ps ih =>
    obtain ⟨⟨hmaximum, hterm⟩, hps⟩ := List.forall_mem_cons.mp hps
    rw [declaredSlots]
    apply (buildSlots_shares (hQ p.declaredIn) (he p.declaredIn owner) (hg p.declaredIn owner) .one
      [p.particle] (by simpa using fun _ => hterm)).bind (stable_slotsRefer [p.particle])
    intro ss
    refine (ih hps).map fun _ c hslots hslot => ?_
    obtain ⟨s, rfl, hs⟩ := hslot.singleton hmaximum
    exact .cons hs hslots

theorem buildMembership_shares (hQ : ∀ declaredIn, PassesDown (Q declaredIn))
    (he : ∀ declaredIn owner,
      ElementsShare model pending declaredIn (Q declaredIn) (element declaredIn owner))
    (hg : ∀ declaredIn owner,
      GroupsShare model pending declaredIn (Q declaredIn) (group declaredIn owner))
    (owner : String) {ps : List DeclaredParticle}
    (hps : ∀ p ∈ ps, p.particle.maximum ≠ .count 0 → Q p.declaredIn p.particle.term) :
    Shares model pending (buildMembership element group owner ps) fun ms c =>
      ContentRefers model c.classNames ps ms := by
  have hfilter : ∀ p ∈ ps.filter fun p => !p.particle.isProhibited,
      p.particle.maximum ≠ .count 0 ∧ Q p.declaredIn p.particle.term := by
    intro p hp
    obtain ⟨hp, hmaximum⟩ := mem_filter_isProhibited.mp hp
    exact ⟨hmaximum, hps p hp hmaximum⟩
  rw [buildMembership]
  split
  · next hnone =>
    refine shares_pure fun _ => .none fun p hp => ?_
    simpa using List.filter_eq_nil_iff.mp hnone p hp
  · next minimum maximum g declaredIn hgroup =>
    rw [hgroup] at hfilter
    have hterm := (hfilter _ List.mem_cons_self).2
    exact (buildGroup_shares (hQ declaredIn) (he declaredIn owner) (hg declaredIn owner) minimum
      maximum g hterm).map fun _ _ hslots => .group hgroup hslots
  · exact (declaredSlots_shares hQ he hg owner hfilter).map fun _ _ hslots => .sequence hslots

end

end

/-! ## Classes -/

/-- A catalog to which the class of an element has been added last. -/
def EndsWithClass (model : Model) (pending : List Place) (c : Catalog) (origin : Origin)
    (name : String) (d : ElementDeclaration) (c' : Catalog) : Prop :=
  ∃ before k, SharedFrom model pending c before ∧
    c' = { before with classes := before.classes ++ [k] } ∧ k.name = name ∧ k.Tells origin d ∧
    ElementRefers model before.classNames d.type k.membership

section
variable {model : Model}

theorem rememberElement_sharedFrom {pending : List Place} {c : Catalog}
    (declaredIn : Option String) (d : ElementDeclaration) (className : String) :
    Ensures (fun c' => SharedFrom model pending c c' ∧ rememberedElement c' declaredIn d = none)
      (rememberElement declaredIn d className) fun _ c' =>
        SharedFrom model ((place? declaredIn d).toList ++ pending) c c' ∧
          c'.classNames declaredIn d className := by
  rw [rememberElement_eq]
  cases hplace : place? declaredIn d with
  | none =>
    refine ensures_pure fun c' h => ⟨h.1, fun hsome => ?_⟩
    rw [hplace] at hsome
    cases hsome
  | some place =>
    refine ensures_modify fun c' hc' => ?_
    obtain ⟨h, hnew⟩ := hc'
    rw [rememberedElement_eq, hplace, Option.bind_some] at hnew
    obtain ⟨inner, hshared⟩ := h.shared
    refine ⟨⟨⟨inner, hshared.note hnew className⟩, ?_⟩, fun _ => ?_⟩
    · exact h.extended.trans (extendedBy_note hnew className)
    · rw [rememberedElement_eq, hplace, Option.bind_some, Catalog.at?_note, if_pos rfl]

section
variable (hm : model.Keyed)
include hm

theorem buildClass_shares {pending : List Place} {d : ElementDeclaration}
    (hd : d.type.declared.Sublist model.declared)
    {members : String → List DeclaredParticle → Build (Option Membership)}
    (hmembers : ∀ owner type (draft : Draft), d.type.complex? model = some type →
      draft.Placed model d.type.declared.length →
      DeclaredParticles model type.name type.content draft.particles →
      Shares model pending (members owner draft.particles) fun ms c =>
        TypeRefers model c.classNames type ms)
    (origin : Origin) (name : String) (c : Catalog) :
    Ensures (SharedFrom model pending c) (buildClass model members origin name d)
      fun _ => EndsWithClass model pending c origin name d := by
  have hframe := frame_sharedFrom model pending c
  rw [buildClass]
  split
  · next hany =>
    refine ensures_modify fun before h => ⟨before, _, h, rfl, rfl, ⟨rfl, rfl, rfl⟩, ?_⟩
    rw [hany]
    exact .any
  · refine ((complexTypeOf?_settles model hframe.plain hm name hd).and_result
      (complexTypeOf?_complex? name d.type)).ensures_bind fun r hr => ?_
    split
    · next scope type =>
      obtain ⟨hr, hcomplex⟩ := hr
      refine ((derive_settles model (hframe.serves model) hm scope (hr _ rfl)).and_result
        (derive_declaredParticles scope type)).ensures_bind fun draft hderived => ?_
      obtain ⟨hdraft, hps⟩ := hderived
      refine (hmembers name type draft hcomplex hdraft hps c).bind fun ms => ?_
      refine ensures_modify fun before hbefore => ?_
      obtain ⟨h, hrefers⟩ := hbefore
      exact ⟨before, _, h, rfl, rfl, ⟨rfl, rfl, rfl⟩, .complex hcomplex hrefers⟩
    · refine (simpleContent_settles model hframe name d.type).ensures_bind fun content _ => ?_
      exact ensures_modify fun before h => ⟨before, _, h, rfl, rfl, ⟨rfl, rfl, rfl⟩, .text hr.2⟩

/-- What a class is built for is told by the run that builds it. -/
theorem innerFor_of_run {bound : Nat} {groups : List String} {name : String}
    {d : ElementDeclaration} (hd : d.type.declared.Sublist model.declared) {c c' before : Catalog}
    {u : Unit} {k : ElementClass} (hrun : (buildClass model (membersWithin model bound groups)
      .localElement name d).run c = .ok (u, c'))
    (hk : c'.classes = before.classes ++ [k]) : k.InnerFor model d := by
  have hmembers := (keptByClasses_keepsInner hm).keptInside.members bound groups
  obtain ⟨ls, k', hclasses, -, hbuilt⟩ := (buildClass_addsLast hm hmembers .localElement name
    hd).builtBy c.classes c u c' (.refl _) hrun
  obtain rfl : k' = k := by simpa using congrArg List.getLast? (hclasses.symm.trans hk)
  exact ⟨bound, groups, name, hbuilt⟩

/-- Within a bound on how deep they are nested, elements and groups share classes. -/
structure SharesWithin (model : Model) (bound : Nat) : Prop where
  element : ∀ pending k groups declaredIn owner,
    ElementsShare model pending declaredIn (Traced model k [] declaredIn)
      (localElementWithin model bound groups declaredIn owner)
  group : ∀ pending k groups declaredIn owner,
    GroupsShare model pending declaredIn (Traced model k [] declaredIn)
      (referredGroupWithin model bound groups declaredIn owner)

omit hm in
theorem SharesWithin.referredGroup {bound : Nat} (h : SharesWithin model bound)
    (pending : List Place) (k : Nat) (groups : List String) (declaredIn : Option String)
    (owner : String) :
    GroupsShare model pending declaredIn (Traced model k [] declaredIn)
      (referredGroupWithin model (bound + 1) groups declaredIn owner) := by
  intro name minimum m htraced
  rw [referredGroupWithin]
  split
  · exact shares_fail
  · next g hg =>
    split
    · exact shares_fail
    · have hgroup := htraced.enter hg
      apply (buildGroup_shares (passesDown_traced model g.group.declared.length [] declaredIn)
        (h.element pending _ _ declaredIn owner) (h.group pending _ _ declaredIn owner) minimum m
        g.group ⟨hgroup.placed, hgroup.reached, by simp⟩).weaken
      exact fun _ _ hslots => ⟨g, hg, hslots⟩

omit hm in
theorem SharesWithin.members {bound : Nat} (h : SharesWithin model bound) (pending : List Place)
    {k : Nat} (groups : List String) {type : ComplexType} {draft : Draft}
    (hdraft : draft.Placed model k)
    (hps : DeclaredParticles model type.name type.content draft.particles)
    (hreached : ∀ declaredIn t, type.Contains model declaredIn t → model.Reached declaredIn t)
    (owner : String) :
    Shares model pending (membersWithin model bound groups owner draft.particles) fun ms c =>
      TypeRefers model c.classNames type ms := by
  apply (buildMembership_shares (passesDown_traced model k []) (h.element pending k groups)
    (h.group pending k groups) owner fun p hp hmaximum => ?_).weaken
  · exact fun _ _ hrefers => ⟨_, hps, hrefers⟩
  · exact ⟨hdraft p hp, hreached _ _ (.particle hps hp hmaximum), by simp⟩

/-- The class of an element that is remembered is built, and then the place of the element is
pending no more. -/
theorem SharesWithin.newClass {bound : Nat} (h : SharesWithin model bound) (pending : List Place)
    (groups : List String) {declaredIn : Option String} {d : ElementDeclaration}
    (hd : d.type.declared.Sublist model.declared) (hreached : model.Reached declaredIn (.element d))
    (className : String) (c : Catalog) :
    Ensures (fun c' => SharedFrom model ((place? declaredIn d).toList ++ pending) c c' ∧
        c'.classNames declaredIn d className)
      (buildClass model (membersWithin model bound groups) .localElement className d)
      fun _ c' => SharedFrom model pending c c' ∧ c'.classNames declaredIn d className := by
  intro c₁ u c₂ ⟨h₁, hname⟩ hrun
  obtain ⟨before, k, hbefore, rfl, rfl, htells, hrefers⟩ := buildClass_shares hm hd
    (fun owner type draft htype hdraft hps => h.members _ groups hdraft hps
      (fun _ _ ht => .content hreached htype ht) owner)
    .localElement className c₁ c₁ u c₂ ⟨h₁.shared, .refl c₁⟩ hrun
  have hname := hbefore.extended.classNames_le _ _ _ hname
  have hinner := innerFor_of_run hm hd hrun rfl
  obtain ⟨inner, hshared⟩ := hbefore.shared
  have hadded := Shared.addInner (i := ⟨declaredIn, d, k⟩) hshared htells.origin
    ⟨hreached, hinner, hrefers⟩ hname
  exact ⟨⟨⟨_, hadded⟩, h₁.extended.trans hbefore.extended⟩, hname⟩

theorem SharesWithin.localElement {bound : Nat} (h : SharesWithin model bound)
    (pending : List Place) (k : Nat) (groups : List String) (declaredIn : Option String)
    (owner : String) :
    ElementsShare model pending declaredIn (Traced model k [] declaredIn)
      (localElementWithin model (bound + 1) groups declaredIn owner) := by
  intro d htraced c
  have hd : d.declared.Sublist model.declared := by
    have hpart := htraced.placed.part
    rwa [Term.declared] at hpart
  rw [localElementWithin]
  refine ensures_get_bind fun c₁ h₁ => ?_
  split
  · next className hknown => exact ensures_pure fun c' hc' => hc' ▸ ⟨h₁, fun _ => hknown⟩
  · next hnew =>
    have hframe := (frame_sharedFrom model pending c).and_unmet declaredIn d
    have hreserve : Ensures (· = c₁) (reserveElement declaredIn owner d) fun _ c' =>
        SharedFrom model pending c c' ∧ rememberedElement c' declaredIn d = none := by
      refine ((reserveElement_settles hframe declaredIn owner d).ensures.strengthen ?_).weaken
        fun _ _ h => h.1
      rintro _ rfl
      exact ⟨h₁, hnew⟩
    refine hreserve.bind fun className => ?_
    refine (rememberElement_sharedFrom declaredIn d className).bind fun _ => ?_
    refine (h.newClass hm pending groups (d.sublist_type.trans hd) htraced.reached className c).bind
      fun _ => ?_
    exact ensures_pure fun c' hc' => hc'

theorem sharesWithin (bound : Nat) : SharesWithin model bound := by
  induction bound with
  | zero =>
    constructor
    · intro pending k groups declaredIn owner d _
      rw [localElementWithin]
      exact shares_fail
    · intro pending k groups declaredIn owner name minimum m _
      rw [referredGroupWithin]
      exact shares_fail
  | succ bound ih => exact ⟨ih.localElement hm, ih.referredGroup⟩

/-! ## The whole schema -/

theorem membershipOf_shares {k : Nat} {type : ComplexType} (hroot : model.Root type)
    {draft : Draft} (hdraft : draft.Placed model k)
    (hps : DeclaredParticles model type.name type.content draft.particles) (owner : String) :
    Shares model [] (membershipOf model owner draft.particles) fun ms c =>
      TypeRefers model c.classNames type ms :=
  (sharesWithin hm _).members [] [] hdraft hps (fun _ _ ht => .root hroot ht) owner

theorem buildComplexType_shares {e : String × ComplexType} (he : e ∈ model.complexTypes)
    (c : Catalog) : Ensures (SharedFrom model [] c) (buildComplexType model e.1 e.2)
      fun _ => SharedFrom model [] c := by
  have hframe := frame_sharedFrom model [] c
  refine (typeScope_settles hframe.plain e.1).ensures_bind fun scope _ => ?_
  split
  · exact ensures_modify fun c' h => hframe.elements c' _ rfl rfl rfl h
  · next hconcrete =>
    have hconcrete : e.2.isAbstract = false := by simpa using hconcrete
    have hroot : model.Root e.2 := .complexType he hconcrete
    refine ((derive_settles model (hframe.serves model) hm scope
      (placed_of_complexType model hm he 0)).and_result
        (derive_declaredParticles scope e.2)).ensures_bind fun draft hderived => ?_
    obtain ⟨hdraft, hps⟩ := hderived
    refine (membershipOf_shares hm hroot hdraft hps _ c).bind fun ms => ?_
    refine ensures_modify fun c' hc' => ?_
    obtain ⟨h, hrefers⟩ := hc'
    obtain ⟨inner, hshared⟩ := h.shared
    exact ⟨⟨inner, hshared.addOuter nofun (.complexType he hconcrete rfl rfl hrefers)⟩, h.extended⟩

theorem buildElement_shares {e : String × ElementDeclaration} (he : e ∈ model.elements)
    (c : Catalog) : Ensures (SharedFrom model [] c) (buildElement model e.1 e.2)
      fun _ => SharedFrom model [] c := by
  refine (referredElement_settles (frame_sharedFrom model [] c).plain e.1).ensures_bind
    fun className _ => ?_
  refine (buildClass_shares hm (e.2.sublist_type.trans (model.sublist_of_element he))
    (fun owner type draft htype hdraft hps =>
      membershipOf_shares hm (.element he htype) hdraft hps owner) .topLevel className c).weaken ?_
  rintro _ _ ⟨before, k, h, rfl, -, htells, hrefers⟩
  obtain ⟨inner, hshared⟩ := h.shared
  have horigin : k.origin ≠ .localElement := by simp [htells.origin]
  exact ⟨⟨inner, hshared.addOuter horigin (.topLevel he htells hrefers)⟩, h.extended⟩

theorem buildAll_shares : Ensures (· = {}) (buildAll model) fun _ c =>
    ∃ inner, Shared model [] inner c := by
  have hempty : Shared model [] [] {} := by
    refine ⟨rfl, by simp, by simp, by simp, fun place className hplace => ?_⟩
    cases place <;> cases hplace
  have htypes := forM_ensures (P := fun _ => SharedFrom model [] {}) fun _ e he =>
    buildComplexType_shares hm he {}
  have helements := forM_ensures (P := fun _ => SharedFrom model [] {}) fun _ e he =>
    buildElement_shares hm he {}
  exact (buildAll_ensures (frame_sharedFrom model [] {}) ⟨⟨[], hempty⟩, .refl _⟩
    (htypes.bind fun _ => helements)).weaken fun _ _ h => h.shared

end

/-- Where nothing is pending, elements refer to the classes at their places. -/
theorem Shared.classNames_le {inner : List InnerClass} {c : Catalog}
    (h : Shared model [] inner c) : c.classNames ≤ namesAt place? inner := by
  intro declaredIn d className hname place hplace
  have hknown := hname (Option.isSome_of_mem hplace)
  rw [rememberedElement_eq, hplace, Option.bind_some] at hknown
  exact h.settled place className hknown List.not_mem_nil

/-- Classes with different names are at different places. -/
theorem Shared.once {inner : List InnerClass} {c : Catalog} (h : Shared model [] inner c)
    (hnames : (c.classes.map (·.name)).Nodup) :
    (inner.filterMap fun i => place? i.declaredIn i.element).Nodup := by
  have hinner : (inner.map (·.built.name)).Nodup := by
    have hsublist := (List.filter_sublist (p := (·.origin = Origin.localElement))
      (l := c.classes)).map (·.name)
    rw [h.classes, List.map_map] at hsublist
    exact hnames.sublist hsublist
  apply List.pairwise_filterMap.mpr
  refine (List.pairwise_map.mp hinner).imp_of_mem fun {i j} hi hj hne => ?_
  rintro place hplace _ hplace' rfl
  have hi := h.named i hi (Option.isSome_of_mem hplace)
  have hj := h.named j hj (Option.isSome_of_mem hplace')
  rw [rememberedElement_eq, hplace] at hi
  rw [rememberedElement_eq, hplace'] at hj
  exact hne (Option.some.inj (hi.symm.trans hj))

/-- Local elements of a module share their classes. -/
theorem Module.sharesAt_of_ofModel (hm : model.Keyed) {m : Module}
    (h : Module.ofModel model = .ok m) : ∃ inner, m.SharesAt place? model inner := by
  obtain ⟨u, catalog, hrun, rfl⟩ := exists_catalog_of_ofModel h
  obtain ⟨inner, hshared⟩ := buildAll_shares hm {} u catalog rfl hrun
  have hnames := (buildAll_coheres model hm {} u catalog rfl hrun).nodup_names.1
  have hle := hshared.classNames_le
  refine ⟨inner, hshared.classes, hnames, hshared.once hnames, ?_, ?_⟩
  · exact fun i hi => (hshared.holds i hi).mono fun _ _ _ _ => hle _ _ _
  · exact fun k hk horigin => (hshared.outer k hk horigin).mono fun _ _ _ _ => hle _ _ _

end

end XmlBinding.Binding
