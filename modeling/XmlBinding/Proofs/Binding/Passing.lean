import XmlBinding.Proofs.Binding.Reaching

/-! # What a construction has passed

A construction that succeeds has gone through the contents of all types that it reached, but for
elements that it remembered. If elements that are remembered at one place have one type, then no
element was left out, and no group was circular.
-/
namespace XmlBinding.Binding
open Schema

/-! ## Places of local elements -/

/-- Where the class of a local element is remembered: by the element and the name of its type, or by
the type that declares it and the element. -/
inductive Place where
  | typed (name type : String)
  | inline (owner name : String)
deriving DecidableEq

/-- The place of an element; there is none if neither its type nor the type that declares it has a
name. -/
def place? (declaredIn : Option String) (d : ElementDeclaration) : Option Place :=
  match d.type, declaredIn with
  | .named t, _ => some (.typed d.name t.text)
  | _, some owner => some (.inline owner d.name)
  | _, none => none

namespace Catalog

def at? (c : Catalog) : Place → Option String
  | .typed name type => remembered c.typedElements (name, type)
  | .inline owner name => remembered c.inlineElements (owner, name)

def note (c : Catalog) (className : String) : Place → Catalog
  | .typed name type =>
    { c with typedElements := ((name, type), className) :: c.typedElements }
  | .inline owner name =>
    { c with inlineElements := ((owner, name), className) :: c.inlineElements }

theorem at?_note (c : Catalog) (className : String) (place place' : Place) :
    (c.note className place).at? place' =
      if place = place' then some className else c.at? place' := by
  cases place <;> cases place' <;> simp [note, at?, remembered_cons]

end Catalog

theorem rememberedElement_eq (c : Catalog) (declaredIn : Option String) (d : ElementDeclaration) :
    rememberedElement c declaredIn d = (place? declaredIn d).bind c.at? := by
  obtain ⟨_, _, type, _⟩ := d
  cases type <;> cases declaredIn <;> rfl

theorem rememberElement_eq (declaredIn : Option String) (d : ElementDeclaration)
    (className : String) : rememberElement declaredIn d className =
      (place? declaredIn d).elim (pure ()) fun place => modify (·.note className place) := by
  obtain ⟨_, _, type, _⟩ := d
  cases type <;> cases declaredIn <;> rfl

/-- Noting an element at a place that was free forgets no other. -/
theorem extendedBy_note {c : Catalog} {place : Place} (hfree : c.at? place = none)
    (className : String) : c.ExtendedBy (c.note className place) := by
  intro declaredIn d name h
  rw [rememberedElement_eq] at h ⊢
  obtain ⟨place', hplace, h⟩ := Option.bind_eq_some_iff.mp h
  rw [hplace, Option.bind_some, Catalog.at?_note, if_neg]
  · exact h
  · rintro rfl
    rw [hfree] at h
    cases h

section
variable {model : Model}

/-! ## Terms that have been passed -/

/-- What stands in a term is there: the element is remembered or the content of its type has been
passed, and in a group or a reference all that it holds has. -/
inductive Passed (model : Model) (c : Catalog) : Option String → Term → Prop
  | remembered {declaredIn : Option String} {d : ElementDeclaration} {className : String}
      (h : rememberedElement c declaredIn d = some className) :
      Passed model c declaredIn (.element d)
  | built {declaredIn : Option String} {d : ElementDeclaration}
      (h : ∀ type declaredIn' t, d.type.complex? model = some type →
        type.Contains model declaredIn' t → Passed model c declaredIn' t) :
      Passed model c declaredIn (.element d)
  | within {declaredIn : Option String} {t : Term} (helement : ∀ d, t ≠ .element d)
      (h : ∀ t', t.Holds model t' → Passed model c declaredIn t') : Passed model c declaredIn t

/-- The content of a type has been passed. -/
def PassedContent (model : Model) (c : Catalog) (type : ComplexType) : Prop :=
  ∀ declaredIn t, type.Contains model declaredIn t → Passed model c declaredIn t

/-- The content of an element's type has been passed, if it is a complex one. -/
def PassedType (model : Model) (c : Catalog) (d : ElementDeclaration) : Prop :=
  ∀ type, d.type.complex? model = some type → PassedContent model c type

theorem stable_passed (declaredIn : Option String) (t : Term) :
    Stable fun c => Passed model c declaredIn t := by
  intro c c' hext h
  induction h with
  | remembered h => exact .remembered (hext _ _ _ h)
  | built _ ih => exact .built ih
  | within helement _ ih => exact .within helement ih

theorem stable_passedContent (type : ComplexType) :
    Stable fun c => PassedContent model c type :=
  fun _ _ hext h declaredIn t ht => stable_passed declaredIn t hext (h declaredIn t ht)

theorem stable_passedType (d : ElementDeclaration) : Stable fun c => PassedType model c d :=
  fun _ _ hext h type htype => stable_passedContent type hext (h type htype)

theorem Passed.of_holds {c : Catalog} {declaredIn : Option String} {t t' : Term}
    (h : Passed model c declaredIn t) (ht : t.Holds model t') : Passed model c declaredIn t' := by
  cases h with
  | remembered _ => exact absurd ht (Term.not_holds_element _ t')
  | built _ => exact absurd ht (Term.not_holds_element _ t')
  | within _ h => exact h t' ht

/-- A chain of groups comes to an end in a term that has been passed. -/
theorem Passed.not_transGen {c : Catalog} {declaredIn : Option String} {t : Term}
    (h : Passed model c declaredIn t) : ¬ Relation.TransGen (Term.Holds model) t t := by
  induction h with
  | remembered _ | built _ _ =>
    intro hloop
    obtain ⟨t', hholds, -⟩ := Relation.TransGen.head'_iff.mp hloop
    exact Term.not_holds_element _ t' hholds
  | within _ _ ih =>
    intro hloop
    obtain ⟨t', hholds, hback⟩ := Relation.TransGen.head'_iff.mp hloop
    exact ih t' hholds (.tail' hback hholds)

/-! ## Going through a schema -/

/-- The class of each element that is remembered has been built, but for those at pending places. -/
def Closed (model : Model) (pending : List Place) (c : Catalog) : Prop :=
  ∀ place className, c.at? place = some className → place ∉ pending →
    ∃ declaredIn d, place? declaredIn d = some place ∧ model.Reached declaredIn (.element d) ∧
      PassedType model c d

/-- What comes after a catalog: nothing is forgotten, and no more places are pending. -/
structure Follows (model : Model) (pending : List Place) (c c' : Catalog) : Prop where
  closed : Closed model pending c'
  extended : c.ExtendedBy c'

/-- A step that leaves no more places pending and forgets no element, and after which `D` holds. -/
def Passes {α : Type} (model : Model) (pending : List Place) (x : Build α)
    (D : α → Catalog → Prop) : Prop :=
  ∀ c : Catalog, Ensures (Follows model pending c) x fun a c' =>
    Follows model pending c c' ∧ D a c'

section
variable {α β : Type} {pending : List Place} {x : Build α} {R : α → Prop} {D : Catalog → Prop}
  {c₀ c c' : Catalog}

/-- Only the tables of local elements matter. -/
theorem Follows.congr (h : Follows model pending c₀ c) (ht : c'.typedElements = c.typedElements)
    (hi : c'.inlineElements = c.inlineElements) : Follows model pending c₀ c' := by
  have hext : c.ExtendedBy c' := fun declaredIn d _ hd =>
    (rememberedElement_congr ht hi declaredIn d).trans hd
  refine ⟨fun place className hplace hnot => ?_, h.extended.trans hext⟩
  have hplace' : c.at? place = some className := by
    cases place <;> simpa [Catalog.at?, ht, hi] using hplace
  obtain ⟨declaredIn, d, hd, hreached, hpassed⟩ := h.closed place className hplace' hnot
  exact ⟨declaredIn, d, hd, hreached, stable_passedType d hext hpassed⟩

theorem frame_follows (model : Model) (pending : List Place) (c : Catalog) :
    Frame (fun _ => True) (Follows model pending c) :=
  ⟨fun _ _ => trivial, fun _ _ ht hi _ h => h.congr ht hi⟩

theorem passes_of_settles
    (h : ∀ c, Settles (fun _ => True) (Follows model pending c) x R) :
    Passes model pending x fun a _ => R a :=
  fun c => (h c).ensures

theorem passes_pure {a : α} {D : α → Catalog → Prop} (h : ∀ c, D a c) :
    Passes model pending (pure a : Build α) D :=
  fun _ => ensures_pure fun c hc => ⟨hc, h c⟩

theorem passes_fail {e : BindingError} {D : α → Catalog → Prop} :
    Passes model pending (fail e : Build α) D :=
  fun _ => ensures_fail

theorem passes_addClass (k : ElementClass) :
    Passes model pending (addClass k) fun _ _ => True :=
  fun _ => ensures_modify fun _ h => ⟨h.congr rfl rfl, trivial⟩

theorem Passes.bind {f : α → Build β} {D : β → Catalog → Prop}
    (hx : Passes model pending x fun a _ => R a) (hf : ∀ a, R a → Passes model pending (f a) D) :
    Passes model pending (x >>= f) D :=
  fun c => (hx c).bind fun a c₁ b c₂ ⟨hc₁, ha⟩ hb => hf a ha c c₁ b c₂ hc₁ hb

theorem Passes.bind_pure {f : α → β} (hx : Passes model pending x fun _ => D) :
    Passes model pending (x >>= fun a => pure (f a)) fun _ => D :=
  fun c => (hx c).bind fun _ => ensures_pure fun _ h => h

/-- What holds after a step holds after the next one, if it does not get lost. -/
theorem Passes.bind_stable {f : α → Build β} {D' : β → Catalog → Prop}
    (hx : Passes model pending x fun _ => D) (hD : Stable D)
    (hf : ∀ a, Passes model pending (f a) D') :
    Passes model pending (x >>= f) fun b c => D c ∧ D' b c := by
  refine fun c => (hx c).bind fun a c₁ b c₂ ⟨h₁, hd⟩ hb => ?_
  obtain ⟨h₂, hd'⟩ := hf a c₁ c₁ b c₂ ⟨h₁.closed, .refl c₁⟩ hb
  exact ⟨⟨h₂.closed, h₁.extended.trans h₂.extended⟩, hD h₂.extended hd, hd'⟩

theorem Passes.weaken {D D' : α → Catalog → Prop} (h : Passes model pending x D)
    (hd : ∀ a c, D a c → D' a c) : Passes model pending x D' :=
  fun c => (h c).weaken fun a c' h => ⟨h.1, hd a c' h.2⟩

end

/-! ## Groups and contents -/

section
variable {pending : List Place} {Q : Term → Prop} {declaredIn : Option String}
  {element : ElementDeclaration → Build String}
  {group : String → Nat → MaxOccurs → Build Membership}

mutual

theorem buildGroup_passes (hQ : PassesDown Q)
    (he : ∀ d, Q (.element d) →
      Passes model pending (element d) fun _ c => Passed model c declaredIn (.element d))
    (hg : ∀ name minimum m, Q (.groupRef name) →
      Passes model pending (group name minimum m) fun _ c =>
        Passed model c declaredIn (.groupRef name))
    (minimum : Nat) (m : MaxOccurs) : ∀ g : ModelGroup, Q (.group g) →
      Passes model pending (buildGroup element group minimum m g) fun _ c =>
        Passed model c declaredIn (.group g)
  | ⟨compositor, particles⟩, h => by
    rw [buildGroup]
    refine (buildSlots_passes hQ he hg m particles fun p hp hmaximum =>
      hQ _ p h hp hmaximum).bind_pure.weaken fun _ c hpassed => .within nofun ?_
    rintro _ ⟨hp, hmaximum⟩
    exact hpassed _ hp hmaximum

theorem buildSlots_passes (hQ : PassesDown Q)
    (he : ∀ d, Q (.element d) →
      Passes model pending (element d) fun _ c => Passed model c declaredIn (.element d))
    (hg : ∀ name minimum m, Q (.groupRef name) →
      Passes model pending (group name minimum m) fun _ c =>
        Passed model c declaredIn (.groupRef name))
    (outer : MaxOccurs) : ∀ ps : List Particle,
      (∀ p ∈ ps, p.maximum ≠ .count 0 → Q p.term) →
      Passes model pending (buildSlots element group outer ps) fun _ c =>
        ∀ p ∈ ps, p.maximum ≠ .count 0 → Passed model c declaredIn p.term
  | [], _ => by
    rw [buildSlots]
    exact passes_pure fun _ => by simp
  | ⟨minimum, maximum, term⟩ :: ps, h => by
    obtain ⟨hterm, hps⟩ := List.forall_mem_cons.mp h
    rw [buildSlots]
    split
    · next hzero =>
      exact (buildSlots_passes hQ he hg outer ps hps).weaken fun _ c hpassed =>
        List.forall_mem_cons.mpr ⟨absurd hzero, hpassed⟩
    · next hmaximum =>
      refine ((buildSlot_passes hQ he hg minimum (maximum.mul outer) term
        (hterm hmaximum)).bind_stable (stable_passed declaredIn term) fun _ =>
          (buildSlots_passes hQ he hg outer ps hps).bind_pure).weaken fun _ c hpassed => ?_
      exact List.forall_mem_cons.mpr ⟨fun _ => hpassed.1, hpassed.2⟩

theorem buildSlot_passes (hQ : PassesDown Q)
    (he : ∀ d, Q (.element d) →
      Passes model pending (element d) fun _ c => Passed model c declaredIn (.element d))
    (hg : ∀ name minimum m, Q (.groupRef name) →
      Passes model pending (group name minimum m) fun _ c =>
        Passed model c declaredIn (.groupRef name))
    (minimum : Nat) (m : MaxOccurs) : ∀ t : Term, Q t →
      Passes model pending (buildSlot element group minimum m t) fun _ c =>
        Passed model c declaredIn t
  | .element d, h => by
    rw [buildSlot]
    exact (he d h).bind_pure
  | .elementRef name, _ => by
    rw [buildSlot]
    refine Passes.bind (R := fun _ => True) (passes_of_settles fun c =>
      referredElement_settles (frame_follows model pending c).plain name) fun _ _ => ?_
    exact passes_pure fun _ => .within nofun nofun
  | .group g, h => by
    rw [buildSlot]
    exact (buildGroup_passes hQ he hg minimum m g h).bind_pure
  | .groupRef name, h => by
    rw [buildSlot]
    exact (hg name minimum m h).bind_pure
  | .wildcard, _ => by
    rw [buildSlot]
    exact passes_pure fun _ => .within nofun nofun

end

end

/-- The particles have been passed, as far as they may occur. -/
def PassedParticles (model : Model) (c : Catalog) (ps : List DeclaredParticle) : Prop :=
  ∀ p ∈ ps, p.particle.maximum ≠ .count 0 → Passed model c p.declaredIn p.particle.term

section
variable {pending : List Place} {Q : Option String → Term → Prop}
  {element : Option String → String → ElementDeclaration → Build String}
  {group : Option String → String → String → Nat → MaxOccurs → Build Membership}

theorem declaredSlots_passes (hQ : ∀ declaredIn, PassesDown (Q declaredIn))
    (he : ∀ declaredIn owner d, Q declaredIn (.element d) →
      Passes model pending (element declaredIn owner d) fun _ c =>
        Passed model c declaredIn (.element d))
    (hg : ∀ declaredIn owner name minimum m, Q declaredIn (.groupRef name) →
      Passes model pending (group declaredIn owner name minimum m) fun _ c =>
        Passed model c declaredIn (.groupRef name))
    (owner : String) {ps : List DeclaredParticle}
    (hps : ∀ p ∈ ps, p.particle.maximum ≠ .count 0 → Q p.declaredIn p.particle.term) :
    Passes model pending (declaredSlots element group owner ps) fun _ c =>
      PassedParticles model c ps := by
  induction ps with
  | nil => exact passes_pure fun _ => by simp [PassedParticles]
  | cons p ps ih =>
    obtain ⟨hp, hps⟩ := List.forall_mem_cons.mp hps
    rw [declaredSlots]
    have hslots := buildSlots_passes (hQ p.declaredIn) (he p.declaredIn owner)
      (hg p.declaredIn owner) .one [p.particle] (by simpa using hp)
    refine (hslots.bind_stable (fun _ _ hext h q hq hmaximum =>
      stable_passed _ _ hext (h q hq hmaximum)) fun _ => (ih hps).bind_pure).weaken
        fun _ c hpassed => ?_
    exact List.forall_mem_cons.mpr ⟨hpassed.1 p.particle List.mem_cons_self, hpassed.2⟩

theorem buildMembership_passes (hQ : ∀ declaredIn, PassesDown (Q declaredIn))
    (he : ∀ declaredIn owner d, Q declaredIn (.element d) →
      Passes model pending (element declaredIn owner d) fun _ c =>
        Passed model c declaredIn (.element d))
    (hg : ∀ declaredIn owner name minimum m, Q declaredIn (.groupRef name) →
      Passes model pending (group declaredIn owner name minimum m) fun _ c =>
        Passed model c declaredIn (.groupRef name))
    (owner : String) {ps : List DeclaredParticle}
    (hps : ∀ p ∈ ps, p.particle.maximum ≠ .count 0 → Q p.declaredIn p.particle.term) :
    Passes model pending (buildMembership element group owner ps) fun _ c =>
      PassedParticles model c ps := by
  have hfilter : ∀ p ∈ ps.filter fun p => !p.particle.isProhibited,
      Q p.declaredIn p.particle.term :=
    fun p hp => hps p (mem_filter_isProhibited.mp hp).1 (mem_filter_isProhibited.mp hp).2
  rw [buildMembership]
  split
  · next hnone =>
    refine passes_pure fun c p hp hmaximum => ?_
    have hp := mem_filter_isProhibited.mpr ⟨hp, hmaximum⟩
    rw [hnone] at hp
    cases hp
  · next minimum maximum g declaredIn hgroup =>
    rw [hgroup] at hfilter
    refine (buildGroup_passes (hQ declaredIn) (he declaredIn owner) (hg declaredIn owner)
      minimum maximum g (hfilter _ List.mem_cons_self)).bind_pure.weaken
        fun _ c hpassed p hp hmaximum => ?_
    have hp := mem_filter_isProhibited.mpr ⟨hp, hmaximum⟩
    rw [hgroup] at hp
    exact List.mem_singleton.mp hp ▸ hpassed
  · refine (declaredSlots_passes hQ he hg owner fun p hp _ => hfilter p hp).bind_pure.weaken
      fun _ c hpassed p hp hmaximum => ?_
    exact hpassed p (mem_filter_isProhibited.mpr ⟨hp, hmaximum⟩) hmaximum

end

/-! ## Elements and their types -/

theorem passedContent_of_particles {c : Catalog} {type : ComplexType}
    {ps : List DeclaredParticle} (hps : DeclaredParticles model type.name type.content ps)
    (h : PassedParticles model c ps) : PassedContent model c type := by
  rintro _ _ ⟨hps', hp, hmaximum⟩
  obtain rfl := hps.unique hps'
  exact h _ hp hmaximum

theorem Follows.remember {pending : List Place} {c c' : Catalog} (h : Follows model pending c c')
    {place : Place} (hfree : c'.at? place = none) (className : String) :
    Follows model (place :: pending) c (c'.note className place) := by
  have hext := extendedBy_note hfree className
  refine ⟨fun place' className' hplace hnot => ?_, h.extended.trans hext⟩
  obtain ⟨hne, hnot⟩ := not_or.mp (List.mem_cons.not.mp hnot)
  rw [Catalog.at?_note, if_neg (Ne.symm hne)] at hplace
  obtain ⟨declaredIn, d, hd, hreached, hpassed⟩ := h.closed place' className' hplace hnot
  exact ⟨declaredIn, d, hd, hreached, stable_passedType d hext hpassed⟩

/-- A place is pending no more when the class of an element there has been built. -/
theorem Follows.settle {pending : List Place} {c c' : Catalog} {declaredIn : Option String}
    {d : ElementDeclaration} (h : Follows model ((place? declaredIn d).toList ++ pending) c c')
    (hreached : model.Reached declaredIn (.element d)) (hpassed : PassedType model c' d) :
    Follows model pending c c' := by
  refine ⟨fun place className hplace hnot => ?_, h.extended⟩
  by_cases hd : place? declaredIn d = some place
  · exact ⟨declaredIn, d, hd, hreached, hpassed⟩
  · refine h.closed place className hplace fun hmem => ?_
    rcases List.mem_append.mp hmem with hmem | hmem
    · exact hd (Option.mem_toList.mp hmem)
    · exact hnot hmem

theorem rememberElement_follows {pending : List Place} {c : Catalog}
    (declaredIn : Option String) (d : ElementDeclaration) (className : String) :
    Ensures (fun c' => Follows model pending c c' ∧ rememberedElement c' declaredIn d = none)
      (rememberElement declaredIn d className)
      fun _ => Follows model ((place? declaredIn d).toList ++ pending) c := by
  rw [rememberElement_eq]
  cases hplace : place? declaredIn d with
  | none => exact ensures_pure fun c' h => h.1
  | some place =>
    refine ensures_modify fun c' ⟨h, hnew⟩ => h.remember ?_ className
    rwa [rememberedElement_eq, hplace, Option.bind_some] at hnew

/-- Within a bound on how deep they are nested, elements and groups are passed. -/
structure PassesWithin (model : Model) (bound : Nat) : Prop where
  element : ∀ pending k groups declaredIn owner d, Traced model k [] declaredIn (.element d) →
    Passes model pending (localElementWithin model bound groups declaredIn owner d)
      fun _ c => Passed model c declaredIn (.element d)
  group : ∀ pending k groups declaredIn owner name minimum m,
    Traced model k [] declaredIn (.groupRef name) →
    Passes model pending (referredGroupWithin model bound groups declaredIn owner name minimum m)
      fun _ c => Passed model c declaredIn (.groupRef name)

theorem PassesWithin.referredGroup {bound : Nat} (h : PassesWithin model bound)
    (pending : List Place) {k : Nat} (groups : List String) {declaredIn : Option String}
    {name : String} (htraced : Traced model k [] declaredIn (.groupRef name)) (owner : String)
    (minimum : Nat) (m : MaxOccurs) :
    Passes model pending
      (referredGroupWithin model (bound + 1) groups declaredIn owner name minimum m)
      fun _ c => Passed model c declaredIn (.groupRef name) := by
  rw [referredGroupWithin]
  split
  · exact passes_fail
  · next g hg =>
    split
    · exact passes_fail
    · have hgroup := htraced.enter hg
      refine (buildGroup_passes (passesDown_traced model g.group.declared.length [] declaredIn)
        (h.element pending _ _ declaredIn owner) (h.group pending _ _ declaredIn owner) minimum m
        g.group ⟨hgroup.placed, hgroup.reached, by simp⟩).weaken fun _ c hpassed => ?_
      refine .within (by simp) ?_
      rintro _ (_ | hg')
      obtain rfl := Option.some.inj (hg.symm.trans hg')
      exact hpassed

theorem PassesWithin.members {bound : Nat} (h : PassesWithin model bound) (pending : List Place)
    {k : Nat} (groups : List String) {type : ComplexType} {draft : Draft}
    (hdraft : draft.Placed model k)
    (hps : DeclaredParticles model type.name type.content draft.particles)
    (hreached : ∀ declaredIn t, type.Contains model declaredIn t → model.Reached declaredIn t)
    (owner : String) :
    Passes model pending
      (buildMembership (localElementWithin model bound groups)
        (referredGroupWithin model bound groups) owner draft.particles)
      fun _ c => PassedContent model c type := by
  refine (buildMembership_passes (passesDown_traced model k []) (h.element pending k groups)
    (h.group pending k groups) owner fun p hp hmaximum => ?_).weaken fun _ c hpassed =>
      passedContent_of_particles hps hpassed
  exact ⟨hdraft p hp, hreached _ _ (.particle hps hp hmaximum), by simp⟩

section
variable (hm : model.Keyed)
include hm

theorem buildClass_passes {pending : List Place} {d : ElementDeclaration}
    (hd : d.type.declared.Sublist model.declared)
    {members : String → List DeclaredParticle → Build (Option Membership)}
    (hmembers : ∀ owner type (draft : Draft), d.type.complex? model = some type →
      draft.Placed model d.type.declared.length →
      DeclaredParticles model type.name type.content draft.particles →
      Passes model pending (members owner draft.particles) fun _ c => PassedContent model c type)
    (origin : Origin) (name : String) :
    Passes model pending (buildClass model members origin name d)
      fun _ c => PassedType model c d := by
  have hframe := frame_follows model pending
  rw [buildClass]
  split
  · next hany =>
    refine (passes_addClass _).weaken fun _ c _ type htype => ?_
    rw [hany] at htype
    cases htype
  · refine Passes.bind (passes_of_settles fun c =>
      (complexTypeOf?_settles model (hframe c).plain hm name hd).and_result
        (complexTypeOf?_complex? name d.type)) fun r hr => ?_
    split
    · next scope type =>
      obtain ⟨hr, hcomplex⟩ := hr
      refine Passes.bind (passes_of_settles fun c =>
        (derive_settles model ((hframe c).serves model) hm scope (hr _ rfl)).and_result
          (derive_declaredParticles scope type)) fun draft hderived => ?_
      obtain ⟨hdraft, hps⟩ := hderived
      refine ((hmembers name type draft hcomplex hdraft hps).bind_stable
        (stable_passedContent type) fun _ => passes_addClass _).weaken
          fun _ c hpassed type' htype' => ?_
      obtain rfl := Option.some.inj (hcomplex.symm.trans htype')
      exact hpassed.1
    · refine Passes.bind (passes_of_settles fun c =>
        simpleContent_settles model (hframe c) name d.type) fun content _ => ?_
      refine (passes_addClass _).weaken fun _ c _ type htype => ?_
      rw [hr.2] at htype
      cases htype

theorem PassesWithin.localElement {bound : Nat} (h : PassesWithin model bound)
    (pending : List Place) {k : Nat} (groups : List String) {declaredIn : Option String}
    {d : ElementDeclaration} (htraced : Traced model k [] declaredIn (.element d))
    (owner : String) :
    Passes model pending (localElementWithin model (bound + 1) groups declaredIn owner d)
      fun _ c => Passed model c declaredIn (.element d) := by
  have hd : d.declared.Sublist model.declared := by
    have hpart := htraced.placed.part
    rwa [Term.declared] at hpart
  intro c
  rw [localElementWithin]
  refine ensures_get_bind fun c₁ h₁ => ?_
  split
  · next className hknown => exact ensures_pure fun c' hc' => hc' ▸ ⟨h₁, .remembered hknown⟩
  · next hnew =>
    have hreserve : Ensures (· = c₁) (reserveElement declaredIn owner d) fun _ c' =>
        Follows model pending c c' ∧ rememberedElement c' declaredIn d = none :=
      ((reserveElement_settles ((frame_follows model pending c).and_unmet declaredIn d) declaredIn
        owner d).consequence (by rintro _ rfl; exact ⟨h₁, hnew⟩) fun _ _ h => h.1).ensures
    refine hreserve.bind fun className =>
      (rememberElement_follows declaredIn d className).bind fun _ => ?_
    refine (buildClass_passes hm (d.sublist_type.trans hd) (fun owner type draft htype hdraft hps =>
      h.members _ groups hdraft hps (fun declaredIn t ht => .content htraced.reached htype ht)
        owner) .localElement className c).bind fun _ => ?_
    refine ensures_pure fun c' hbuilt => ?_
    obtain ⟨hfollows, hpassed⟩ := hbuilt
    exact ⟨hfollows.settle htraced.reached hpassed, .built fun type declaredIn t htype ht =>
      hpassed type htype declaredIn t ht⟩

theorem passesWithin (bound : Nat) : PassesWithin model bound := by
  induction bound with
  | zero =>
    constructor
    · intro pending k groups declaredIn owner d _
      rw [localElementWithin]
      exact passes_fail
    · intro pending k groups declaredIn owner name minimum m _
      rw [referredGroupWithin]
      exact passes_fail
  | succ bound ih =>
    constructor
    · intro pending k groups declaredIn owner d htraced
      exact ih.localElement hm pending groups htraced owner
    · intro pending k groups declaredIn owner name minimum m htraced
      exact ih.referredGroup pending groups htraced owner minimum m

/-! ## The whole schema -/

theorem membershipOf_passes {k : Nat} {type : ComplexType} (hroot : model.Root type)
    {draft : Draft} (hdraft : draft.Placed model k)
    (hps : DeclaredParticles model type.name type.content draft.particles) (owner : String) :
    Passes model [] (membershipOf model owner draft.particles)
      fun _ c => PassedContent model c type :=
  (passesWithin hm _).members [] [] hdraft hps (fun _ _ ht => .root hroot ht) owner

theorem buildComplexType_passes {e : String × ComplexType} (he : e ∈ model.complexTypes) :
    Passes model [] (buildComplexType model e.1 e.2)
      fun _ c => e.2.isAbstract = false → PassedContent model c e.2 := by
  have hframe := frame_follows model []
  refine Passes.bind (passes_of_settles fun c => typeScope_settles (hframe c).plain e.1) fun scope _ => ?_
  split
  · next habstract =>
    have hmarker := fun c => (hframe c).modify (f := fun c =>
      { c with markers := c.markers ++ [⟨scope.name, e.2.documentation⟩] })
      (fun _ => rfl) (fun _ => rfl) fun _ => rfl
    refine (passes_of_settles hmarker).weaken fun _ c _ hconcrete => ?_
    rw [habstract] at hconcrete
    cases hconcrete
  · next hconcrete =>
    have hroot : model.Root e.2 := .complexType he (by simpa using hconcrete)
    refine Passes.bind (passes_of_settles fun c =>
      (derive_settles model ((hframe c).serves model) hm scope (placed_of_complexType model hm he 0)).and_result
        (derive_declaredParticles scope e.2)) fun draft ⟨hdraft, hps⟩ => ?_
    exact ((membershipOf_passes hm hroot hdraft hps _).bind_stable (stable_passedContent e.2)
      fun _ => passes_addClass _).weaken fun _ c hpassed _ => hpassed.1

theorem buildElement_passes {e : String × ElementDeclaration} (he : e ∈ model.elements) :
    Passes model [] (buildElement model e.1 e.2) fun _ c => PassedType model c e.2 := by
  refine Passes.bind (passes_of_settles fun c =>
    referredElement_settles (frame_follows model [] c).plain e.1) fun className _ => ?_
  refine buildClass_passes hm (e.2.sublist_type.trans (model.sublist_of_element he))
    (fun owner type draft htype hdraft hps => ?_) .topLevel className
  exact membershipOf_passes hm (.element he htype) hdraft hps owner

omit hm in
theorem forM_passes {α : Type} {f : α → Build PUnit} {xs : List α} {D : α → Catalog → Prop}
    (hD : ∀ x, Stable (D x)) (h : ∀ x ∈ xs, Passes model [] (f x) fun _ => D x) :
    Passes model [] (xs.forM f) fun _ c => ∀ x ∈ xs, D x c := by
  induction xs with
  | nil => exact passes_pure fun c => by simp
  | cons x xs ih =>
    obtain ⟨hx, hxs⟩ := List.forall_mem_cons.mp h
    exact (hx.bind_stable (hD x) fun _ => ih hxs).weaken fun _ c hpassed =>
      List.forall_mem_cons.mpr hpassed

theorem buildAll_passes : Passes model [] (buildAll model)
    fun _ c => ∀ type, model.Root type → PassedContent model c type := by
  have hframe := frame_follows model []
  refine Passes.bind (R := fun _ => True) (passes_of_settles fun c => forM_settles fun p _ => ?_)
    fun _ _ => ?_
  · exact (resolveNamed_settles model (hframe c) p.1).bind fun _ _ => settles_pure trivial
  refine Passes.bind (R := fun _ => True) (passes_of_settles fun c => forM_settles fun p _ => ?_)
    fun _ _ => ?_
  · exact declareComplexType_settles (hframe c) p.1 p.2
  refine Passes.bind (R := fun _ => True) (passes_of_settles fun c => forM_settles fun p _ => ?_)
    fun _ _ => ?_
  · exact declareElement_settles (hframe c) p.1
  have htypes : Passes model [] (model.complexTypes.forM fun p => buildComplexType model p.1 p.2)
      fun _ c => ∀ e ∈ model.complexTypes, e.2.isAbstract = false → PassedContent model c e.2 :=
    forM_passes (D := fun (e : String × ComplexType) c => e.2.isAbstract = false →
      PassedContent model c e.2) (fun e _ _ hext h hc => stable_passedContent e.2 hext (h hc))
      fun e he => buildComplexType_passes hm he
  have helements : Passes model [] (model.elements.forM fun p => buildElement model p.1 p.2)
      fun _ c => ∀ e ∈ model.elements, PassedType model c e.2 :=
    forM_passes (D := fun e c => PassedType model c e.2) (fun e => stable_passedType e.2)
      fun e he => buildElement_passes hm he
  refine (htypes.bind_stable (fun _ _ hext h e he hconcrete =>
    stable_passedContent e.2 hext (h e he hconcrete)) fun _ => helements).weaken
      fun _ c hpassed type hroot => ?_
  cases hroot with
  | complexType he hconcrete => exact hpassed.1 _ he hconcrete
  | element he htype => exact hpassed.2 _ he type htype

end

end

end XmlBinding.Binding

namespace XmlBinding.Schema
open Binding

/-- Elements that are remembered at one place have the same complex type. A schema in which a content
gives elements of one name one type is like that, if no type is named as a builtin one. -/
def Model.Consistent (model : Model) : Prop :=
  ∀ declaredIn declaredIn' d d' place, model.Reached declaredIn (.element d) →
    model.Reached declaredIn' (.element d') → place? declaredIn d = some place →
    place? declaredIn' d' = some place → d.type.complex? model = d'.type.complex? model

end XmlBinding.Schema

namespace XmlBinding.Binding
open Schema

section
variable {model : Model}

/-- Where nothing is pending, all that is reached has been passed. -/
theorem passed_of_reached (hconsistent : model.Consistent) {c : Catalog}
    (hclosed : Closed model [] c)
    (hroots : ∀ type, model.Root type → PassedContent model c type) {declaredIn : Option String}
    {t : Term} (h : model.Reached declaredIn t) : Passed model c declaredIn t := by
  induction h with
  | root hroot h => exact hroots _ hroot _ _ h
  | holds _ h' ih => exact ih.of_holds h'
  | content h htype h' ih =>
    cases ih with
    | built hpassed => exact hpassed _ _ _ htype h'
    | within helement _ => exact absurd rfl (helement _)
    | remembered hknown =>
      rw [rememberedElement_eq] at hknown
      obtain ⟨place, hplace, hknown⟩ := Option.bind_eq_some_iff.mp hknown
      obtain ⟨declaredIn', d', hplace', hreached, hpassed⟩ :=
        hclosed place _ hknown List.not_mem_nil
      rw [hconsistent _ _ _ d' place h hreached hplace hplace'] at htype
      exact hpassed _ htype _ _ h'

/-- If a module is made then no group that is reached is circular. -/
theorem not_circular_of_ofModel (hm : model.Keyed) (hconsistent : model.Consistent) {m : Module}
    (h : Module.ofModel model = .ok m) {declaredIn : Option String} {name : String}
    (hreached : model.Reached declaredIn (.groupRef name)) : ¬ model.Circular name := by
  obtain ⟨u, catalog, hrun, rfl⟩ := exists_catalog_of_ofModel h
  have hempty : Closed model [] {} := by
    intro place className hplace
    cases place <;> cases hplace
  obtain ⟨hfollows, hroots⟩ := buildAll_passes hm {} {} u catalog ⟨hempty, .refl _⟩ hrun
  have hpassed := passed_of_reached hconsistent hfollows.closed hroots hreached
  exact fun hcircular => hpassed.not_transGen hcircular.holds

end

end XmlBinding.Binding
