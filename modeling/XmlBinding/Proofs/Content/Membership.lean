import XmlBinding.Proofs.Binding.Steps

/-! # What the membership of a content model looks like

Each particle that can occur gives one slot, in order, with the product of all maxima around it.
The relations say so without a look at the construction, which is shown to keep to them.
-/
namespace XmlBinding.Binding
open Schema

section
variable (model : Model)

mutual

/-- The slots of particles in groups that may occur `outer` times. -/
inductive SlotsFor : MaxOccurs → List Particle → List MemberSlot → Prop
  | nil {outer : MaxOccurs} : SlotsFor outer [] []
  | prohibited {outer : MaxOccurs} {minimum : Nat} {t : Term} {ps : List Particle}
      {ss : List MemberSlot} (h : SlotsFor outer ps ss) :
      SlotsFor outer (⟨minimum, .count 0, t⟩ :: ps) ss
  | cons {outer maximum : MaxOccurs} {minimum : Nat} {t : Term} {ps : List Particle}
      {s : MemberSlot} {ss : List MemberSlot} (hmax : maximum ≠ .count 0)
      (hs : SlotFor minimum (maximum.mul outer) t s) (h : SlotsFor outer ps ss) :
      SlotsFor outer (⟨minimum, maximum, t⟩ :: ps) (s :: ss)

inductive SlotFor : Nat → MaxOccurs → Term → MemberSlot → Prop
  | element {minimum : Nat} {m : MaxOccurs} (d : ElementDeclaration) (className : String) :
      SlotFor minimum m (.element d) (.element d.name className m)
  | elementRef {minimum : Nat} {m : MaxOccurs} (name className : String) :
      SlotFor minimum m (.elementRef name) (.element name className m)
  | group {minimum : Nat} {m : MaxOccurs} {g : ModelGroup} {ms : Membership}
      (h : MembershipFor minimum m g ms) : SlotFor minimum m (.group g) (.group ms)
  | groupRef {minimum : Nat} {m : MaxOccurs} {name : String} {d : GroupDefinition}
      {ms : Membership} (hd : model.group name = some d)
      (h : MembershipFor minimum m d.group ms) : SlotFor minimum m (.groupRef name) (.group ms)
  | wildcard {minimum : Nat} {m : MaxOccurs} : SlotFor minimum m .wildcard (.wildcard m)

inductive MembershipFor : Nat → MaxOccurs → ModelGroup → Membership → Prop
  | intro {minimum : Nat} {m : MaxOccurs} {compositor : Compositor} {ps : List Particle}
      {ss : List MemberSlot} (h : SlotsFor m ps ss) :
      MembershipFor minimum m ⟨compositor, ps⟩ ⟨compositorOf compositor, minimum, m, ss⟩

end

/-- The membership for the particles of a chain of derivations. -/
inductive ContentMembership : List Particle → Option Membership → Prop
  | none {ps : List Particle} (h : ∀ p ∈ ps, p.isProhibited = true) : ContentMembership ps none
  | group {ps : List Particle} {minimum : Nat} {maximum : MaxOccurs} {g : ModelGroup}
      {ms : Membership}
      (hps : ps.filter (fun p => !p.isProhibited) = [⟨minimum, maximum, .group g⟩])
      (h : MembershipFor model minimum maximum g ms) : ContentMembership ps (some ms)
  | sequence {ps : List Particle} {ss : List MemberSlot} (h : SlotsFor model .one ps ss) :
      ContentMembership ps (some ⟨.sequence, 1, .one, ss⟩)

end

variable {model : Model}

theorem SlotsFor.append {outer : MaxOccurs} {ps qs : List Particle} {ss ts : List MemberSlot}
    (hs : SlotsFor model outer ps ss) (ht : SlotsFor model outer qs ts) :
    SlotsFor model outer (ps ++ qs) (ss ++ ts) := by
  induction ps generalizing ss with
  | nil =>
    cases hs
    exact ht
  | cons p ps ih =>
    cases hs with
    | prohibited h => exact .prohibited (ih h)
    | cons hmax hslot h => exact .cons hmax hslot (ih h)

theorem slotsFor_filter {outer : MaxOccurs} {ps : List Particle} {ss : List MemberSlot}
    (h : SlotsFor model outer (ps.filter fun p => !p.isProhibited) ss) :
    SlotsFor model outer ps ss := by
  induction ps generalizing ss with
  | nil => exact h
  | cons p ps ih =>
    obtain ⟨minimum, maximum, t⟩ := p
    by_cases hp : maximum = .count 0
    · subst hp
      exact .prohibited (ih h)
    · have hnot : (!Particle.isProhibited ⟨minimum, maximum, t⟩) = true := by
        simpa [Particle.isProhibited] using hp
      rw [List.filter_cons, if_pos hnot] at h
      cases h with
      | prohibited h => exact absurd rfl hp
      | cons hmax hslot h => exact .cons hmax hslot (ih h)

section
variable {element : ElementDeclaration → Build String}
  {group : String → Nat → MaxOccurs → Build Membership}

/-- A reference to a group gives a membership of that group. -/
def GroupsKeep (model : Model) (group : String → Nat → MaxOccurs → Build Membership) : Prop :=
  ∀ name minimum m, Ensures (fun _ => True) (group name minimum m)
    fun ms _ => ∃ d, model.group name = some d ∧ MembershipFor model minimum m d.group ms

mutual

theorem buildGroup_membershipFor (hgroup : GroupsKeep model group) (minimum : Nat)
    (m : MaxOccurs) : ∀ g : ModelGroup,
    Ensures (fun _ => True) (buildGroup element group minimum m g)
      fun ms _ => MembershipFor model minimum m g ms
  | ⟨_, particles⟩ => by
    rw [buildGroup]
    exact (buildSlots_slotsFor hgroup m particles).bind fun _ => ensures_pure fun _ h => .intro h

theorem buildSlots_slotsFor (hgroup : GroupsKeep model group) (outer : MaxOccurs) :
    ∀ ps : List Particle, Ensures (fun _ => True) (buildSlots element group outer ps)
      fun ss _ => SlotsFor model outer ps ss
  | [] => ensures_pure fun _ _ => .nil
  | ⟨minimum, maximum, term⟩ :: ps => by
    rw [buildSlots]
    split
    · next h =>
      subst h
      exact (buildSlots_slotsFor hgroup outer ps).weaken fun _ _ h => .prohibited h
    · next hmax =>
      refine (buildSlot_slotFor hgroup minimum (maximum.mul outer) term).bind_of_result
        fun s hs => ?_
      exact (buildSlots_slotsFor hgroup outer ps).bind fun _ =>
        ensures_pure fun _ h => .cons hmax hs h

theorem buildSlot_slotFor (hgroup : GroupsKeep model group) (minimum : Nat) (m : MaxOccurs) :
    ∀ t : Term, Ensures (fun _ => True) (buildSlot element group minimum m t)
      fun s _ => SlotFor model minimum m t s
  | .element d => by
    rw [buildSlot]
    exact ensures_true.bind fun _ => ensures_pure fun _ _ => .element d _
  | .elementRef name => by
    rw [buildSlot]
    exact ensures_true.bind fun _ => ensures_pure fun _ _ => .elementRef name _
  | .group g => by
    rw [buildSlot]
    exact (buildGroup_membershipFor hgroup minimum m g).bind fun _ =>
      ensures_pure fun _ h => .group h
  | .groupRef name => by
    rw [buildSlot]
    exact (hgroup name minimum m).bind fun _ => ensures_pure fun _ ⟨_, hd, h⟩ => .groupRef hd h
  | .wildcard => ensures_pure fun _ _ => .wildcard

end

end

/-- However deep references may be nested, they give memberships of their groups. -/
theorem referredGroupWithin_keeps (bound : Nat) (groups : List String)
    (declaredIn : Option String) (owner : String) :
    GroupsKeep model (referredGroupWithin model bound groups declaredIn owner) := by
  intro name minimum m
  induction bound generalizing groups name minimum m with
  | zero => exact ensures_fail
  | succ bound ih =>
    rw [referredGroupWithin]
    split
    · exact ensures_fail
    · next g hg =>
      split
      · exact ensures_fail
      · exact (buildGroup_membershipFor (fun name minimum m => ih _ name minimum m) _ _ _).weaken
          fun _ _ h => ⟨g, hg, h⟩

theorem declaredSlots_slotsFor
    {element : Option String → String → ElementDeclaration → Build String}
    {group : Option String → String → String → Nat → MaxOccurs → Build Membership}
    (hgroup : ∀ declaredIn owner, GroupsKeep model (group declaredIn owner)) (owner : String)
    (ps : List DeclaredParticle) :
    Ensures (fun _ => True) (declaredSlots element group owner ps)
      fun ss _ => SlotsFor model .one (ps.map (·.particle)) ss := by
  induction ps with
  | nil => exact ensures_pure fun _ _ => .nil
  | cons p ps ih =>
    rw [declaredSlots]
    refine (buildSlots_slotsFor (hgroup p.declaredIn owner) .one [p.particle]).bind_of_result
      fun s hs => ?_
    exact ih.bind fun _ => ensures_pure fun _ h => hs.append h

theorem buildMembership_contentMembership
    {element : Option String → String → ElementDeclaration → Build String}
    {group : Option String → String → String → Nat → MaxOccurs → Build Membership}
    (hgroup : ∀ declaredIn owner, GroupsKeep model (group declaredIn owner)) (owner : String)
    (ps : List DeclaredParticle) :
    Ensures (fun _ => True) (buildMembership element group owner ps)
      fun ms _ => ContentMembership model (ps.map (·.particle)) ms := by
  have hfilter : (ps.filter fun p => !p.particle.isProhibited).map (·.particle) =
      (ps.map (·.particle)).filter fun p => !p.isProhibited := by
    rw [List.filter_map]
    rfl
  rw [buildMembership]
  split
  · next h =>
    rw [h] at hfilter
    refine ensures_pure fun _ _ => .none fun p hp => ?_
    simpa using List.filter_eq_nil_iff.mp hfilter.symm p hp
  · next minimum maximum g declaredIn h =>
    rw [h] at hfilter
    exact (buildGroup_membershipFor (hgroup declaredIn owner) minimum maximum g).bind fun _ =>
      ensures_pure fun _ hms => .group hfilter.symm hms
  · refine (declaredSlots_slotsFor hgroup owner _).bind fun ss => ensures_pure fun _ h => ?_
    rw [hfilter] at h
    exact .sequence (slotsFor_filter h)

end XmlBinding.Binding
