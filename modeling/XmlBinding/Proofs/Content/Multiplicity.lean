import Mathlib.Algebra.BigOperators.Ring.List
import Mathlib.Algebra.Ring.Nat
import XmlBinding.Proofs.Content.Placement
import XmlBinding.Proofs.Schema.Bounds

/-! # Effective multiplicities

What a particle may contribute is bounded by the product of its own bound and those of all
particles around it. The relations here give every slot the bound that its particle has by this
rule, on a path from the particle outwards. The slots that are built multiply one bound after
the other and stop at the limit after each, which comes to the same.
-/
namespace XmlBinding.Schema

/-- The product of the bounds on the way from a particle outwards. -/
def productOf (path : List MaxOccurs) : MaxOccurs :=
  if .unbounded ∈ path then .unbounded else .count (path.filterMap MaxOccurs.count?).prod

/-- How often a particle may occur in all, with the bounds around it. -/
def effectiveMaximum (path : List MaxOccurs) : MaxOccurs := (productOf path).limited

namespace MaxOccurs

theorem unbounded_mul {m : MaxOccurs} (h : m ≠ .count 0) : unbounded.mul m = .unbounded := by
  unfold mul
  split <;> simp_all

theorem mul_unbounded {m : MaxOccurs} (h : m ≠ .count 0) : m.mul .unbounded = .unbounded :=
  (mul_comm _ _).trans (unbounded_mul h)

theorem limited_eq_one {m : MaxOccurs} : m.limited = .one ↔ m = .one := by
  cases m with
  | unbounded => simp [limited, one]
  | count n =>
    simp only [limited, one, countLimit, count.injEq]
    omega

end MaxOccurs

theorem productOf_cons_count {a : Nat} {path : List MaxOccurs} (h : .unbounded ∉ path) :
    productOf (.count a :: path) = .count (a * (path.filterMap MaxOccurs.count?).prod) := by
  simp [productOf, h, MaxOccurs.count?]

section
variable {path : List MaxOccurs} (hpath : ∀ m ∈ path, m ≠ .count 0)
include hpath

theorem prod_ne_zero : (path.filterMap MaxOccurs.count?).prod ≠ 0 := by
  refine List.prod_ne_zero fun hzero => ?_
  obtain ⟨m, hm, hcount⟩ := List.mem_filterMap.mp hzero
  cases m with
  | unbounded => cases hcount
  | count a =>
    obtain rfl := Option.some.inj hcount
    exact hpath _ hm rfl

theorem effectiveMaximum_ne_zero : effectiveMaximum path ≠ .count 0 := by
  have hne := prod_ne_zero hpath
  rw [effectiveMaximum, productOf]
  split
  · exact fun h => by cases h
  · simp only [MaxOccurs.limited, countLimit, ne_eq, MaxOccurs.count.injEq]
    omega

/-- It makes no difference that the product around a particle has been stopped at the limit. -/
theorem mul_effectiveMaximum {maximum : MaxOccurs} (hmax : maximum ≠ .count 0) :
    maximum.mul (effectiveMaximum path) = effectiveMaximum (maximum :: path) := by
  have hne := effectiveMaximum_ne_zero hpath
  cases maximum with
  | unbounded =>
    rw [MaxOccurs.unbounded_mul hne]
    simp [effectiveMaximum, productOf, MaxOccurs.limited]
  | count a =>
    by_cases hunbounded : .unbounded ∈ path
    · have houter : effectiveMaximum path = .unbounded := by
        simp [effectiveMaximum, productOf, hunbounded, MaxOccurs.limited]
      rw [houter, MaxOccurs.mul_unbounded hmax]
      simp [effectiveMaximum, productOf, hunbounded, MaxOccurs.limited]
    · let n := (path.filterMap MaxOccurs.count?).prod
      have houter : effectiveMaximum path = .count (min n countLimit) := by
        simp [effectiveMaximum, productOf, hunbounded, MaxOccurs.limited, n]
      have ha : 1 ≤ a := Nat.pos_of_ne_zero fun h => hmax (h ▸ rfl)
      have hstop : min (a * min n countLimit) countLimit = min (a * n) countLimit := by
        rcases Nat.le_total n countLimit with hle | hle
        · rw [Nat.min_eq_left hle]
        · rw [Nat.min_eq_right hle, Nat.min_eq_right (Nat.le_mul_of_pos_left _ ha),
            Nat.min_eq_right (hle.trans (Nat.le_mul_of_pos_left _ ha))]
      rw [houter, MaxOccurs.count_mul_count, hstop, effectiveMaximum,
        productOf_cons_count hunbounded]
      rfl

end

example : effectiveMaximum [.count 2, .count countLimit, .count 3] = .count countLimit := by decide

end XmlBinding.Schema

namespace XmlBinding.Binding
open Schema XmlBinding.Tree

section
variable (model : Model)

mutual

/-- The slots of particles in the groups around them, the bounds of which are `path` from the
inside outwards: one for every particle that is not prohibited, in order. -/
inductive EffectiveSlots : List MaxOccurs → List Particle → List MemberSlot → Prop
  | nil {path : List MaxOccurs} : EffectiveSlots path [] []
  | prohibited {path : List MaxOccurs} {minimum : Nat} {t : Term} {ps : List Particle}
      {ss : List MemberSlot} (h : EffectiveSlots path ps ss) :
      EffectiveSlots path (⟨minimum, .count 0, t⟩ :: ps) ss
  | cons {path : List MaxOccurs} {maximum : MaxOccurs} {minimum : Nat} {t : Term}
      {ps : List Particle} {s : MemberSlot} {ss : List MemberSlot} (hmax : maximum ≠ .count 0)
      (hs : EffectiveSlot (maximum :: path) minimum t s) (h : EffectiveSlots path ps ss) :
      EffectiveSlots path (⟨minimum, maximum, t⟩ :: ps) (s :: ss)

/-- The slot of a particle; `path` starts with its own bound. -/
inductive EffectiveSlot : List MaxOccurs → Nat → Term → MemberSlot → Prop
  | element {path : List MaxOccurs} {minimum : Nat} (d : ElementDeclaration) (className : String) :
      EffectiveSlot path minimum (.element d) (.element d.name className (effectiveMaximum path))
  | elementRef {path : List MaxOccurs} {minimum : Nat} (name className : String) :
      EffectiveSlot path minimum (.elementRef name)
        (.element name className (effectiveMaximum path))
  | group {path : List MaxOccurs} {minimum : Nat} {g : ModelGroup} {ms : Membership}
      (h : EffectiveMembership path minimum g ms) :
      EffectiveSlot path minimum (.group g) (.group ms)
  | groupRef {path : List MaxOccurs} {minimum : Nat} {name : String} {d : GroupDefinition}
      {ms : Membership} (hd : model.group name = some d)
      (h : EffectiveMembership path minimum d.group ms) :
      EffectiveSlot path minimum (.groupRef name) (.group ms)
  | wildcard {path : List MaxOccurs} {minimum : Nat} :
      EffectiveSlot path minimum .wildcard (.wildcard (effectiveMaximum path))

/-- The membership of a group. As a collection it is exclusive iff it is a choice and the product
of all bounds is one. -/
inductive EffectiveMembership : List MaxOccurs → Nat → ModelGroup → Membership → Prop
  | intro {path : List MaxOccurs} {minimum : Nat} {compositor : Schema.Compositor}
      {ps : List Particle} {ss : List MemberSlot} (h : EffectiveSlots path ps ss)
      (hexclusive : (Membership.mk (compositorOf compositor) minimum (effectiveMaximum path)
        ss).collection.isExclusive = true ↔ compositor = .choice ∧ productOf path = .one) :
      EffectiveMembership path minimum ⟨compositor, ps⟩
        ⟨compositorOf compositor, minimum, effectiveMaximum path, ss⟩

end

/-- The membership for the particles of a type: none without particles that can occur, that of a
group that is all there is, and otherwise a sequence around what there is. -/
def EffectiveContent (ps : List Particle) (r : Option Membership) : Prop :=
  match ps.filter fun p => !p.isProhibited with
  | [] => r = none
  | [⟨minimum, maximum, .group g⟩] =>
    ∃ ms, r = some ms ∧ EffectiveMembership model [maximum] minimum g ms
  | _ => ∃ ss, r = some ⟨.sequence, 1, .one, ss⟩ ∧ EffectiveSlots model [] ps ss

end

variable {model : Model}

mutual

theorem SlotsFor.effective {outer : MaxOccurs} :
    ∀ {ps : List Particle} {ss : List MemberSlot}, SlotsFor model outer ps ss →
      ∀ {path : List MaxOccurs}, (∀ m ∈ path, m ≠ .count 0) → outer = effectiveMaximum path →
        EffectiveSlots model path ps ss
  | _, _, .nil, _, _, _ => .nil
  | _, _, .prohibited h, _, hpath, houter => .prohibited (h.effective hpath houter)
  | _, _, .cons hmax hs h, _, hpath, houter =>
    .cons hmax (hs.effective (List.forall_mem_cons.mpr ⟨hmax, hpath⟩)
      (houter ▸ mul_effectiveMaximum hpath hmax)) (h.effective hpath houter)

theorem SlotFor.effective {minimum : Nat} {m : MaxOccurs} :
    ∀ {t : Term} {s : MemberSlot}, SlotFor model minimum m t s →
      ∀ {path : List MaxOccurs}, (∀ m ∈ path, m ≠ .count 0) → m = effectiveMaximum path →
        EffectiveSlot model path minimum t s
  | _, _, .element d className, _, _, hm => hm ▸ .element d className
  | _, _, .elementRef name className, _, _, hm => hm ▸ .elementRef name className
  | _, _, .group h, _, hpath, hm => .group (h.effective hpath hm)
  | _, _, .groupRef hd h, _, hpath, hm => .groupRef hd (h.effective hpath hm)
  | _, _, .wildcard, _, _, hm => hm ▸ .wildcard

theorem MembershipFor.effective {minimum : Nat} {m : MaxOccurs} :
    ∀ {g : ModelGroup} {ms : Membership}, MembershipFor model minimum m g ms →
      ∀ {path : List MaxOccurs}, (∀ m ∈ path, m ≠ .count 0) → m = effectiveMaximum path →
        EffectiveMembership model path minimum g ms
  | _, _, .intro h, _, hpath, hm => by
    have hslots := h.effective hpath hm
    subst hm
    refine .intro hslots ?_
    rw [Membership.collection, isExclusive_iff, effectiveMaximum, MaxOccurs.limited_eq_one]

end

theorem effectiveMaximum_singleton (m : MaxOccurs) : effectiveMaximum [m] = m.limited := by
  cases m <;> simp [effectiveMaximum, productOf, MaxOccurs.count?]

/-- What is built for the particles of a type has the effective bounds, if no bound of a particle
exceeds the limit. -/
theorem buildMembership_effective
    {element : Option String → String → ElementDeclaration → Build String}
    {group : Option String → String → String → Nat → MaxOccurs → Build Membership}
    (hgroup : ∀ declaredIn owner, GroupsKeep model (group declaredIn owner)) (owner : String)
    {ps : List DeclaredParticle}
    (hps : ∀ p ∈ ps, p.particle.maximum.limited = p.particle.maximum) :
    Ensures (fun _ => True) (buildMembership element group owner ps)
      fun ms _ => EffectiveContent model (ps.map (·.particle)) ms := by
  have hfilter : (ps.map (·.particle)).filter (fun p => !p.isProhibited) =
      (ps.filter fun p => !p.particle.isProhibited).map (·.particle) := by
    rw [List.filter_map]
    rfl
  unfold buildMembership EffectiveContent
  rw [hfilter]
  split
  · next h =>
    rw [h]
    exact ensures_pure fun _ _ => rfl
  · next minimum maximum g declaredIn h =>
    rw [h]
    obtain ⟨hmem, hp⟩ := List.mem_filter.mp (h ▸ List.mem_singleton_self _)
    have hmax : ∀ m ∈ [maximum], m ≠ .count 0 := by
      simpa [Particle.isProhibited] using hp
    have hlimited : maximum = effectiveMaximum [maximum] :=
      (hps _ hmem).symm.trans (effectiveMaximum_singleton maximum).symm
    exact (buildGroup_membershipFor (hgroup declaredIn owner) minimum maximum g).bind fun ms =>
      ensures_pure fun _ hms => ⟨ms, rfl, hms.effective hmax hlimited⟩
  · next hnone hgroups =>
    refine (declaredSlots_slotsFor hgroup owner _).bind fun ss => ensures_pure fun _ h => ?_
    rw [← hfilter] at h
    have hslots : EffectiveSlots model [] (ps.map (·.particle)) ss :=
      (slotsFor_filter h).effective (by simp) rfl
    split
    · next heq => exact absurd (List.map_eq_nil_iff.mp heq) hnone
    · next minimum maximum g heq =>
      obtain ⟨⟨p, declaredIn⟩, hp, rfl⟩ := List.map_eq_singleton_iff.mp heq
      exact absurd hp (hgroups minimum maximum g declaredIn)
    · exact ⟨ss, rfl, hslots⟩

end XmlBinding.Binding
