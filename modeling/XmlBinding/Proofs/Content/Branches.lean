import XmlBinding.Proofs.Collection.Slots
import XmlBinding.Proofs.Content.Language
import XmlBinding.Proofs.Content.Membership

/-! # Slots and the particles they come from

A slot is named after a term that occurs in the content model, in the particle it was made for.
-/
namespace XmlBinding.Binding
open Schema XmlBinding.Tree

variable {model : Model}

/-- The term that a slot stands for: a wildcard, or the elements of its name. -/
def StandsFor (model : Model) (p : Particle) (s : Slot) : Prop :=
  ∃ t, Occurs model t p ∧ t.elementName? = s.name ∧ (s.name = none → t = .wildcard)

mutual

theorem SlotsFor.standsFor {outer : MaxOccurs} : ∀ {ps : List Particle} {ss : List MemberSlot},
    SlotsFor model outer ps ss →
      ∀ s ∈ slotsOfEntries (slotEntries ss), ∃ p ∈ ps, StandsFor model p s
  | _, _, .prohibited hs, s, h => by
    obtain ⟨p, hp, hps⟩ := hs.standsFor s h
    exact ⟨p, List.mem_cons_of_mem _ hp, hps⟩
  | _, _, .cons hmax hslot hs, s, h => by
    rcases List.mem_append.mp h with h | h
    · exact ⟨_, List.mem_cons_self, hslot.standsFor hmax s h⟩
    · obtain ⟨p, hp, hps⟩ := hs.standsFor s h
      exact ⟨p, List.mem_cons_of_mem _ hp, hps⟩

theorem SlotFor.standsFor {minimum minimum' : Nat} {m maximum : MaxOccurs} :
    ∀ {t : Term} {slot : MemberSlot}, SlotFor model minimum m t slot → maximum ≠ .count 0 →
      ∀ s ∈ slot.entry.slots, StandsFor model ⟨minimum', maximum, t⟩ s
  | _, _, .element d _, hmax, s, h => by
    obtain rfl := List.mem_singleton.mp h
    exact ⟨_, .here hmax, rfl, fun hn => by cases hn⟩
  | _, _, .elementRef name _, hmax, s, h => by
    obtain rfl := List.mem_singleton.mp h
    exact ⟨_, .here hmax, rfl, fun hn => by cases hn⟩
  | _, _, .group hms, hmax, s, h => by
    obtain ⟨p, hp, t, ht, hts⟩ := hms.standsFor s h
    exact ⟨t, .group hmax hp ht, hts⟩
  | _, _, .groupRef hd hms, hmax, s, h => by
    obtain ⟨p, hp, t, ht, hts⟩ := hms.standsFor s h
    exact ⟨t, .groupRef hmax hd hp ht, hts⟩
  | _, _, .wildcard, hmax, s, h => by
    obtain rfl := List.mem_singleton.mp h
    exact ⟨_, .here hmax, rfl, fun _ => rfl⟩

theorem MembershipFor.standsFor {minimum : Nat} {m : MaxOccurs} :
    ∀ {g : ModelGroup} {ms : Membership}, MembershipFor model minimum m g ms →
      ∀ s ∈ ms.collection.slots, ∃ p ∈ g.particles, StandsFor model p s
  | _, _, .intro hs, s, h => hs.standsFor s h

end

theorem StandsFor.mentions {p : Particle} {s : Slot} {name : String} (h : StandsFor model p s)
    (hn : s.name = some name) : p.Mentions model name := by
  obtain ⟨t, ht, hts, -⟩ := h
  exact ⟨t, ht, hts.trans hn⟩

theorem mem_of_filter_eq_singleton {ps : List Particle} {p : Particle}
    (h : ps.filter (fun p => !p.isProhibited) = [p]) : p ∈ ps ∧ p.maximum ≠ .count 0 := by
  have hmem := List.mem_filter.mp (h ▸ List.mem_singleton_self p)
  simpa [Particle.isProhibited] using hmem

theorem ContentMembership.standsFor {ps : List Particle} {ms : Membership}
    (h : ContentMembership model ps (some ms)) :
    ∀ s ∈ ms.collection.slots, ∃ p ∈ ps, StandsFor model p s := by
  cases h with
  | group hps hms =>
    obtain ⟨hp, hmax⟩ := mem_of_filter_eq_singleton hps
    intro s hs
    obtain ⟨q, hq, t, ht, hts⟩ := hms.standsFor s hs
    exact ⟨_, hp, t, .group hmax hq ht, hts⟩
  | sequence hs => exact hs.standsFor

end XmlBinding.Binding
