import XmlBinding.Proofs.Schema.Sources

/-! # The bounds of particles as they are read

A count that exceeds the limit is no count, so a particle that was read has a bound within the
limit, however deep inside of a component it is declared.
-/
namespace XmlBinding.Schema
open Xml Value

/-- No bound is told apart from the limit that exceeds it. -/
def MaxOccurs.limited : MaxOccurs → MaxOccurs
  | .unbounded => .unbounded
  | .count n => .count (min n countLimit)

/-- The particle that a type states besides that of its base. -/
def ComplexContent.own? : ComplexContent → Option Particle
  | .particle p => some p
  | .extension _ p => p
  | .empty | .simpleExtension _ | .simpleRestriction _ => none

/-- What a type states itself is bounded within the limit. -/
def ComplexType.Limited (t : ComplexType) : Prop :=
  ∀ p ∈ t.content.own?, p.maximum.limited = p.maximum

/-- The complex types among declarations are. -/
def DeclareLimited (xs : List Declared) : Prop :=
  ∀ t, .inr t ∈ xs → t.Limited

/-! ## Readers -/

/-- A numeral is read only up to the greatest value of its type. -/
theorem toNat_le_of_read {t : IntegerType} {s : String} {n : Int} (h : t.read s = .ok n) :
    n.toNat ≤ t.max := by
  have hdigits {r : List Char} (h : (do return ((← readDigits t.max .tooLarge 0 r : Nat) : Int)) =
      Except.ok (ε := ValueFault) n) : n.toNat ≤ t.max := by
    obtain ⟨k, hread, h⟩ := ok_of_bind h
    cases h
    exact readDigits_le hread (Nat.zero_le _)
  rw [IntegerType.read] at h
  unfold IntegerType.readNumeral at h
  split at h
  · cases h
  · cases h
  · cases h
  · exact hdigits h
  · split at h
    · obtain ⟨k, -, h⟩ := ok_of_bind h
      cases h
      simp
    · cases h
  · exact hdigits h

theorem convertCount_le {s : String} {n : Nat} (h : convertCount s = .ok n) : n ≤ countLimit := by
  unfold convertCount at h
  split at h
  · next k hk =>
    cases h
    exact toNat_le_of_read hk
  · cases h

theorem yields_attributeAs {α : Type} (convert : String → Except AttributeFault α) (e : Element)
    (name : String) :
    Yields (attributeAs convert e name) fun r => ∀ a ∈ r, ∃ value, convert value = .ok a := by
  unfold attributeAs
  split
  · exact yields_ok (by simp)
  · next value _ =>
    split
    · next a ha => exact yields_ok fun b hb => ⟨value, Option.some.inj hb ▸ ha⟩
    · exact yields_error

theorem readMaximum_limited (e : Element) : Yields (readMaximum e) fun m => m.limited = m := by
  unfold readMaximum
  split
  · exact yields_ok rfl
  · refine (yields_attributeAs convertCount e "maxOccurs").bind fun n hn => yields_ok ?_
    cases n with
    | none => rfl
    | some n =>
      obtain ⟨value, hvalue⟩ := hn n rfl
      exact congrArg MaxOccurs.count (Nat.min_eq_left (convertCount_le hvalue))

/-- What a type has read so far is bounded within the limit. -/
structure ContentParts.Limited (parts : ContentParts) : Prop where
  content : ∀ c ∈ parts.content, ∀ p ∈ c.own?, p.maximum.limited = p.maximum
  particle : ∀ p ∈ parts.particle, p.maximum.limited = p.maximum

/-- A content that is no more than a particle. -/
theorem limited_of_particle {particle : Option Particle}
    (h : ∀ p ∈ particle, p.maximum.limited = p.maximum) :
    ∀ p ∈ (particle.elim ComplexContent.empty .particle).own?, p.maximum.limited = p.maximum := by
  cases particle with
  | none => simp [ComplexContent.own?]
  | some p => exact h

theorem readParticle_limited (parent : String) (e : Element) :
    Yields (readParticle parent e) fun p => p.maximum.limited = p.maximum := by
  rw [readParticle]
  exact yields_bind fun minimum => (readMaximum_limited e).bind fun maximum hmax =>
    yields_bind fun term => yields_ok hmax

theorem kept_limited :
    ContentParts.Kept ContentParts.Limited fun p => p.maximum.limited = p.maximum where
  start _ := ⟨nofun, nofun⟩
  mixed _ h := ⟨h.content, h.particle⟩
  uses _ h := ⟨h.content, h.particle⟩
  particle h hp := ⟨h.content, fun _ hq => Option.some.inj hq ▸ hp⟩
  simpleExtension _ h := ⟨fun _ hc => Option.some.inj hc ▸ nofun, h.particle⟩
  simpleRestriction _ h := ⟨fun _ hc => Option.some.inj hc ▸ nofun, h.particle⟩
  extension _ h := ⟨fun _ hc => Option.some.inj hc ▸ h.particle, nofun⟩
  restriction h := ⟨fun _ hc => Option.some.inj hc ▸ limited_of_particle h.particle, nofun⟩

theorem readComplexType_limited (e : Element) : Yields (readComplexType e) ComplexType.Limited := by
  intro t ht
  obtain ⟨-, parts, hparts, hcontent⟩ := kept_limited.readComplexType
    (fun parent _ c _ _ => readParticle_limited parent c) t ht
  rw [ComplexType.Limited, hcontent]
  cases hcontent : parts.content with
  | none => exact limited_of_particle hparts.particle
  | some content => exact hparts.content content hcontent

/-! ## Schemas -/

/-- Whatever a schema declares is bounded within the limit. -/
theorem declareLimited_of_readSchema {text : String} {allowDoctype : Bool} {model : Model}
    (h : readSchema allowDoctype text = .ok model) : DeclareLimited model.declared := by
  obtain ⟨root, -, hread⟩ := readSchema_eq_ok.mp h
  intro t ht
  obtain ⟨e, -, he⟩ := (readInside_of_readModel hread).declared t ht
  exact readComplexType_limited e t he

end XmlBinding.Schema
