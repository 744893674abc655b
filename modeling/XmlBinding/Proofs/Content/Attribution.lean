import XmlBinding.Proofs.Content.Language

/-! # Which particle a name belongs to

A derivation of a word attributes every name to an element particle of the content model, told by
the places of the particles on the way there. A model is attributed uniquely if the names read so
far and the next one leave one particle for the next one, whatever follows.
-/
namespace XmlBinding.Schema

/-- A name and the way to a particle. -/
abbrev Attributed := List (String × List Nat)

section
variable (model : Model)

mutual

inductive TermMatches : List Nat → Term → Attributed → Prop
  | element {way : List Nat} (d : ElementDeclaration) :
      TermMatches way (.element d) [(d.name, way)]
  | elementRef {way : List Nat} (name : String) : TermMatches way (.elementRef name) [(name, way)]
  | group {way : List Nat} {g : ModelGroup} {w : Attributed} (h : GroupMatches way g w) :
      TermMatches way (.group g) w
  | groupRef {way : List Nat} {name : String} {d : GroupDefinition} {w : Attributed}
      (hd : model.group name = some d) (h : GroupMatches way d.group w) :
      TermMatches way (.groupRef name) w

inductive GroupMatches : List Nat → ModelGroup → Attributed → Prop
  | sequence {way : List Nat} {ps : List Particle} {w : Attributed}
      (h : SequenceMatches way 0 ps w) : GroupMatches way ⟨.sequence, ps⟩ w
  | choice {way : List Nat} {ps : List Particle} {i : Nat} {p : Particle} {w : Attributed}
      (hp : ps[i]? = some p) (h : ParticleMatches (way ++ [i]) p w) :
      GroupMatches way ⟨.choice, ps⟩ w

/-- The particles stand behind `i` others. -/
inductive SequenceMatches : List Nat → Nat → List Particle → Attributed → Prop
  | nil {way : List Nat} {i : Nat} : SequenceMatches way i [] []
  | cons {way : List Nat} {i : Nat} {p : Particle} {ps : List Particle} {u v : Attributed}
      (h : ParticleMatches (way ++ [i]) p u) (hs : SequenceMatches way (i + 1) ps v) :
      SequenceMatches way i (p :: ps) (u ++ v)

inductive ParticleMatches : List Nat → Particle → Attributed → Prop
  | repeated {way : List Nat} {minimum : Nat} {maximum : MaxOccurs} {term : Term}
      {ws : List Attributed} (hmin : minimum ≤ ws.length) (hmax : maximum.Admits ws.length)
      (h : ∀ w ∈ ws, TermMatches way term w) :
      ParticleMatches way ⟨minimum, maximum, term⟩ ws.flatten

end

/-- Reading names from left to right, each next name can be matched by one particle only. -/
def UniquelyAttributed (ps : List Particle) : Prop :=
  ∀ u v u' v' name way way', SequenceMatches model [] 0 ps (u ++ (name, way) :: u') →
    SequenceMatches model [] 0 ps (v ++ (name, way') :: v') → u.map (·.1) = v.map (·.1) →
      way = way'

end

variable {model : Model}

mutual

/-- The names of a derivation form an allowed word. -/
theorem TermMatches.allows {way : List Nat} : ∀ {t : Term} {w : Attributed},
    TermMatches model way t w → TermAllows model t (w.map (·.1))
  | _, _, .element d => .element d
  | _, _, .elementRef name => .elementRef name
  | _, _, .group h => .group h.allows
  | _, _, .groupRef hd h => .groupRef hd h.allows

theorem GroupMatches.allows {way : List Nat} : ∀ {g : ModelGroup} {w : Attributed},
    GroupMatches model way g w → GroupAllows model g (w.map (·.1))
  | _, _, .sequence h => .sequence h.allows
  | _, _, .choice hp h => .choice (List.mem_of_getElem? hp) h.allows

theorem SequenceMatches.allows {way : List Nat} : ∀ {i : Nat} {ps : List Particle}
    {w : Attributed}, SequenceMatches model way i ps w → SequenceAllows model ps (w.map (·.1))
  | _, _, _, .nil => .nil
  | _, _, _, .cons h hs => by
    rw [List.map_append]
    exact .cons h.allows hs.allows

theorem ParticleMatches.allows {way : List Nat} : ∀ {p : Particle} {w : Attributed},
    ParticleMatches model way p w → ParticleAllows model p (w.map (·.1))
  | _, _, @ParticleMatches.repeated _ _ minimum maximum term ws hmin hmax h => by
    rw [List.map_flatten]
    refine .repeated (by rwa [List.length_map]) (by rwa [List.length_map]) fun w hw => ?_
    obtain ⟨u, hu, rfl⟩ := List.mem_map.mp hw
    exact (h u hu).allows

end

section
variable {way : List Nat} {t : Term} {w : Attributed} {n : Nat}

/-- What occurs once has one word of its term. -/
theorem particleMatches_one_iff :
    ParticleMatches model way ⟨1, .one, t⟩ w ↔ TermMatches model way t w := by
  constructor
  · rintro @⟨_, _, _, _, ws, hmin, hmax, h⟩
    obtain ⟨u, rfl⟩ := List.length_eq_one_iff.mp (Nat.le_antisymm hmax hmin)
    simpa using h u
  · intro h
    have hws : ParticleMatches model way ⟨1, .one, t⟩ [w].flatten :=
      .repeated (Nat.le_refl 1) (Nat.le_refl 1) fun u hu => List.mem_singleton.mp hu ▸ h
    simpa using hws

theorem termMatches_elementRef_iff {name : String} :
    TermMatches model way (.elementRef name) w ↔ w = [(name, way)] := by
  constructor
  · rintro ⟨⟩
    rfl
  · rintro rfl
    exact .elementRef name

theorem sequenceMatches_nil_iff : SequenceMatches model way n [] w ↔ w = [] := by
  constructor
  · rintro ⟨⟩
    rfl
  · rintro rfl
    exact .nil

theorem sequenceMatches_cons_iff {p : Particle} {ps : List Particle} :
    SequenceMatches model way n (p :: ps) w ↔ ∃ u v, ParticleMatches model (way ++ [n]) p u ∧
      SequenceMatches model way (n + 1) ps v ∧ w = u ++ v := by
  constructor
  · intro h
    cases h with
    | cons h hs => exact ⟨_, _, h, hs, rfl⟩
  · rintro ⟨u, v, h, hs, rfl⟩
    exact .cons h hs

theorem termMatches_sequence_iff {ps : List Particle} :
    TermMatches model way (.group ⟨.sequence, ps⟩) w ↔ SequenceMatches model way 0 ps w := by
  constructor
  · intro h
    obtain - | - | ⟨⟨h⟩⟩ | - := h
    exact h
  · exact fun h => .group (.sequence h)

theorem termMatches_choice_iff {ps : List Particle} :
    TermMatches model way (.group ⟨.choice, ps⟩) w ↔
      ∃ i p, ps[i]? = some p ∧ ParticleMatches model (way ++ [i]) p w := by
  constructor
  · intro h
    obtain - | - | h | - := h
    obtain - | ⟨hp, h⟩ := h
    exact ⟨_, _, hp, h⟩
  · rintro ⟨i, p, hp, h⟩
    exact .group (.choice hp h)

end

end XmlBinding.Schema
