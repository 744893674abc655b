import XmlBinding.Schema.Component

/-! # The words a content model allows

A content model is a regular expression over element names: a particle repeats its term within its
bounds, a sequence puts particles after each other, a choice takes one of them, and a reference to a
group stands for the group. Groups of the kind `all` and wildcards allow no words here.
-/
namespace XmlBinding.Schema

/-- Whether a maximum lets something occur `n` times. -/
def MaxOccurs.Admits : MaxOccurs → Nat → Prop
  | .unbounded, _ => True
  | .count m, n => n ≤ m

section
variable (model : Model)

mutual

inductive TermAllows : Term → List String → Prop
  | element (d : ElementDeclaration) : TermAllows (.element d) [d.name]
  | elementRef (name : String) : TermAllows (.elementRef name) [name]
  | group {g : ModelGroup} {w : List String} (h : GroupAllows g w) : TermAllows (.group g) w
  | groupRef {name : String} {d : GroupDefinition} {w : List String}
      (hd : model.group name = some d) (h : GroupAllows d.group w) : TermAllows (.groupRef name) w

inductive GroupAllows : ModelGroup → List String → Prop
  | sequence {ps : List Particle} {w : List String} (h : SequenceAllows ps w) :
      GroupAllows ⟨.sequence, ps⟩ w
  | choice {ps : List Particle} {p : Particle} {w : List String} (hp : p ∈ ps)
      (h : ParticleAllows p w) : GroupAllows ⟨.choice, ps⟩ w

inductive SequenceAllows : List Particle → List String → Prop
  | nil : SequenceAllows [] []
  | cons {p : Particle} {ps : List Particle} {u v : List String} (h : ParticleAllows p u)
      (hs : SequenceAllows ps v) : SequenceAllows (p :: ps) (u ++ v)

inductive ParticleAllows : Particle → List String → Prop
  | repeated {minimum : Nat} {maximum : MaxOccurs} {term : Term} {ws : List (List String)}
      (hmin : minimum ≤ ws.length) (hmax : maximum.Admits ws.length)
      (h : ∀ w ∈ ws, TermAllows term w) : ParticleAllows ⟨minimum, maximum, term⟩ ws.flatten

end

/-- A term occurs in a particle, at any depth, references to groups being followed. What may occur
at most zero times does not occur. -/
inductive Occurs (t : Term) : Particle → Prop
  | here {minimum : Nat} {maximum : MaxOccurs} (hmax : maximum ≠ .count 0) :
      Occurs t ⟨minimum, maximum, t⟩
  | group {minimum : Nat} {maximum : MaxOccurs} {g : ModelGroup} {p : Particle}
      (hmax : maximum ≠ .count 0) (hp : p ∈ g.particles) (h : Occurs t p) :
      Occurs t ⟨minimum, maximum, .group g⟩
  | groupRef {minimum : Nat} {maximum : MaxOccurs} {name : String} {d : GroupDefinition}
      {p : Particle} (hmax : maximum ≠ .count 0) (hd : model.group name = some d)
      (hp : p ∈ d.group.particles) (h : Occurs t p) :
      Occurs t ⟨minimum, maximum, .groupRef name⟩

/-- The name of the elements that match a term. -/
def Term.elementName? : Term → Option String
  | .element d => some d.name
  | .elementRef name => some name
  | _ => none

def Particle.Mentions (p : Particle) (name : String) : Prop :=
  ∃ t, Occurs model t p ∧ t.elementName? = some name

/-- A group occurs among particles that may occur `outer` times; `m` is its effective maximum, the
product of all maxima on the way. -/
inductive Reaches : MaxOccurs → List Particle → ModelGroup → MaxOccurs → Prop
  | group {outer maximum : MaxOccurs} {ps : List Particle} {minimum : Nat} {g : ModelGroup}
      (hp : ⟨minimum, maximum, .group g⟩ ∈ ps) (hmax : maximum ≠ .count 0) :
      Reaches outer ps g (maximum.mul outer)
  | groupRef {outer maximum : MaxOccurs} {ps : List Particle} {minimum : Nat} {name : String}
      {d : GroupDefinition} (hp : ⟨minimum, maximum, .groupRef name⟩ ∈ ps)
      (hmax : maximum ≠ .count 0) (hd : model.group name = some d) :
      Reaches outer ps d.group (maximum.mul outer)
  | inside {outer m m' : MaxOccurs} {ps : List Particle} {g g' : ModelGroup}
      (h : Reaches outer ps g m) (h' : Reaches m g.particles g' m') : Reaches outer ps g' m'

/-- No element name occurs in both particles. -/
def Particle.DisjointFrom (p q : Particle) : Prop :=
  ∀ name, p.Mentions model name → ¬ q.Mentions model name

/-- A choice with effective maximum 1 has branches in which no element name occurs twice. -/
def ModelGroup.BranchesDisjoint (g : ModelGroup) (m : MaxOccurs) : Prop :=
  g.compositor = .choice → m = .one → g.particles.Pairwise (Particle.DisjointFrom model)

/-- All choices among particles that may occur `outer` times have disjoint branches. -/
def BranchesDisjoint (outer : MaxOccurs) (ps : List Particle) : Prop :=
  ∀ g m, Reaches model outer ps g m → g.BranchesDisjoint model m

/-- A group is met among particles that may occur `outer` times and follow those in `before`. The
last argument has all particles that stand before the group, the earlier branches of choices
included. -/
inductive Meets : MaxOccurs → List Particle → List Particle → ModelGroup → MaxOccurs →
    List Particle → Prop
  | group {outer maximum : MaxOccurs} {before ps qs : List Particle} {minimum : Nat}
      {g : ModelGroup} (hmax : maximum ≠ .count 0) :
      Meets outer before (ps ++ ⟨minimum, maximum, .group g⟩ :: qs) g (maximum.mul outer)
        (before ++ ps)
  | groupRef {outer maximum : MaxOccurs} {before ps qs : List Particle} {minimum : Nat}
      {name : String} {d : GroupDefinition} (hmax : maximum ≠ .count 0)
      (hd : model.group name = some d) :
      Meets outer before (ps ++ ⟨minimum, maximum, .groupRef name⟩ :: qs) d.group
        (maximum.mul outer) (before ++ ps)
  | inside {outer m m' : MaxOccurs} {before before' before'' ps : List Particle}
      {g g' : ModelGroup} (h : Meets outer before ps g m before')
      (h' : Meets m before' g.particles g' m' before'') : Meets outer before ps g' m' before''

/-- Each branch has no element name in common with the branches before it, or it starts with names
only that no particle before it mentions, in this choice or ahead of it. -/
def ModelGroup.Announced (g : ModelGroup) (before : List Particle) : Prop :=
  ∀ qs p rs, g.particles = qs ++ p :: rs → (∀ q ∈ qs, q.DisjointFrom model p) ∨
    ∀ name w, ParticleAllows model p (name :: w) → ∀ q ∈ before ++ qs, ¬ q.Mentions model name

/-- The branches of all choices with effective maximum 1 are announced. -/
def BranchesAnnounced (outer : MaxOccurs) (before ps : List Particle) : Prop :=
  ∀ g m before', Meets model outer before ps g m before' → g.compositor = .choice → m = .one →
    g.Announced model before'

end

variable {model : Model}

theorem Meets.reaches {outer m : MaxOccurs} {before before' ps : List Particle} {g : ModelGroup}
    (h : Meets model outer before ps g m before') : Reaches model outer ps g m := by
  induction h with
  | group hmax => exact .group (List.mem_append_right _ List.mem_cons_self) hmax
  | groupRef hmax hd => exact .groupRef (List.mem_append_right _ List.mem_cons_self) hmax hd
  | inside _ _ ih ih' => exact ih.inside ih'

/-- Disjoint branches need no announcement. -/
theorem BranchesDisjoint.announced {outer : MaxOccurs} {before ps : List Particle}
    (h : BranchesDisjoint model outer ps) : BranchesAnnounced model outer before ps := by
  intro g m before' hg hc hm qs p rs hps
  have hdisjoint := h g m hg.reaches hc hm
  rw [hps, List.pairwise_append] at hdisjoint
  exact .inl fun q hq => hdisjoint.2.2 q hq p List.mem_cons_self

section
variable {outer m : MaxOccurs} {before before' ps qs : List Particle} {p : Particle}
  {g : ModelGroup}

theorem Meets.append (h : Meets model outer before ps g m before') (qs : List Particle) :
    Meets model outer before (ps ++ qs) g m before' := by
  induction h with
  | group hmax =>
    rw [List.append_assoc, List.cons_append]
    exact .group hmax
  | groupRef hmax hd =>
    rw [List.append_assoc, List.cons_append]
    exact .groupRef hmax hd
  | inside _ h' ih _ => exact ih.inside h'

theorem Meets.prepend (h : Meets model outer (before ++ qs) ps g m before') :
    Meets model outer before (qs ++ ps) g m before' := by
  generalize hb : before ++ qs = b at h
  induction h with
  | group hmax =>
    rw [← hb, List.append_assoc, ← List.append_assoc]
    exact .group hmax
  | groupRef hmax hd =>
    rw [← hb, List.append_assoc, ← List.append_assoc]
    exact .groupRef hmax hd
  | inside _ h' ih _ => exact (ih hb).inside h'

theorem BranchesAnnounced.head (h : BranchesAnnounced model outer before (p :: ps)) :
    BranchesAnnounced model outer before [p] :=
  fun g m before' hg => h g m before' (hg.append ps)

/-- What comes after some of the particles. -/
theorem BranchesAnnounced.drop (h : BranchesAnnounced model outer before (qs ++ ps)) :
    BranchesAnnounced model outer (before ++ qs) ps :=
  fun g m before' hg => h g m before' hg.prepend

theorem BranchesAnnounced.tail (h : BranchesAnnounced model outer before (p :: ps)) :
    BranchesAnnounced model outer (before ++ [p]) ps :=
  BranchesAnnounced.drop h

/-- What holds of a model holds inside of every group in it. -/
theorem BranchesAnnounced.inside (h : BranchesAnnounced model outer before ps)
    (hg : Meets model outer before ps g m before') :
    BranchesAnnounced model m before' g.particles :=
  fun g' m' before'' hg' => h g' m' before'' (hg.inside hg')

theorem meets_group {maximum : MaxOccurs} (minimum : Nat) (hmax : maximum ≠ .count 0) :
    Meets model outer before [⟨minimum, maximum, .group g⟩] g (maximum.mul outer) before := by
  simpa using @Meets.group model outer maximum before [] [] minimum g hmax

theorem meets_groupRef {maximum : MaxOccurs} (minimum : Nat) {name : String} {d : GroupDefinition}
    (hmax : maximum ≠ .count 0) (hd : model.group name = some d) :
    Meets model outer before [⟨minimum, maximum, .groupRef name⟩] d.group (maximum.mul outer)
      before := by
  simpa using @Meets.groupRef model outer maximum before [] [] minimum name d hmax hd

end

mutual

/-- Words have names only that are mentioned. -/
theorem TermAllows.mentions {minimum : Nat} {maximum : MaxOccurs} (hmax : maximum ≠ .count 0)
    {name : String} : ∀ {t : Term} {w : List String}, TermAllows model t w → name ∈ w →
      Particle.Mentions model ⟨minimum, maximum, t⟩ name
  | _, _, .element d, hn => by
    obtain rfl := List.mem_singleton.mp hn
    exact ⟨_, .here hmax, rfl⟩
  | _, _, .elementRef _, hn => by
    obtain rfl := List.mem_singleton.mp hn
    exact ⟨_, .here hmax, rfl⟩
  | _, _, .group h, hn => by
    obtain ⟨p, hp, t, ht, htn⟩ := h.mentions hn
    exact ⟨t, .group hmax hp ht, htn⟩
  | _, _, .groupRef hd h, hn => by
    obtain ⟨p, hp, t, ht, htn⟩ := h.mentions hn
    exact ⟨t, .groupRef hmax hd hp ht, htn⟩

theorem GroupAllows.mentions {name : String} : ∀ {g : ModelGroup} {w : List String},
    GroupAllows model g w → name ∈ w → ∃ p ∈ g.particles, p.Mentions model name
  | _, _, .sequence h, hn => h.mentions hn
  | _, _, .choice hp h, hn => ⟨_, hp, h.mentions hn⟩

theorem SequenceAllows.mentions {name : String} : ∀ {ps : List Particle} {w : List String},
    SequenceAllows model ps w → name ∈ w → ∃ p ∈ ps, p.Mentions model name
  | _, _, .cons h hs, hn => by
    rcases List.mem_append.mp hn with hn | hn
    · exact ⟨_, List.mem_cons_self, h.mentions hn⟩
    · obtain ⟨p, hp, hpn⟩ := hs.mentions hn
      exact ⟨p, List.mem_cons_of_mem _ hp, hpn⟩

theorem ParticleAllows.mentions {name : String} : ∀ {p : Particle} {w : List String},
    ParticleAllows model p w → name ∈ w → p.Mentions model name
  | ⟨_, maximum, _⟩, _, .repeated _ hadmits h, hn => by
    obtain ⟨u, hu, hnu⟩ := List.mem_flatten.mp hn
    refine (h u hu).mentions (fun hmax => ?_) hnu
    subst hmax
    rw [List.length_eq_zero_iff.mp (Nat.le_zero.mp hadmits)] at hu
    cases hu

end

theorem eq_nil_of_prohibited {minimum : Nat} {t : Term} {w : List String}
    (h : ParticleAllows model ⟨minimum, .count 0, t⟩ w) : w = [] := by
  cases h with
  | repeated _ hmax _ =>
    rw [List.length_eq_zero_iff.mp (Nat.le_zero.mp hmax)]
    rfl

/-- Particles that cannot occur do not matter to the words of a sequence. -/
theorem SequenceAllows.filter {ps : List Particle} {w : List String}
    (h : SequenceAllows model ps w) :
    SequenceAllows model (ps.filter fun p => !p.isProhibited) w := by
  induction ps generalizing w with
  | nil => exact h
  | cons p ps ih =>
    obtain ⟨minimum, maximum, t⟩ := p
    cases h with
    | cons h hs =>
      by_cases hp : maximum = .count 0
      · subst hp
        rw [eq_nil_of_prohibited h]
        exact ih hs
      · rw [List.filter_cons, if_pos (by simpa [Particle.isProhibited] using hp)]
        exact .cons h (ih hs)

end XmlBinding.Schema
