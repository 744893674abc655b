import XmlBinding.Proofs.Content.Admission
import XmlBinding.Proofs.Content.Attribution
import XmlBinding.Proofs.Schema.Keys
import XmlBinding.Proofs.Tree.Reloading

/-! # Loading allowed content

While a document is loaded, a parent gets its children in document order and nothing else changes
what it holds: the child is new, and filling it changes the child and what is made below it.
So the collection of the parent has taken the names read so far, and it takes the next one if the
content model allows them all and announces its branches.
-/
namespace XmlBinding.Tree
open Schema Binding Xml

section
variable {l : Loader} {s s' s'' : Store} {id : Nat} {n : Node} {name value : String}

/-- What changes below an element, in elements that are new, does not change the element. -/
theorem Store.Changes.beneath (h : s.Changes id n s') (hid : id < s.length) {child : Nat} {k : Node}
    (h' : s'.Changes child k s'') (hchild : s.length ≤ child) : s.Changes id n s'' where
  length := Nat.le_trans h.length h'.length
  node := h'.others id n (by omega) h.node
  others j k hj hk := by
    have hlt := (List.getElem?_eq_some_iff.mp hk).1
    exact h'.others j k (by omega) (h.others j k hj hk)

/-- Only what is set by name changes. -/
theorem exists_node_setValue {n' : Node} (h : n.setValue name value = .ok n') :
    ∃ recorded values, n' = { n with recorded, values } := by
  rw [Node.setValue] at h
  split at h
  · exact ⟨_, _, (Except.ok.inj h).symm⟩
  · exact ⟨_, _, (Except.ok.inj h).symm⟩
  · split at h
    · exact ⟨_, _, (Except.ok.inj h).symm⟩
    · split at h
      · exact ⟨_, _, (Except.ok.inj h).symm⟩
      · split at h
        · exact ⟨_, _, (Except.ok.inj h).symm⟩
        · cases h

theorem exists_changes_of_setValue (hn : s[id]? = some n)
    (h : s.setValue id name value = .ok s') :
    ∃ recorded values, s.Changes id { n with recorded, values } s' ∧ s'.length = s.length := by
  rw [Store.setValue, hn] at h
  cases hset : n.setValue name value with
  | error e => simp [hset, Except.map] at h
  | ok n' =>
    simp only [hset, Except.map, Except.ok.injEq] at h
    obtain ⟨recorded, values, rfl⟩ := exists_node_setValue hset
    exact ⟨recorded, values, h ▸ Store.changes_update hn _, by simp [← h, Store.update]⟩

theorem exists_changes_of_setAttributes {as : List Attribute} (hn : s[id]? = some n)
    (h : Loader.setAttributes id as s = .ok s') :
    ∃ recorded values, s.Changes id { n with recorded, values } s' ∧ s'.length = s.length := by
  induction as generalizing s n with
  | nil =>
    obtain rfl := Except.ok.inj h
    exact ⟨n.recorded, n.values, ⟨Nat.le_refl _, hn, fun _ _ _ hk => hk⟩, rfl⟩
  | cons a as ih =>
    rw [Loader.setAttributes] at h
    split at h
    · exact ih hn h
    · obtain ⟨s₁, hset, h⟩ := ok_of_bind h
      obtain ⟨recorded, values, h₁, hlength⟩ := exists_changes_of_setValue hn hset
      obtain ⟨recorded', values', h₂, hlength'⟩ := ih h₁.node h
      exact ⟨recorded', values', h₁.trans h₂, hlength'.trans hlength⟩

theorem exists_create_of_make {kind : Kind} {missing : TreeError} {r : Store × Nat}
    (h : l.make kind missing s = .ok r) : ∃ q ∈ l.blueprints, r = s.create q.2 := by
  rw [Loader.make, Blueprints.get?] at h
  cases hfind : l.blueprints.find? (·.1 = kind) with
  | none => simp [hfind] at h
  | some q =>
    simp only [hfind, Option.map_some, Except.ok.injEq] at h
    exact ⟨q, List.mem_of_find?_eq_some hfind, h.symm⟩

theorem exists_create_of_create {r : Store × Nat} (h : l.create name s = .ok r) :
    ∃ q ∈ l.blueprints, r = s.create q.2 := by
  rw [Loader.create] at h
  split at h
  · exact exists_create_of_make h
  · cases h

theorem exists_create_of_createDeclared {p : Node} {r : Store × Nat}
    (h : l.createDeclared p name s = .ok r) : ∃ q ∈ l.blueprints, r = s.create q.2 := by
  rw [Loader.createDeclared] at h
  split at h
  · cases h
  · split at h
    · cases h
    · exact exists_create_of_make h

/-- Children are made at the end of the store, of kinds that exist. -/
theorem exists_create_of_createChild {p : Node} {r : Store × Nat}
    (h : l.createChild p name s = .ok r) : ∃ q ∈ l.blueprints, r = s.create q.2 := by
  rw [Loader.createChild] at h
  split at h
  · exact exists_create_of_create h
  · exact exists_create_of_createDeclared h

/-- An element fills with its attributes, its content and its text. -/
theorem stages_of_fill {e : Element} (hn : s[id]? = some n) (h : l.fill id e s = .ok s') :
    ∃ recorded values s₁ s₂, s.Changes id { n with recorded, values } s₁ ∧
      s₁.length = s.length ∧ l.fillContent id e.content s₁ = .ok s₂ ∧
        ∀ k, s₂[id]? = some k → ∃ recorded values,
          s₂.Changes id { k with recorded, values } s' ∧ s'.length = s₂.length := by
  obtain ⟨_, attributes, _, content⟩ := e
  rw [Loader.fill] at h
  obtain ⟨s₁, hset, h⟩ := ok_of_bind h
  obtain ⟨s₂, hfill, h⟩ := ok_of_bind h
  obtain ⟨recorded, values, h₁, hlength⟩ := exists_changes_of_setAttributes hn hset
  refine ⟨recorded, values, s₁, s₂, h₁, hlength, hfill, fun k hk => ?_⟩
  split at h
  · obtain rfl := Except.ok.inj h
    exact ⟨k.recorded, k.values, ⟨Nat.le_refl _, hk, fun _ _ _ hj => hj⟩, rfl⟩
  · exact exists_changes_of_setValue hk h

end

/-- An element has been made for a tag and is held, but is still to be filled. -/
structure Loader.Adds (l : Loader) (s : Store) (id : Nat) (n : Node) (tag : String) (b : Blueprint)
    (c : Collection) (s' : Store) : Prop where
  known : ∃ kind, (kind, b) ∈ l.blueprints
  made : l.createChild n tag s = .ok (s.create b)
  added : ∃ c₀, n.collection = some c₀ ∧ c₀.add ⟨s.length, b.elementName⟩ = .ok c
  child : s'[s.length]? = some { b.node with parent := some id }
  length : s'.length = s.length + 1
  changes : s.Changes id { n with collection := some c } s'

/-- A new element goes into the collection of its parent before it is filled. -/
theorem exists_adds_of_fillItem {l : Loader} {e : Element} {s s' : Store} {id : Nat} {n : Node}
    (hn : s[id]? = some n) (h : l.fillItem id (.element e) s = .ok s') :
    ∃ b c s₁, l.Adds s id n e.tag b c s₁ ∧ l.fill s.length e s₁ = .ok s' := by
  rw [Loader.fillItem, hn] at h
  obtain ⟨r, hcreate, h⟩ := ok_of_bind h
  obtain ⟨⟨kind, b⟩, hb, rfl⟩ := exists_create_of_createChild hcreate
  obtain ⟨s₁, hadd, hfill⟩ : ∃ s₁, (s.create b).1.addChild id (s.create b).2 = .ok s₁ ∧
      l.fill s.length e s₁ = .ok s' := ok_of_bind h
  obtain ⟨p, c₀, c, hp, hc₀, hc, -⟩ := Store.addChild_eq_ok hadd
  have hold : (s.create b).1[id]? = some n :=
    (List.getElem?_append_left (List.getElem?_eq_some_iff.mp hn).1).trans hn
  obtain rfl := Option.some.inj (hold.symm.trans hp)
  have hchild : (s.create b).1.childOf (s.create b).2 = ⟨s.length, b.elementName⟩ := by
    simp [Store.childOf, Store.create, Store.next, Blueprint.node, Node.name]
  rw [hchild] at hc
  obtain ⟨s₂, hs₂, hlength, hnew, hchanges⟩ := Store.addChild_create hn hc₀ hc
  obtain rfl := Except.ok.inj (hs₂.symm.trans hadd)
  exact ⟨b, c, s₂, ⟨⟨kind, hb⟩, hcreate, ⟨c₀, hc₀, hc⟩, hnew, hlength, hchanges⟩, hfill⟩

/-- An element has taken a child from a document. -/
structure Loader.Takes (l : Loader) (s : Store) (id : Nat) (n : Node) (tag : String)
    (c : Collection) (s' : Store) : Prop where
  added : ∃ b c₀, l.createChild n tag s = .ok (s.create b) ∧ n.collection = some c₀ ∧
    c₀.add ⟨s.length, b.elementName⟩ = .ok c
  changes : s.Changes id { n with collection := some c } s'

mutual

/-- Filling an element changes that element and makes new ones. -/
theorem exists_changes_of_fill {l : Loader} : ∀ (e : Element) {s s' : Store} {id : Nat} {n : Node},
    s[id]? = some n → l.fill id e s = .ok s' → ∃ n', s.Changes id n' s'
  | ⟨_, _, _, content⟩, s, s', id, n, hn, h => by
    obtain ⟨_, _, s₁, s₂, h₁, -, hfill, hlast⟩ := stages_of_fill hn h
    obtain ⟨n₂, h₂⟩ := exists_changes_of_fillContent content h₁.node hfill
    obtain ⟨_, _, h₃, -⟩ := hlast n₂ h₂.node
    exact ⟨_, (h₁.trans h₂).trans h₃⟩

theorem exists_changes_of_fillContent {l : Loader} :
    ∀ (cs : List Content) {s s' : Store} {id : Nat} {n : Node},
      s[id]? = some n → l.fillContent id cs s = .ok s' → ∃ n', s.Changes id n' s'
  | [], s, s', id, n, hn, h => ⟨n, Except.ok.inj h ▸ ⟨Nat.le_refl _, hn, fun _ _ _ hk => hk⟩⟩
  | c :: cs, s, s', id, n, hn, h => by
    rw [Loader.fillContent] at h
    obtain ⟨s₁, hitem, h⟩ := ok_of_bind h
    obtain ⟨n₁, h₁⟩ : ∃ n₁, s.Changes id n₁ s₁ := by
      cases c with
      | element e =>
        obtain ⟨c', htakes⟩ := exists_takes_of_fillItem e hn hitem
        exact ⟨_, htakes.changes⟩
      | _ => exact ⟨n, Except.ok.inj hitem ▸ ⟨Nat.le_refl _, hn, fun _ _ _ hk => hk⟩⟩
    obtain ⟨n₂, h₂⟩ := exists_changes_of_fillContent cs h₁.node h
    exact ⟨n₂, h₁.trans h₂⟩

theorem exists_takes_of_fillItem {l : Loader} :
    ∀ (e : Element) {s s' : Store} {id : Nat} {n : Node}, s[id]? = some n →
      l.fillItem id (.element e) s = .ok s' → ∃ c, l.Takes s id n e.tag c s'
  | e, s, s', id, n, hn, h => by
    obtain ⟨b, c, s₁, hadds, hfill⟩ := exists_adds_of_fillItem hn h
    obtain ⟨c₀, hc₀, hc⟩ := hadds.added
    obtain ⟨k, hk⟩ := exists_changes_of_fill e hadds.child hfill
    exact ⟨c, ⟨b, c₀, hadds.made, hc₀, hc⟩,
      hadds.changes.beneath (List.getElem?_eq_some_iff.mp hn).1 hk (Nat.le_refl _)⟩

end

/-- The names of the elements among the content of an element. -/
def tagsOf (content : List Content) : List String :=
  (content.filterMap Content.element?).map Element.tag

/-- What is made for a name, for parents of this class, has that name. -/
def Loader.NamesChildren (l : Loader) (b : Blueprint) (names : List String) : Prop :=
  ∀ p : Node, p.blueprint = b → ∀ name ∈ names, ∀ s child,
    l.createChild p name s = .ok (s.create child) → child.elementName = name

/-- What a parent holds after some of its content has been loaded are children of their names. -/
theorem exists_addAll_of_fillContent {l : Loader} {content : List Content} {s s' : Store} {id : Nat}
    {n : Node} {c : Collection} (hn : s[id]? = some n) (hc : n.collection = some c)
    (hnames : l.NamesChildren n.blueprint (tagsOf content))
    (h : l.fillContent id content s = .ok s') :
    ∃ xs c', xs.map Child.name = tagsOf content ∧ c.addAll xs = .ok c' ∧
      s'[id]? = some { n with collection := some c' } := by
  induction content generalizing s n c with
  | nil =>
    refine ⟨[], c, rfl, rfl, ?_⟩
    rw [← Except.ok.inj h, ← hc]
    exact hn
  | cons item content ih =>
    rw [Loader.fillContent] at h
    obtain ⟨s₁, hitem, hrest⟩ := ok_of_bind h
    cases item with
    | element e =>
      obtain ⟨c₁, ⟨b, c₀, hcreate, hc₀, hadd⟩, hchanges⟩ := exists_takes_of_fillItem e hn hitem
      obtain rfl := Option.some.inj (hc.symm.trans hc₀)
      have hname : b.elementName = e.tag :=
        hnames n rfl e.tag List.mem_cons_self s b hcreate
      obtain ⟨xs, c', hxs, hall, hs'⟩ := ih hchanges.node rfl
        (fun p hp name hn => hnames p hp name (List.mem_cons_of_mem _ hn)) hrest
      refine ⟨⟨s.length, e.tag⟩ :: xs, c', congrArg (e.tag :: ·) hxs, ?_, hs'⟩
      rw [Collection.addAll, List.foldlM_cons, ← hname, hadd]
      exact hall
    | _ =>
      obtain rfl := Except.ok.inj hitem
      exact ih hn hc hnames hrest

end XmlBinding.Tree

namespace XmlBinding.Binding
open Schema XmlBinding.Tree

variable {model : Model}

/-- The collection of a content model with announced branches takes all words that it allows. -/
theorem ContentMembership.exists_addAll {ps : List Particle} {ms : Membership}
    (h : ContentMembership model ps (some ms)) (hwild : ∀ p ∈ ps, ¬ Occurs model .wildcard p)
    (hb : BranchesAnnounced model .one [] ps) {xs : List Child}
    (hw : SequenceAllows model ps (xs.map (·.name))) (hlen : xs.length < 2 ^ 64) :
    ∃ full, ms.collection.addAll xs = .ok full := by
  obtain ⟨d, hd⟩ := h.filling_of_announced hwild hb hw (by rwa [List.length_map])
  have hnames := List.forall₂_map_left_iff.mp hd.fits.names
  rw [← List.nil_append d] at hd
  refine hd.exists_addAll (ahead_nil ms.held_eq_nil) (hnames.imp fun x q ⟨s, hs, hn⟩ => ?_)
  rw [slotName, hs, Option.bind_some, hn]

/-- Loading the content of an element of a class, whose content model announces its branches and
allows the names of the children, adds every child that is made. -/
theorem exists_addChild_of_sequenceAllows {bound : Nat} {groups : List String} {owner : String}
    {particles : List DeclaredParticle} {catalog catalog' : Catalog} {ms : Membership}
    (hbuild : (buildMembership (localElementWithin model bound groups)
      (referredGroupWithin model bound groups) owner particles).run catalog =
        .ok (some ms, catalog'))
    (hwild : ∀ p ∈ particles.map (·.particle), ¬ Occurs model .wildcard p)
    (hb : BranchesAnnounced model .one [] (particles.map (·.particle)))
    {l : Loader} {s : Store} {id : Nat} {n : Node} (hn : s[id]? = some n)
    (hc : n.collection = some ms.collection) {before after : List Xml.Content} {e : Xml.Element}
    (hnames : l.NamesChildren n.blueprint (tagsOf (before ++ .element e :: after)))
    (hw : SequenceAllows model (particles.map (·.particle))
      (tagsOf (before ++ .element e :: after)))
    (hlen : (tagsOf (before ++ .element e :: after)).length < 2 ^ 64) {s₁ s₂ : Store} {p : Node}
    {child : Nat} (hbefore : l.fillContent id before s = .ok s₁) (hp : s₁[id]? = some p)
    (hchild : l.createChild p e.tag s₁ = .ok (s₂, child)) :
    ∃ s₃, s₂.addChild id child = .ok s₃ := by
  have htags : tagsOf (before ++ .element e :: after) = tagsOf before ++ e.tag :: tagsOf after := by
    simp [tagsOf, Xml.Content.element?]
  rw [htags] at hnames hw hlen
  have hms := buildMembership_contentMembership (fun declaredIn owner =>
    referredGroupWithin_keeps bound groups declaredIn owner) owner particles _ _ _ trivial hbuild
  obtain ⟨xs, c, hxs, hall, hnow⟩ := exists_addAll_of_fillContent hn hc
    (fun p hp name hmem => hnames p hp name (List.mem_append_left _ hmem)) hbefore
  obtain rfl := Option.some.inj (hnow.symm.trans hp)
  obtain ⟨⟨_, b⟩, -, hb'⟩ := exists_create_of_createChild hchild
  have hname : b.elementName = e.tag :=
    hnames _ rfl e.tag (by simp) s₁ b (hchild.trans (congrArg Except.ok hb'))
  -- all children of the word are taken, whatever their numbers: so is this one
  obtain ⟨full, hfull⟩ : ∃ full, ms.collection.addAll
      (xs ++ ⟨s₁.length, e.tag⟩ :: (tagsOf after).map (⟨0, ·⟩)) = .ok full :=
    hms.exists_addAll hwild hb (by simpa [hxs, Function.comp_def] using hw)
      (by simpa [← hxs] using hlen)
  rw [Collection.addAll, List.foldlM_append, ← Collection.addAll, hall] at hfull
  cases hadd : c.add ⟨s₁.length, e.tag⟩ with
  | error err =>
    simp only [bind, Except.bind, List.foldlM_cons, hadd] at hfull
    cases hfull
  | ok c' =>
    rw [← hname] at hadd
    obtain ⟨s₃, hs₃, -⟩ := Store.addChild_create hp rfl hadd
    obtain ⟨rfl, rfl⟩ := Prod.mk.inj hb'
    exact ⟨s₃, hs₃⟩

/-! ### Choices of two pairs -/

def once (t : Term) : Particle := ⟨1, .one, t⟩

/-- Elements `a` and `b`, or `c` and `d`. -/
def pairs (a b c d : String) : List Particle :=
  [once (.group ⟨.sequence, [once (.elementRef a), once (.elementRef b)]⟩),
    once (.group ⟨.sequence, [once (.elementRef c), once (.elementRef d)]⟩)]

def pairContent (a b c d : String) : List Particle :=
  [once (.group ⟨.choice, pairs a b c d⟩)]

def pairMembership (a b c d : String) : Membership :=
  ⟨.choice, 1, .one,
    [.group ⟨.sequence, 1, .one, [.element a a .one, .element b b .one]⟩,
      .group ⟨.sequence, 1, .one, [.element c c .one, .element d d .one]⟩]⟩

def leafBlueprint (name : String) : Blueprint where
  typeName := name
  elementName := name
  uri := none
  collection := none
  creatable := none
  attributes := .typed []

def pairBlueprint (ms : Membership) : Blueprint where
  typeName := "Pair"
  elementName := "pair"
  uri := none
  collection := some ms.collection
  creatable := some (ms.creatable.map fun p => (p.1, ⟨"pairs", p.2⟩))
  attributes := .typed []

def pairLoader : Loader where
  blueprints := ["a", "b", "c", "d"].map fun name => (⟨"pairs", name⟩, leafBlueprint name)
  registries := []

def leafElement (name : String) : Xml.Content := .element ⟨⟨none, name⟩, [], [], []⟩

theorem particleAllows_once_iff {t : Term} {w : List String} :
    ParticleAllows model (once t) w ↔ TermAllows model t w := by
  constructor
  · intro h
    obtain @⟨_, _, _, ws, hmin, hmax, h⟩ := h
    obtain ⟨u, rfl⟩ := List.length_eq_one_iff.mp (Nat.le_antisymm hmax hmin)
    simpa using h u
  · intro h
    have hrep : ParticleAllows model (once t) [w].flatten :=
      .repeated (Nat.le_refl 1) (Nat.le_refl 1) fun u hu => List.mem_singleton.mp hu ▸ h
    simpa using hrep

section
variable {a b c d : String}

theorem occurs_pairContent {t : Term} (h : ∃ p ∈ pairContent a b c d, Occurs {} t p) :
    t ≠ .wildcard := by
  rintro rfl
  obtain ⟨p, hp, h⟩ := h
  simp only [pairContent, once, List.mem_singleton] at hp
  subst hp
  obtain - | ⟨-, hq, h⟩ := h
  simp only [pairs, once, List.mem_cons, List.not_mem_nil, or_false] at hq
  rcases hq with rfl | rfl
  all_goals
    obtain - | ⟨-, hr, h⟩ := h
    simp only [List.mem_cons, List.not_mem_nil, or_false] at hr
    rcases hr with rfl | rfl <;> cases occurs_elementRef h

/-- The groups in a branch are sequences of references. -/
theorem reaches_pairs {outer m : MaxOccurs} {g : ModelGroup}
    (h : Reaches {} outer (pairs a b c d) g m) :
    g.compositor = .sequence ∧ ∀ p ∈ g.particles, ∃ name, p.term = .elementRef name := by
  generalize hps : pairs a b c d = ps at h
  induction h with
  | group hp =>
    subst hps
    simp only [pairs, once, List.mem_cons, Particle.mk.injEq, Term.group.injEq, List.not_mem_nil,
      or_false] at hp
    rcases hp with ⟨-, -, rfl⟩ | ⟨-, -, rfl⟩ <;> simp
  | groupRef _ _ hd => cases hd
  | inside _ h' ih _ => exact absurd h' (not_reaches_of_elementRef (ih hps).2)

/-- The choice is met first, and then its branches. -/
theorem meets_pairContent {outer m : MaxOccurs} {g : ModelGroup} {before before' : List Particle}
    (h : Meets {} outer before (pairContent a b c d) g m before') :
    (g.particles = pairs a b c d ∧ before' = before) ∨
      (g.compositor = .sequence ∧ ∀ p ∈ g.particles, ∃ name, p.term = .elementRef name) := by
  generalize hps : pairContent a b c d = ps at h
  induction h with
  | @group _ _ _ ps qs =>
    obtain ⟨rfl, h⟩ : ps = [] ∧ _ := by
      cases ps with
      | nil => exact ⟨rfl, hps⟩
      | cons p ps => simp [pairContent] at hps
    simp only [List.nil_append, pairContent, once, List.cons.injEq, Particle.mk.injEq,
      Term.group.injEq] at h
    exact .inl ⟨by rw [← h.1.2.2], List.append_nil _⟩
  | groupRef _ hd => cases hd
  | inside _ h' ih _ =>
    rcases ih hps with ⟨hg, -⟩ | ⟨-, hleaf⟩
    · exact .inr (reaches_pairs (hg ▸ h'.reaches))
    · exact absurd h'.reaches (not_reaches_of_elementRef hleaf)

/-- What a pair allows. -/
theorem eq_of_particleAllows_pair {w : List String}
    (h : ParticleAllows {} (once (.group ⟨.sequence, [once (.elementRef a),
      once (.elementRef b)]⟩)) w) : w = [a, b] := by
  obtain - | - | ⟨⟨hs⟩⟩ | - := particleAllows_once_iff.mp h
  obtain - | ⟨ha, hs⟩ := hs
  obtain - | ⟨hb, hs⟩ := hs
  obtain - | - := hs
  obtain - | - := particleAllows_once_iff.mp ha
  obtain - | - := particleAllows_once_iff.mp hb
  rfl

theorem eq_or_eq_of_mentions_pair {name : String}
    (h : (once (.group ⟨.sequence, [once (.elementRef a), once (.elementRef b)]⟩)).Mentions {}
      name) : name = a ∨ name = b := by
  obtain ⟨t, ht, hn⟩ := h
  obtain - | ⟨-, hq, h⟩ := ht
  · cases hn
  · simp only [List.mem_cons, List.not_mem_nil, or_false] at hq
    rcases hq with rfl | rfl <;> obtain rfl := occurs_elementRef h <;> simp_all [Term.elementName?]

theorem sequenceAllows_pairContent : SequenceAllows {} (pairContent a b c d) [c, d] := by
  have hone {t : Term} {w : List String} (h : TermAllows {} t w) : ParticleAllows {} (once t) w :=
    particleAllows_once_iff.mpr h
  have hpair : SequenceAllows {} [once (.elementRef c), once (.elementRef d)] [c, d] :=
    .cons (hone (.elementRef c)) (.cons (hone (.elementRef d)) .nil)
  exact .cons (hone (.group (.choice (.tail _ (.head _)) (hone (.group (.sequence hpair)))))) .nil

end

/-- A name may be in both branches if the later one starts with a name of its own. -/
theorem branchesAnnounced_pairContent {a b c d : String} (hca : c ≠ a) (hcb : c ≠ b) :
    BranchesAnnounced {} .one [] (pairContent a b c d) := by
  intro g m before' hmeets hc hm
  rcases meets_pairContent hmeets with ⟨hg, rfl⟩ | ⟨hs, -⟩
  · intro qs p rs hps
    rw [hg, pairs] at hps
    obtain - | ⟨q, qs⟩ := qs
    · exact .inl (by simp)
    · obtain ⟨rfl, hrest⟩ := List.cons.inj hps
      cases qs with
      | nil =>
        obtain ⟨rfl, -⟩ := List.cons.inj hrest
        refine .inr fun name w hw q hq hmention => ?_
        obtain ⟨rfl, -⟩ := List.cons.inj (eq_of_particleAllows_pair hw)
        obtain rfl := List.mem_singleton.mp hq
        exact (eq_or_eq_of_mentions_pair hmention).elim hca hcb
      | cons q qs => simp at hrest
  · rw [hc] at hs
    cases hs

theorem namesChildren_pairLoader :
    pairLoader.NamesChildren (pairBlueprint (pairMembership "a" "c" "b" "c")) ["b", "c"] := by
  intro p hp name hname s child h
  have hmake (name : String) (hname : name ∈ ["b", "c"]) :
      pairLoader.createChild p name s = .ok (s.create (leafBlueprint name)) := by
    simp only [List.mem_cons, List.not_mem_nil, or_false] at hname
    rw [Loader.createChild, Loader.createDeclared, hp]
    rcases hname with rfl | rfl <;> rfl
  obtain rfl := create_injective (Except.ok.inj ((hmake name hname).symm.trans h))
  rfl

/-- After `b` the second branch goes on with `c`, which the first one has too. -/
theorem exists_addChild_of_pairContent :
    let s : Store := [(pairBlueprint (pairMembership "a" "c" "b" "c")).node]
    ∃ s₁ s₂ child s₃, pairLoader.fillContent 0 [leafElement "b"] s = .ok s₁ ∧
      (∃ p, s₁[0]? = some p ∧ pairLoader.createChild p "c" s₁ = .ok (s₂, child)) ∧
        s₂.addChild 0 child = .ok s₃ := by
  intro s
  have happlied := fun s₁ s₂ p child => @exists_addChild_of_sequenceAllows {} 0 [] "Pair"
    ((pairContent "a" "c" "b" "c").map (⟨·, none⟩))
    { elements := [("a", "a"), ("b", "b"), ("c", "c")] } _ (pairMembership "a" "c" "b" "c") rfl
    (fun p hp h => occurs_pairContent ⟨p, hp, h⟩ rfl)
    (branchesAnnounced_pairContent (by decide) (by decide)) pairLoader s 0 _ rfl rfl
    [leafElement "b"] [] ⟨⟨none, "c"⟩, [], [], []⟩ namesChildren_pairLoader
    sequenceAllows_pairContent (by decide) s₁ s₂ p child
  exact ⟨_, _, _, _, rfl, ⟨_, rfl, rfl⟩, (happlied _ _ _ _ rfl rfl rfl).choose_spec⟩

theorem eq_of_matches_pairContent {a b c d : String} {w : Attributed}
    (h : SequenceMatches {} [] 0 (pairContent a b c d) w) :
    w = [(a, [0, 0, 0]), (b, [0, 0, 1])] ∨ w = [(c, [0, 1, 0]), (d, [0, 1, 1])] := by
  have hpair {way : List Nat} {a b : String} {w : Attributed} (h : ParticleMatches {} way
      (once (.group ⟨.sequence, [once (.elementRef a), once (.elementRef b)]⟩)) w) :
      w = [(a, way ++ [0]), (b, way ++ [1])] := by
    simp only [once, particleMatches_one_iff, termMatches_sequence_iff, sequenceMatches_cons_iff,
      sequenceMatches_nil_iff, termMatches_elementRef_iff] at h
    obtain ⟨_, _, rfl, ⟨_, _, rfl, rfl, rfl⟩, rfl⟩ := h
    rfl
  rw [pairContent, once, sequenceMatches_cons_iff] at h
  obtain ⟨u, v, hchoice, hnil, rfl⟩ := h
  rw [sequenceMatches_nil_iff.mp hnil, List.append_nil]
  rw [particleMatches_one_iff, termMatches_choice_iff] at hchoice
  obtain ⟨i, p, hp, hbranch⟩ := hchoice
  match i with
  | 0 => exact .inl (hpair (Option.some.inj hp ▸ hbranch))
  | 1 => exact .inr (hpair (Option.some.inj hp ▸ hbranch))

/-- The first name tells the branch. -/
theorem uniquelyAttributed_pairContent {a b c d : String} (hac : a ≠ c) :
    UniquelyAttributed {} (pairContent a b c d) := by
  intro u v u' v' name way way' hu hv hnames
  have hhead : (u ++ (name, way) :: u').head?.map (·.1) =
      (v ++ (name, way') :: v').head?.map (·.1) := by
    cases u <;> cases v <;> simp_all
  have hsame : u ++ (name, way) :: u' = v ++ (name, way') :: v' := by
    rcases eq_of_matches_pairContent hu with hu | hu <;>
      rcases eq_of_matches_pairContent hv with hv | hv <;> rw [hu, hv] at hhead ⊢
    · exact absurd (Option.some.inj hhead) hac
    · exact absurd (Option.some.inj hhead).symm hac
  have hnext := (List.append_inj hsame (by simpa using congrArg List.length hnames)).2
  exact (Prod.mk.inj (List.cons.inj hnext).1).2

/-- Where the first name of a branch stands in an earlier one it goes there, and the branch is shut
for what follows. -/
theorem not_addChild_of_pairContent :
    let s : Store := [(pairBlueprint (pairMembership "b" "a" "a" "c")).node]
    UniquelyAttributed {} (pairContent "b" "a" "a" "c") ∧
      (∀ p ∈ pairContent "b" "a" "a" "c", ¬ Occurs {} .wildcard p) ∧
      SequenceAllows {} (pairContent "b" "a" "a" "c") ["a", "c"] ∧
      (∃ catalog catalog', (buildMembership (localElementWithin {} 0 [])
        (referredGroupWithin {} 0 []) "Pair"
        ((pairContent "b" "a" "a" "c").map (⟨·, none⟩))).run catalog =
          .ok (some (pairMembership "b" "a" "a" "c"), catalog')) ∧
      pairLoader.fillContent 0 [leafElement "a", leafElement "c"] s =
        .error (.choiceViolation "c") :=
  ⟨uniquelyAttributed_pairContent (by decide), fun p hp h => occurs_pairContent ⟨p, hp, h⟩ rfl,
    sequenceAllows_pairContent,
    ⟨{ elements := [("a", "a"), ("b", "b"), ("c", "c")] }, _, rfl⟩, rfl⟩

end XmlBinding.Binding
