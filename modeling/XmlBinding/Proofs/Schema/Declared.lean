import XmlBinding.Proofs.Schema.Names
import XmlBinding.Schema.Declarations

/-! # The declarations of a schema as a list

Elements and complex types are listed where they are declared, each in front of what is declared
inside of it. A part of a component lists a part of what the component does.
-/
namespace XmlBinding.Schema

/-- An element or a complex type. -/
abbrev Declared := ElementDeclaration ⊕ ComplexType

mutual

def ModelGroup.declared : ModelGroup → List Declared
  | ⟨_, particles⟩ => particlesDeclared particles

def particlesDeclared : List Particle → List Declared
  | [] => []
  | ⟨_, _, term⟩ :: ps => term.declared ++ particlesDeclared ps

def Term.declared : Term → List Declared
  | .element d => d.declared
  | .group g => g.declared
  | .elementRef _ | .groupRef _ | .wildcard => []

def ElementDeclaration.declared : ElementDeclaration → List Declared
  | ⟨name, documentation, type, isAbstract⟩ =>
    .inl ⟨name, documentation, type, isAbstract⟩ :: type.declared

def ElementType.declared : ElementType → List Declared
  | .complex t => t.declared
  | .named _ | .simple _ | .any => []

def ComplexType.declared : ComplexType → List Declared
  | ⟨name, documentation, isAbstract, mixed, content, attributes⟩ =>
    .inr ⟨name, documentation, isAbstract, mixed, content, attributes⟩ :: content.declared

def ComplexContent.declared : ComplexContent → List Declared
  | .particle ⟨_, _, term⟩ => term.declared
  | .extension _ (some ⟨_, _, term⟩) => term.declared
  | .empty | .simpleExtension _ | .simpleRestriction _ | .extension _ none => []

end

mutual

theorem ModelGroup.length_declared :
    ∀ g : ModelGroup, g.declared.length = g.declarations
  | ⟨_, particles⟩ => by
    rw [ModelGroup.declared, ModelGroup.declarations]
    exact length_particlesDeclared particles

theorem length_particlesDeclared :
    ∀ ps : List Particle, (particlesDeclared ps).length = particleDeclarations ps
  | [] => by rw [particlesDeclared, particleDeclarations, List.length_nil]
  | ⟨_, _, term⟩ :: ps => by
    rw [particlesDeclared, particleDeclarations, List.length_append, term.length_declared,
      length_particlesDeclared ps]

theorem Term.length_declared : ∀ t : Term, t.declared.length = t.declarations
  | .element d => by
    rw [Term.declared, Term.declarations]
    exact d.length_declared
  | .group g => by
    rw [Term.declared, Term.declarations]
    exact g.length_declared
  | .elementRef _ => by simp [Term.declared, Term.declarations]
  | .groupRef _ => by simp [Term.declared, Term.declarations]
  | .wildcard => by simp [Term.declared, Term.declarations]

theorem ElementDeclaration.length_declared :
    ∀ d : ElementDeclaration, d.declared.length = d.declarations
  | ⟨_, _, type, _⟩ => by
    rw [ElementDeclaration.declared, ElementDeclaration.declarations, List.length_cons,
      type.length_declared]

theorem ElementType.length_declared : ∀ t : ElementType, t.declared.length = t.declarations
  | .complex t => by
    rw [ElementType.declared, ElementType.declarations]
    exact t.length_declared
  | .named _ => by simp [ElementType.declared, ElementType.declarations]
  | .simple _ => by simp [ElementType.declared, ElementType.declarations]
  | .any => by simp [ElementType.declared, ElementType.declarations]

theorem ComplexType.length_declared : ∀ t : ComplexType, t.declared.length = t.declarations
  | ⟨_, _, _, _, content, _⟩ => by
    rw [ComplexType.declared, ComplexType.declarations, List.length_cons, content.length_declared]

theorem ComplexContent.length_declared :
    ∀ c : ComplexContent, c.declared.length = c.declarations
  | .particle ⟨_, _, term⟩ => by
    rw [ComplexContent.declared, ComplexContent.declarations]
    exact term.length_declared
  | .extension _ (some ⟨_, _, term⟩) => by
    rw [ComplexContent.declared, ComplexContent.declarations]
    exact term.length_declared
  | .extension _ none => by simp [ComplexContent.declared, ComplexContent.declarations]
  | .empty => by simp [ComplexContent.declared, ComplexContent.declarations]
  | .simpleExtension _ => by simp [ComplexContent.declared, ComplexContent.declarations]
  | .simpleRestriction _ => by simp [ComplexContent.declared, ComplexContent.declarations]

end

theorem ElementDeclaration.declared_eq (d : ElementDeclaration) :
    d.declared = .inl d :: d.type.declared := by
  cases d
  rw [ElementDeclaration.declared]

theorem ComplexType.declared_eq (t : ComplexType) : t.declared = .inr t :: t.content.declared := by
  cases t
  rw [ComplexType.declared]

theorem ElementDeclaration.mem_declared (d : ElementDeclaration) : .inl d ∈ d.declared := by
  rw [d.declared_eq]
  exact List.mem_cons_self

theorem ElementDeclaration.sublist_type (d : ElementDeclaration) :
    d.type.declared.Sublist d.declared := by
  rw [d.declared_eq]
  exact List.sublist_cons_self _ _

theorem ComplexType.mem_declared (t : ComplexType) : .inr t ∈ t.declared := by
  rw [t.declared_eq]
  exact List.mem_cons_self

theorem ComplexType.sublist_content (t : ComplexType) :
    t.content.declared.Sublist t.declared := by
  rw [t.declared_eq]
  exact List.sublist_cons_self _ _

theorem particlesDeclared_singleton (p : Particle) :
    particlesDeclared [p] = p.term.declared := by
  cases p
  rw [particlesDeclared, particlesDeclared, List.append_nil]

theorem sublist_particlesDeclared {p : Particle} {ps : List Particle} (h : p ∈ ps) :
    p.term.declared.Sublist (particlesDeclared ps) := by
  induction ps with
  | nil => cases h
  | cons q ps ih =>
    cases q
    rw [particlesDeclared]
    rcases List.mem_cons.mp h with rfl | h
    · exact List.sublist_append_left _ _
    · exact (ih h).trans (List.sublist_append_right _ _)

theorem ComplexContent.declared_particle (p : Particle) :
    (ComplexContent.particle p).declared = p.term.declared := by
  cases p
  rw [ComplexContent.declared]

theorem ComplexContent.declared_extension (base : TypeName) (p : Particle) :
    (ComplexContent.extension base (some p)).declared = p.term.declared := by
  cases p
  rw [ComplexContent.declared]

/-- With an element, a list has all that is declared inside of the element. -/
def ListsInside (xs : List Declared) : Prop :=
  ∀ d, .inl d ∈ xs → d.declared.Sublist xs

theorem listsInside_nil : ListsInside [] := by
  simp [ListsInside]

theorem ListsInside.append {xs ys : List Declared} (hx : ListsInside xs) (hy : ListsInside ys) :
    ListsInside (xs ++ ys) := by
  intro d hd
  rcases List.mem_append.mp hd with hd | hd
  · exact (hx d hd).trans (List.sublist_append_left xs ys)
  · exact (hy d hd).trans (List.sublist_append_right xs ys)

theorem listsInside_flatMap {α : Type} {xs : List α} {f : α → List Declared}
    (h : ∀ x ∈ xs, ListsInside (f x)) : ListsInside (xs.flatMap f) := by
  induction xs with
  | nil => exact listsInside_nil
  | cons x xs ih =>
    obtain ⟨hx, hxs⟩ := List.forall_mem_cons.mp h
    rw [List.flatMap_cons]
    exact hx.append (ih hxs)

mutual

theorem ModelGroup.listsInside : ∀ g : ModelGroup, ListsInside g.declared
  | ⟨_, particles⟩ => by
    rw [ModelGroup.declared]
    exact listsInside_particles particles

theorem listsInside_particles : ∀ ps : List Particle, ListsInside (particlesDeclared ps)
  | [] => by
    rw [particlesDeclared]
    exact listsInside_nil
  | ⟨_, _, term⟩ :: ps => by
    rw [particlesDeclared]
    exact term.listsInside.append (listsInside_particles ps)

theorem Term.listsInside : ∀ t : Term, ListsInside t.declared
  | .element d => by
    rw [Term.declared]
    exact d.listsInside
  | .group g => by
    rw [Term.declared]
    exact g.listsInside
  | .elementRef _ | .groupRef _ | .wildcard => by
    rw [Term.declared]
    exact listsInside_nil

theorem ElementDeclaration.listsInside : ∀ d : ElementDeclaration, ListsInside d.declared
  | ⟨name, documentation, type, isAbstract⟩ => by
    rw [ElementDeclaration.declared]
    intro d hd
    rcases List.mem_cons.mp hd with hd | hd
    · obtain rfl := Sum.inl.inj hd
      exact List.Sublist.refl _
    · exact (type.listsInside d hd).trans (List.sublist_cons_self _ _)

theorem ElementType.listsInside : ∀ t : ElementType, ListsInside t.declared
  | .complex t => by
    rw [ElementType.declared]
    exact t.listsInside
  | .named _ | .simple _ | .any => by
    rw [ElementType.declared]
    exact listsInside_nil

theorem ComplexType.listsInside : ∀ t : ComplexType, ListsInside t.declared
  | ⟨_, _, _, _, content, _⟩ => by
    rw [ComplexType.declared]
    intro d hd
    have hd := (List.mem_cons.mp hd).resolve_left nofun
    exact (content.listsInside d hd).trans (List.sublist_cons_self _ _)

theorem ComplexContent.listsInside : ∀ c : ComplexContent, ListsInside c.declared
  | .particle ⟨_, _, term⟩ | .extension _ (some ⟨_, _, term⟩) => by
    rw [ComplexContent.declared]
    exact term.listsInside
  | .empty | .simpleExtension _ | .simpleRestriction _ | .extension _ none => by
    rw [ComplexContent.declared]
    exact listsInside_nil

end

namespace Model
variable (m : Model)

/-- Everything declared in a schema. -/
def declared : List Declared :=
  m.elements.flatMap (·.2.declared) ++ m.complexTypes.flatMap (·.2.declared) ++
    m.groups.flatMap (·.2.group.declared)

theorem length_flatMap_declared {α : Type} (table : List (String × α)) (f : α → List Declared) :
    (table.flatMap fun e => f e.2).length = table.foldr (fun e n => (f e.2).length + n) 0 := by
  induction table with
  | nil => rfl
  | cons e table ih => rw [List.flatMap_cons, List.length_append, ih, List.foldr_cons]

theorem length_declared : m.declared.length = m.declarations := by
  rw [declared, declarations, List.length_append, List.length_append, length_flatMap_declared,
    length_flatMap_declared, length_flatMap_declared m.groups fun g => g.group.declared]
  simp only [ElementDeclaration.length_declared, ComplexType.length_declared,
    ModelGroup.length_declared]

/-- The elements declared anywhere. -/
def allElements : List ElementDeclaration := m.declared.filterMap Sum.getLeft?

/-- The names of complex types declared anywhere. -/
def allTypeNames : List String := m.declared.filterMap fun x => x.getRight?.bind (·.name)

/-- The complex types declared anywhere. -/
def allTypes : List ComplexType := m.declared.filterMap Sum.getRight?

theorem mem_allElements {d : ElementDeclaration} (h : .inl d ∈ m.declared) : d ∈ m.allElements :=
  List.mem_filterMap.mpr ⟨_, h, rfl⟩

theorem listsInside : ListsInside m.declared :=
  ((listsInside_flatMap fun e _ => e.2.listsInside).append
    (listsInside_flatMap fun e _ => e.2.listsInside)).append
    (listsInside_flatMap fun e _ => e.2.group.listsInside)

theorem sublist_of_mem_allElements {d : ElementDeclaration} (h : d ∈ m.allElements) :
    d.declared.Sublist m.declared := by
  obtain ⟨x, hx, hd⟩ := List.mem_filterMap.mp h
  cases x with
  | inl d' => exact Option.some.inj hd ▸ m.listsInside d' hx
  | inr t => cases hd

theorem mem_allTypes {t : ComplexType} (h : .inr t ∈ m.declared) : t ∈ m.allTypes :=
  List.mem_filterMap.mpr ⟨_, h, rfl⟩

theorem mem_allTypeNames {t : ComplexType} (h : .inr t ∈ m.declared) {name : String}
    (hname : t.name = some name) : name ∈ m.allTypeNames :=
  List.mem_filterMap.mpr ⟨_, h, hname⟩

theorem sublist_of_entry {α : Type} {table : List (String × α)} {f : α → List Declared}
    {e : String × α} (h : e ∈ table) : (f e.2).Sublist (table.flatMap fun e => f e.2) := by
  rw [List.flatMap_def]
  exact List.sublist_flatten_of_mem (List.mem_map.mpr ⟨e, h, rfl⟩)

theorem sublist_of_element {e : String × ElementDeclaration} (h : e ∈ m.elements) :
    e.2.declared.Sublist m.declared :=
  ((sublist_of_entry h).trans (List.sublist_append_left _ _)).trans (List.sublist_append_left _ _)

theorem sublist_of_complexType {e : String × ComplexType} (h : e ∈ m.complexTypes) :
    e.2.declared.Sublist m.declared :=
  ((sublist_of_entry h).trans (List.sublist_append_right _ _)).trans (List.sublist_append_left _ _)

theorem sublist_of_group {e : String × GroupDefinition} (h : e ∈ m.groups) :
    e.2.group.declared.Sublist m.declared :=
  (sublist_of_entry (f := fun g => g.group.declared) h).trans (List.sublist_append_right _ _)

end Model

end XmlBinding.Schema
