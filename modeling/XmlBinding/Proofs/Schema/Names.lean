import XmlBinding.Binding.Module
import XmlBinding.Proofs.Xml.Tokens

/-! # Names of the components of a schema

Names of elements, types and attributes are names without a colon. An attribute can neither be
called like the text content of an element nor like the declaration of a namespace.
-/
namespace XmlBinding.Schema
open Binding Xml

/-- A name that an attribute of an instance can have. -/
def IsAttributeName (name : String) : Prop :=
  isNCName name = true ∧ name ≠ contentName ∧ name ≠ "xmlns"

instance (name : String) : Decidable (IsAttributeName name) :=
  inferInstanceAs (Decidable (_ ∧ _ ∧ _))

/-- References are named where they lead to. -/
def AttributeUse.Named : AttributeUse → Prop
  | .declaration d _ => IsAttributeName d.name
  | .reference .. => True
  | .group _ => True

mutual

def Particle.Named : Particle → Prop
  | ⟨_, _, term⟩ => term.Named

def Term.Named : Term → Prop
  | .element d => d.Named
  | .elementRef _ => True
  | .group g => g.Named
  | .groupRef _ => True
  | .wildcard => True

def ModelGroup.Named : ModelGroup → Prop
  | ⟨_, particles⟩ => namedParticles particles

def namedParticles : List Particle → Prop
  | [] => True
  | p :: ps => p.Named ∧ namedParticles ps

def ElementDeclaration.Named : ElementDeclaration → Prop
  | ⟨name, _, type, _⟩ => isNCName name = true ∧ type.Named

def ElementType.Named : ElementType → Prop
  | .complex t => t.Named
  | .named _ => True
  | .simple _ => True
  | .any => True

def ComplexType.Named : ComplexType → Prop
  | ⟨_, _, _, _, content, attributes⟩ => content.Named ∧ ∀ u ∈ attributes, u.Named

def ComplexContent.Named : ComplexContent → Prop
  | .particle p => p.Named
  | .extension _ (some p) => p.Named
  | .extension _ none => True
  | .empty => True
  | .simpleExtension _ => True
  | .simpleRestriction _ => True

end

/-- All components of a schema, wherever they are declared, have such names. -/
structure Model.Named (m : Model) : Prop where
  complexTypes : ∀ p ∈ m.complexTypes, isNCName p.1 = true ∧ p.2.Named
  elements : ∀ p ∈ m.elements, p.2.Named
  attributes : ∀ p ∈ m.attributes, IsAttributeName p.2.name
  attributeGroups : ∀ p ∈ m.attributeGroups, ∀ u ∈ p.2.uses, u.Named
  groups : ∀ p ∈ m.groups, p.2.group.Named

theorem ElementDeclaration.Named.name {d : ElementDeclaration} (h : d.Named) :
    isNCName d.name = true := by
  cases d
  exact h.1

theorem ElementDeclaration.Named.type {d : ElementDeclaration} (h : d.Named) : d.type.Named := by
  cases d
  exact h.2

theorem ComplexType.Named.content {t : ComplexType} (h : t.Named) : t.content.Named := by
  cases t
  exact h.1

theorem ComplexType.Named.attributes {t : ComplexType} (h : t.Named) :
    ∀ u ∈ t.attributes, u.Named := by
  cases t
  exact h.2

/-- What is found in a table is one of its entries. -/
theorem mem_of_find {α : Type} {table : List (String × α)} {name : String} {a : α}
    (h : find table name = some a) : (name, a) ∈ table := by
  rw [find, Option.map_eq_some_iff] at h
  obtain ⟨⟨n, b⟩, hfind, rfl⟩ := h
  have hname : n = name := by simpa using List.find?_some hfind
  exact hname ▸ List.mem_of_find?_eq_some hfind

end XmlBinding.Schema
