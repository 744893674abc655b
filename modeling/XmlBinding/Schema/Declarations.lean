import XmlBinding.Schema.Component
/-!
# How much a schema declares

Elements and complex types are counted wherever they are declared, at the top level or in place.
-/
namespace XmlBinding.Schema

mutual

/-- The number of elements and complex types declared inside. -/
def ModelGroup.declarations : ModelGroup → Nat
  | ⟨_, particles⟩ => particleDeclarations particles

def particleDeclarations : List Particle → Nat
  | [] => 0
  | ⟨_, _, term⟩ :: ps => term.declarations + particleDeclarations ps

def Term.declarations : Term → Nat
  | .element d => d.declarations
  | .group g => g.declarations
  | .elementRef _ | .groupRef _ | .wildcard => 0

def ElementDeclaration.declarations : ElementDeclaration → Nat
  | ⟨_, _, type, _⟩ => type.declarations + 1

def ElementType.declarations : ElementType → Nat
  | .complex t => t.declarations
  | .named _ | .simple _ | .any => 0

def ComplexType.declarations : ComplexType → Nat
  | ⟨_, _, _, _, content, _⟩ => content.declarations + 1

def ComplexContent.declarations : ComplexContent → Nat
  | .particle ⟨_, _, term⟩ => term.declarations
  | .extension _ (some ⟨_, _, term⟩) => term.declarations
  | .empty | .simpleExtension _ | .simpleRestriction _ | .extension _ none => 0

end

/-- The number of elements and complex types declared in a schema. -/
def Model.declarations (model : Model) : Nat :=
  model.elements.foldr (fun e n => e.2.declarations + n) 0 +
    model.complexTypes.foldr (fun t n => t.2.declarations + n) 0 +
    model.groups.foldr (fun g n => g.2.group.declarations + n) 0

end XmlBinding.Schema
