import XmlBinding.Binding.Content
/-!
# The binding of a schema

Simple types come first, then all names of complex types and top-level elements are given out, so
that content models may refer to what is declared later, and then their classes are built.
-/
namespace XmlBinding.Binding
open Schema

section
variable (model : Model)

/-- An abstract type becomes a marker, any other type a class. -/
def buildComplexType (name : String) (t : ComplexType) : Build Unit := do
  let scope ← typeScope name
  if t.isAbstract then
    modify fun c => { c with markers := c.markers ++ [⟨scope.name, t.documentation⟩] }
  else
    let draft ← derive model scope t
    let membership ← membershipOf model scope.name draft.particles
    addClass ⟨scope.name, .complexType, name, t.documentation, draft.content, draft.fields,
      membership, draft.markers, true⟩

def buildElement (name : String) (d : ElementDeclaration) : Build Unit := do
  buildClass model (membershipOf model) .topLevel (← referredElement name) d

/-- Binds everything in a schema. -/
def buildAll : Build Unit := do
  model.simpleTypes.forM fun (name, _) => discard (resolveNamed model name)
  model.complexTypes.forM fun (name, t) => declareComplexType name t
  model.elements.forM fun (name, _) => declareElement name
  model.complexTypes.forM fun (name, t) => buildComplexType model name t
  model.elements.forM fun (name, d) => buildElement model name d

/-- The module bound to a schema. -/
def Module.ofModel : Except BindingError Module := do
  let (_, catalog) ← (buildAll model).run {}
  return ⟨model.targetNamespace, catalog.enumerations, catalog.markers, catalog.classes⟩

end

end XmlBinding.Binding
