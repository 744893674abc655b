import XmlBinding.Tree.Blueprint
/-!
# Registries

A registry lists kinds of elements by the names of their elements and types. A name is looked up
exactly first; then whatever ends with it counts.
-/
namespace XmlBinding.Tree
open Binding

structure RegistryEntry where
  xmlName : String
  typeName : String
  kind : Kind
deriving DecidableEq, Repr

abbrev Registry := List RegistryEntry

/-- Whether `s` ends with `ending`. -/
def endsWith (s ending : String) : Bool :=
  ending.toList.isSuffixOf s.toList

def RegistryEntry.hasSuffix (name : String) (e : RegistryEntry) : Bool :=
  endsWith e.typeName name || endsWith e.xmlName name

namespace Registry

def findExact (r : Registry) (name : String) : Option RegistryEntry :=
  r.find? (·.xmlName = name)

def findSuffix (r : Registry) (name : String) : Option RegistryEntry :=
  r.find? (·.hasSuffix name)

def lookup (r : Registry) (name : String) : Option RegistryEntry :=
  (r.findExact name).or (r.findSuffix name)

end Registry

/-- An exact match in any registry counts before a suffix match in any. -/
def lookupAll (rs : List Registry) (name : String) : Option RegistryEntry :=
  (rs.findSome? (·.findExact name)).or (rs.findSome? (·.findSuffix name))

/-- The registered classes of a module. -/
def moduleRegistry (group : String) (m : Module) : Registry :=
  m.registered.map fun c => ⟨c.xmlName, c.name, ⟨group, c.name⟩⟩

end XmlBinding.Tree
