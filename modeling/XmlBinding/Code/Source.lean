import XmlBinding.Binding.Catalog
import XmlBinding.Code.Classes
import XmlBinding.Code.Printing
/-!
# Source of a module

The enumerations come first, then their shared functions, the markers, the classes, and last the
registry, which lists how to make an element of every class.
-/
namespace XmlBinding.Code
open Binding

def markerItem (m : Marker) : Item :=
  .trait (documentationNotes m.documentation) (written m.name) "meta::Element"

/-- The functions that read the enumerations held by a class, or by none. -/
def readersOf (m : Module) (owner : Option String) : List Associated :=
  (m.enumerations.filter fun e => m.home? e = owner).flatMap enumerationReaders

/-- The type that holds what no class does. -/
def containerItems (readers : List Associated) : List Item :=
  if readers.isEmpty then []
  else
    [.unit (noted "Parse helpers of the enumerations no single struct owns.") containerName,
     .impl none containerName readers]

def registryItem (m : Module) : Item :=
  let entry (e : Expr) (c : ElementClass) : Expr :=
    methodOf e "with" [stringLiteral c.xmlName, stringLiteral c.name,
      .closure [] (Surroundings.newElement c.name)]
  .function {
    notes := noted
      "Factories for every instantiable struct of this module, for use with [meta::Loader]."
    head := "pub fn ", name := "registry", output := some (.path "meta::Registry")
    body := [.result (m.registered.foldl entry (callOf "meta::Registry::new" []))] }

def moduleItems (m : Module) : List Item :=
  let surroundings : Surroundings :=
    ⟨m.enumerations, fun e => written ((m.home? e).getD containerName), m.targetNamespace⟩
  m.enumerations.flatMap enumerationItems ++ containerItems (readersOf m none) ++
    m.markers.map markerItem ++
    m.classes.flatMap (fun c => surroundings.classItems c (readersOf m (some c.name))) ++
    [registryItem m]

/-- The file of a module, nested in modules, with the support library under `support`. -/
def sourceFile (m : Module) (modules : List String) (support : String) : File :=
  { modules := modules
    documentation := " Generated by xsdgen 0.1.0"
    allowed := ["dead_code", "unused_imports", "unused_variables", "unreachable_patterns",
      "non_camel_case_types", "non_snake_case", "clippy::all"]
    items := [.words ("use " ++ support ++ " as meta;"),
      .words "use std::\x7bany::Any, cell::RefCell, rc::\x7bRc, Weak\x7d\x7d;"] ++ moduleItems m }

end XmlBinding.Code
