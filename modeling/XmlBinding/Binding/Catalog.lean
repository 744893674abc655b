import XmlBinding.Binding.Module
/-!
# The state of a binding under construction

Names are given out once. What a component was bound to is remembered, so that every use of it
finds the same class or enumeration.
-/
namespace XmlBinding.Binding
open Schema

/-- Whose anonymous attribute types share a name space. -/
inductive ScopeKey where
  | type (name : String)
  | struct (name : String)
  | global
deriving DecidableEq, Repr

structure TypeEntry where
  name : String
  isAbstract : Bool
deriving DecidableEq, Repr

/-- The type that holds the reading functions of enumerations without an owner. -/
def containerName : String := "Enums"

/-- Names that the generated module uses as they are. -/
def reservedTypeNames : List String :=
  [containerName, "Any", "Rc", "Weak", "RefCell", "Option", "Some", "None", "Result", "Ok", "Err",
   "String", "Vec"]

/-- Local elements of a named type are remembered by element and type, those of an inline type by
the type that declares them and the element. -/
structure Catalog where
  taken : List String := reservedTypeNames
  simpleTypes : List (String × FieldType) := []
  complexTypes : List (String × TypeEntry) := []
  elements : List (String × String) := []
  typedElements : List ((String × String) × String) := []
  inlineElements : List ((String × String) × String) := []
  attributeTypes : List ((ScopeKey × String) × FieldType) := []
  enumerations : List Enumeration := []
  markers : List Marker := []
  classes : List ElementClass := []

/-- A step of the construction. -/
abbrev Build (α : Type) := StateT Catalog (Except BindingError) α

def fail {α : Type} (e : BindingError) : Build α := throw e

/-- The value remembered for a key. -/
def remembered {κ α : Type} [DecidableEq κ] (table : List (κ × α)) (key : κ) : Option α :=
  (table.find? (·.1 = key)).map (·.2)

/-- The name given out for a preferred one, an alternative being tried before numbers are. -/
def chooseName (taken : List String) (preferred : String) (alternative : Option String) : String :=
  let name := typeName preferred
  if !taken.contains name then name
  else match alternative.map typeName with
    | none => freeName taken name
    | some other => if taken.contains other then freeName taken name else other

def reserve (preferred : String) (alternative : Option String) : Build String := do
  let catalog ← get
  let name := chooseName catalog.taken preferred alternative
  set { catalog with taken := name :: catalog.taken }
  return name

/-- Reserves the name of a complex type. -/
def declareComplexType (name : String) (t : ComplexType) : Build Unit := do
  let given ← reserve name none
  modify fun c => { c with complexTypes := (name, ⟨given, t.isAbstract⟩) :: c.complexTypes }

/-- Reserves the name of a top-level element, which gives way to types. -/
def declareElement (name : String) : Build Unit := do
  let given ← reserve name (some (name ++ "Element"))
  modify fun c => { c with elements := (name, given) :: c.elements }

def addEnumeration (e : Enumeration) : Build FieldType := do
  let catalog ← get
  set { catalog with enumerations := catalog.enumerations ++ [e] }
  return .enumeration catalog.enumerations.length

/-- Makes flags of the enumeration at a place. -/
def promote (place : Nat) : Build Unit := do
  let catalog ← get
  match catalog.enumerations[place]? with
  | none => return ()
  | some e =>
    let flags ← e.toFlags
    set { catalog with enumerations := catalog.enumerations.set place flags }

end XmlBinding.Binding
