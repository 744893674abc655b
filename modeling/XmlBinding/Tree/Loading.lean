import XmlBinding.Tree.Store
import XmlBinding.Xml.Reading
import XmlBinding.Text.Blank
/-!
# Loading documents

A document becomes a tree of elements, matched by local name. A child is made by its parent if the
parent declares it, or else from the registries. Attributes and text are set by name; blank text
between elements is layout.
-/
namespace XmlBinding.Tree
open Binding Xml

/-- The kinds that exist and the registries that list them. -/
structure Loader where
  blueprints : Blueprints
  registries : List Registry
  allowDoctype : Bool := false

/-- Makes the element that a registry has for a name, if it has one. -/
def Registry.create (r : Registry) (blueprints : Blueprints) (name : String) (s : Store) :
    Option (Store × Nat) :=
  (r.lookup name).bind fun e => (blueprints.get? e.kind).map s.create

/-- Attributes of this namespace concern the reader of a document. -/
def instanceUri : String := "http://www.w3.org/2001/XMLSchema-instance"

namespace Loader
variable (l : Loader)

/-- Makes an element of a kind; `missing` is raised if there is no such kind. -/
def make (kind : Kind) (missing : TreeError) (s : Store) : Except TreeError (Store × Nat) :=
  match l.blueprints.get? kind with
  | some b => .ok (s.create b)
  | none => .error missing

/-- Makes the element that the registries have for a name. -/
def create (name : String) (s : Store) : Except TreeError (Store × Nat) :=
  match lookupAll l.registries name with
  | some e => l.make e.kind (.noCorrespondingType name) s
  | none => .error (.noCorrespondingType name)

/-- Makes the element that a parent declares for a name. -/
def createDeclared (parent : Node) (name : String) (s : Store) :
    Except TreeError (Store × Nat) :=
  match parent.blueprint.creatable with
  | none => .error (.notAChildFactory parent.name)
  | some kinds => match kinds.find? (·.1 = name) with
    | none => .error (.invalidChildName parent.name name)
    | some (_, kind) => l.make kind (.invalidChildName parent.name name) s

/-- Names that the parent does not declare are left to the registries. -/
def createChild (parent : Node) (name : String) (s : Store) : Except TreeError (Store × Nat) :=
  match l.createDeclared parent name s with
  | .error (.invalidChildName ..) => l.create name s
  | result => result

/-- Sets the attributes of a start tag. -/
def setAttributes (id : Nat) : List Attribute → Store → Except TreeError Store
  | [], s => .ok s
  | a :: as, s => do
    let s ← if a.name.uri = some instanceUri then pure s else s.setValue id a.name.localName a.value
    setAttributes id as s

/-- The text of an element that is content: all of it, unless it is blank beside elements. -/
def contentText (content : List Content) : Option String :=
  let texts := content.filterMap Content.text?
  let text := String.join texts
  let hasElements := (content.filterMap Content.element?).length != 0
  if texts.isEmpty then none
  else if hasElements && Text.allBlank text then none
  else some text

mutual

/-- Fills an element that has been made from what the document has for it. -/
def fill (id : Nat) : Xml.Element → Store → Except TreeError Store
  | ⟨_, attributes, _, content⟩, s => do
    let s ← setAttributes id attributes s
    let s ← fillContent id content s
    match contentText content with
    | none => return s
    | some text => s.setValue id contentName text

/-- Makes, adds and fills the children of an element in document order. -/
def fillContent (id : Nat) : List Content → Store → Except TreeError Store
  | [], s => .ok s
  | c :: cs, s => do fillContent id cs (← fillItem id c s)

def fillItem (id : Nat) : Content → Store → Except TreeError Store
  | .element e, s =>
    match s[id]? with
    | none => .ok s
    | some parent => do
      let (s, child) ← l.createChild parent e.tag s
      let s ← s.addChild id child
      fill child e s
  | _, s => .ok s

end

/-- Loads a document; answers the store with all its elements and the number of the root. -/
def load (text : String) (s : Store) : Except TreeError (Store × Nat) :=
  match readDocument l.allowDoctype text with
  | .error _ => .error .malformedDocument
  | .ok e => do
    let (s, root) ← l.create e.tag s
    return (← l.fill root e s, root)

end Loader

end XmlBinding.Tree
