import XmlBinding.Binding.Fields
/-!
# Derivation of complex types

A complex type contributes after its base: markers of abstract types, particles, the type of its
text, and fields. A chain that comes back to a type is circular.
-/
namespace XmlBinding.Binding
open Schema Value

/-- A particle and the named type that declares it. -/
structure DeclaredParticle where
  particle : Particle
  declaredIn : Option String

/-- What a chain of derivations has contributed so far. -/
structure Draft where
  content : Option FieldType := none
  fields : List Field := []
  markers : List String := []
  particles : List DeclaredParticle := []

/-- The marker of an abstract type that has a name. -/
def markerOf (catalog : Catalog) (t : ComplexType) : Option String :=
  if t.isAbstract then (t.name.bind (remembered catalog.complexTypes)).map (·.name) else none

def Draft.addMarker (d : Draft) : Option String → Draft
  | none => d
  | some m => if d.markers.contains m then d else { d with markers := d.markers ++ [m] }

/-- The markers are all that is different. -/
theorem Draft.exists_addMarker_eq (d : Draft) (m : Option String) :
    ∃ markers, d.addMarker m = { d with markers } := by
  cases m with
  | none => exact ⟨_, rfl⟩
  | some m =>
    rw [addMarker]
    split
    · exact ⟨_, rfl⟩
    · exact ⟨_, rfl⟩

def Draft.addParticle (d : Draft) (declaredIn : Option String) : Option Particle → Draft
  | none => d
  | some p => { d with particles := d.particles ++ [⟨p, declaredIn⟩] }

def isComplex (model : Model) : TypeName → Bool
  | .builtin _ => false
  | .schema name => (model.complexType name).isSome

/-- The scope of a complex type that has a name. -/
def typeScope (name : String) : Build Scope := do
  match remembered (← get).complexTypes name with
  | some entry => return .ofType name entry
  | none => fail (.unknown .complexType name)

/-- What restricted text is kept as; an enumeration of it is made once in a scope. -/
def restrictedContent (model : Model) (scope : Scope) (r : Restriction) : Build FieldType :=
  remembering (scope.key, contentName)
    (resolveRestriction (resolveNamed model) ⟨scope.name ++ "Content", none, scope.owner⟩ none r)

def complexBase? (model : Model) (r : Restriction) : Option TypeName :=
  match r.base with
  | .named base => if isComplex model base then some base else none
  | .inline _ => none

section
variable (model : Model) (base : TypeName → Draft → Build Draft)

/-- Adds what the content of a type contributes; `base` adds the contributions of a base type. -/
def addContent (scope : Scope) (name : Option String) (d : Draft) :
    ComplexContent → Build Draft
  | .empty => return d
  | .particle p => return d.addParticle name (some p)
  | .extension b particle => do return (← base b d).addParticle name particle
  | .simpleExtension b => do
    if isComplex model b then base b d
    else return { d with content := some (← resolveTypeName (resolveNamed model) b) }
  | .simpleRestriction r => do
    let complex := complexBase? model r
    let d ← match complex with
      | some b => base b d
      | none => pure d
    if complex.isNone || !r.enumerations.isEmpty then
      return { d with content := some (← restrictedContent model scope r) }
    else return d

/-- Adds what a type contributes. Mixed text is plain, unless it has a type already. -/
def addType (scope : Scope) (t : ComplexType) (d : Draft) : Build Draft := do
  let d := d.addMarker (markerOf (← get) t)
  let d ← addContent model base scope t.name d t.content
  let fields ← addAttributes model scope t.attributes d.fields
  let content := if t.mixed && d.content.isNone then some (.primitive .string) else d.content
  return { d with fields := fields, content := content }

end

/-- Adds what a base type contributes; `active` are the bases being expanded. No more types can be
expanded at once than there are, so the bound is never reached. -/
def addBaseWithin (model : Model) : Nat → List String → TypeName → Draft → Build Draft
  | _, _, .builtin name, _ => fail (.unsupported (.builtinBase (TypeName.builtin name).text))
  | 0, _, .schema name, _ => fail (.unsupported (.nesting .baseType name))
  | bound + 1, active, .schema name, d => do
    match model.complexType name with
    | none => fail (.unknown .complexType name)
    | some t =>
      let scope ← typeScope name
      if active.contains name then fail (.circular .baseType name)
      else addType model (addBaseWithin model bound (name :: active)) scope t d

/-- The contributions of a type with all its bases. -/
def derive (model : Model) (scope : Scope) (t : ComplexType) : Build Draft :=
  addType model (addBaseWithin model (model.complexTypes.length + 1) []) scope t {}

end XmlBinding.Binding
